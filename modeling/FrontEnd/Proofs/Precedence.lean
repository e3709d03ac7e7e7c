import FrontEnd.Proofs.ExpressionGrammar

/-!
# Powers shape what is read

Operators may be registered for any kinds of token, at any powers. The powers alone then decide how
what is read is grouped: an operator takes from its right what binds more strongly than itself, and
becomes an operand where the next operator is no stronger. This holds of what no parentheses were
read around; inside of them everything begins anew.

* `Tables.Ranked` — the language with further operators, or with operators of other powers.
* `Reading` — how the tables have a phrase read, stage by stage.
* `Phrase.Placed`, `Phrase.Shaped` — the operands that an operator may have, and a phrase of which
  all operators have such operands.
* `Phrase.Settled` — what is known of a phrase and the token after it.

Principal results: `Reading.unique` (tokens are read in one way), `Reading.of_parseExpr` and
`Reading.runs` (the parser finds what can be read, and nothing else), `Reading.settled` (the shape,
stage by stage) and `Parser.parseExpression_shaped`.
-/

namespace FrontEnd

open TokenStream

/-! ## Operators of any power -/

/-- The tables that come from those of the language by making kinds of token operators that group to
the left, at whatever powers; the end of input is none of them. -/
inductive Tables.Ranked : Tables → Prop where
  | default : Ranked .default
  | setOperator {t : Tables} (kind : TokenKind) (power : BindingPower) (h : Ranked t)
      (hkind : kind ≠ .eof) : Ranked (t.setOperator kind ⟨power, .binary⟩)

namespace Tables

variable {t : Tables} {cutoff : BindingPower} {kind : TokenKind} {op : Operator}

theorem Ranked.operator_eof (h : t.Ranked) : t.operator .eof = none := by
  induction h with
  | default => rfl
  | setOperator _ _ _ hkind ih => rw [operator_setOperator_eof _ hkind, ih]

theorem Ranked.prefixRule_eq (h : t.Ranked) : t.prefixRule = Tables.default.prefixRule := by
  induction h with
  | default => rfl
  | setOperator _ _ _ _ ih => exact ih

/-- All operators parse their right operands at their own powers. -/
theorem Ranked.rule_eq (h : t.Ranked) (hop : t.operator kind = some op) : op.rule = .binary := by
  induction h with
  | default =>
    obtain ⟨l, -, rfl⟩ := Level.exists_of_operator hop
    rfl
  | @setOperator t kind' power h _ ih =>
    by_cases hkind : kind = kind'
    · simp only [Tables.setOperator, if_pos hkind, Option.some.injEq] at hop
      rw [← hop]
    · simp only [Tables.setOperator, if_neg hkind] at hop
      exact ih hop

theorem operatorAbove?_eq_some :
    t.operatorAbove? cutoff kind = some op ↔
      t.operator kind = some op ∧ kind ≠ .semicolon ∧ cutoff < op.power := by
  unfold operatorAbove?
  cases t.operator kind with
  | none => simp
  | some op' =>
    simp only [Option.ite_none_right_eq_some, Option.some.injEq]
    constructor
    · rintro ⟨hc, rfl⟩
      exact ⟨rfl, hc⟩
    · rintro ⟨rfl, hc⟩
      exact ⟨hc, rfl⟩

theorem power_of_operatorAbove? (h : t.operatorAbove? cutoff kind = some op) :
    t.power kind = op.power := by
  rw [power, (operatorAbove?_eq_some.1 h).1]

/-- An operator that one cut-off admits and another does not is no stronger than the other. -/
theorem power_le_of_not_above {other : BindingPower} (h : t.operatorAbove? cutoff kind = some op)
    (hnone : t.operatorAbove? other kind = none) : t.power kind ≤ other := by
  obtain ⟨hop, hkind, -⟩ := operatorAbove?_eq_some.1 h
  rw [power_of_operatorAbove? h]
  refine BindingPower.not_lt.1 fun hlt => ?_
  rw [operatorAbove?_eq_some.2 ⟨hop, hkind, hlt⟩] at hnone
  cases hnone

end Tables

/-! ## Readings -/

/-- What is read: the beginning of an expression, what follows an operand `left` as far as a cut-off
admits it, or an expression as a whole. -/
inductive Stage where
  | opening
  | extending (cutoff : BindingPower) (left : Phrase)
  | whole (cutoff : BindingPower)

/-- The cut-off of a stage. A beginning is read without one. -/
def Stage.cutoff? : Stage → Option BindingPower
  | opening => none
  | extending cutoff _ => some cutoff
  | whole cutoff => some cutoff

/-- The tokens that a stage starts with, those of the operand before it included. -/
def Stage.tokens (s : TokenStream) : Stage → List Token
  | opening => s.pending
  | extending _ left => left.tokens ++ s.next.pending
  | whole _ => s.pending

/-- `Reading t stage s x r`: by the tables `t` the phrase `x` is read from the stream `s`, at the
end of which the stream is `r`. A phrase becomes a group when it is read between parentheses. -/
inductive Reading (t : Tables) : Stage → TokenStream → Phrase → TokenStream → Prop where
  | identifier {s : TokenStream} (h : t.prefixRule s.current.kind = some .identifier) :
    Reading t .opening s (.identifier s.current) s
  | integer {s : TokenStream} {value : Int64} (h : t.prefixRule s.current.kind = some .integer)
    (hv : literalValue? s.current.text = some value) :
    Reading t .opening s (.integer s.current value) s
  | boolean {s : TokenStream} (h : t.prefixRule s.current.kind = some .boolean) :
    Reading t .opening s (.boolean s.current) s
  | unary {s r : TokenStream} {x : Phrase} (h : t.prefixRule s.current.kind = some .unary)
    (hx : Reading t (.whole .unary) s.next x r) : Reading t .opening s (.unary s.current x) r
  | group {s r : TokenStream} {x : Phrase} (h : t.prefixRule s.current.kind = some .grouping)
    (hx : Reading t (.whole .lowest) s.next x r) (hc : r.peek.kind = .closeParen) :
    Reading t .opening s (.group s.current x r.peek) r.next
  /-- No operator comes next that the cut-off admits. -/
  | stay {s : TokenStream} {cutoff : BindingPower} {left : Phrase}
    (h : t.operatorAbove? cutoff s.peek.kind = none) : Reading t (.extending cutoff left) s left s
  /-- An operator comes next, and a right operand that it is put before. -/
  | extend {s r r' : TokenStream} {cutoff : BindingPower} {op : Operator} {left x y : Phrase}
    (h : t.operatorAbove? cutoff s.peek.kind = some op)
    (hy : Reading t (.whole (op.rule.operandPower op.power)) s.next.next y r)
    (hx : Reading t (.extending cutoff (.binary left s.peek y)) r x r') :
    Reading t (.extending cutoff left) s x r'
  | whole {s r r' : TokenStream} {cutoff : BindingPower} {left x : Phrase}
    (hleft : Reading t .opening s left r) (hx : Reading t (.extending cutoff left) r x r') :
    Reading t (.whole cutoff) s x r'

namespace Reading

variable {t : Tables} {stage : Stage} {s r r' : TokenStream} {x x' : Phrase}

/-- **Tokens are read in one way.** -/
theorem unique (h : Reading t stage s x r) (h' : Reading t stage s x' r') : x' = x ∧ r' = r := by
  induction h generalizing x' r' with
  | identifier h | boolean h => cases h' <;> simp_all
  | integer h hv => cases h' <;> simp_all
  | unary h hx ih =>
    cases h' with
    | unary _ hx' =>
      obtain ⟨rfl, rfl⟩ := ih hx'
      exact ⟨rfl, rfl⟩
    | _ => simp_all
  | group h hx hc ih =>
    cases h' with
    | group _ hx' _ =>
      obtain ⟨rfl, rfl⟩ := ih hx'
      exact ⟨rfl, rfl⟩
    | _ => simp_all
  | stay h =>
    cases h' with
    | stay => exact ⟨rfl, rfl⟩
    | extend h' => simp_all
  | extend h hy hx ihy ihx =>
    cases h' with
    | stay h' => simp_all
    | extend h' hy' hx' =>
      obtain rfl := Option.some.inj (h'.symm.trans h)
      obtain ⟨rfl, rfl⟩ := ihy hy'
      exact ihx hx'
  | whole hleft hx ihleft ihx =>
    cases h' with
    | whole hleft' hx' =>
      obtain ⟨rfl, rfl⟩ := ihleft hleft'
      exact ihx hx'

/-- Where an expression ends, no operator comes next that its cut-off admits. -/
theorem stops (h : Reading t stage s x r) :
    ∀ cutoff ∈ stage.cutoff?, t.operatorAbove? cutoff r.peek.kind = none := by
  induction h with
  | identifier | integer | boolean | unary | group => exact fun cutoff hc => nomatch hc
  | stay h =>
    rintro cutoff ⟨⟩
    exact h
  | extend _ _ _ _ ihx => exact ihx
  | whole _ _ _ ihx => exact ihx

end Reading

/-! ## The parser's own readings -/

/-- Whatever is found within the levels has been read, and nests no deeper. -/
def ReadAt (t : Tables) (levels : Nat) : Prop :=
  ∀ {cutoff : BindingPower} {s r : TokenStream} {e : Expr},
    parseExpr t levels cutoff s = .found e r →
      ∃ x, Reading t (.whole cutoff) s x r ∧ x.need ≤ levels ∧ x.tree = e

section

variable {t : Tables} {levels : Nat} {s r : TokenStream} {e : Expr}

theorem PrefixRule.run_reading (ih : ReadAt t levels) {rule : PrefixRule}
    (hrule : t.prefixRule s.current.kind = some rule)
    (h : rule.run (parseExpr t levels) s = .found e r) :
    ∃ x, Reading t .opening s x r ∧ x.need ≤ levels + 1 ∧ x.tree = e := by
  cases rule with
  | identifier =>
    simp only [PrefixRule.run, Outcome.found.injEq] at h
    obtain ⟨rfl, rfl⟩ := h
    exact ⟨_, .identifier hrule, Nat.le_add_left 1 levels, rfl⟩
  | integer =>
    simp only [PrefixRule.run] at h
    split at h
    · rename_i value hvalue
      simp only [Outcome.found.injEq] at h
      obtain ⟨rfl, rfl⟩ := h
      exact ⟨_, .integer hrule hvalue, Nat.le_add_left 1 levels, rfl⟩
    · cases h
  | boolean =>
    simp only [PrefixRule.run, Outcome.found.injEq] at h
    obtain ⟨rfl, rfl⟩ := h
    exact ⟨_, .boolean hrule, Nat.le_add_left 1 levels, rfl⟩
  | unary =>
    simp only [PrefixRule.run, Outcome.andThen_eq_found, Outcome.found.injEq] at h
    obtain ⟨right, r', hright, rfl, rfl⟩ := h
    obtain ⟨x, hx, hneed, rfl⟩ := ih hright
    refine ⟨_, .unary hrule hx, ?_, rfl⟩
    rw [Phrase.need]
    omega
  | grouping =>
    simp only [PrefixRule.run, Outcome.andThen_eq_found, Outcome.found.injEq] at h
    obtain ⟨inner, r', hinner, _, r'', hclose, rfl, rfl⟩ := h
    obtain ⟨x, hx, hneed, rfl⟩ := ih hinner
    unfold expectPeek at hclose
    split at hclose
    · rename_i hkind
      simp only [Outcome.found.injEq, true_and] at hclose
      rw [← hclose]
      refine ⟨_, .group hrule hx hkind, ?_, rfl⟩
      rw [Phrase.need]
      omega
    · cases hclose

/-- The operator loop reads on after the phrase so far. The induction is on the tokens left. -/
theorem climb_reading (heof : t.operator .eof = none) (ih : ReadAt t levels)
    {cutoff : BindingPower} {left : Phrase} (hneed : left.need ≤ levels + 1)
    (h : climb t (parseExpr t levels) cutoff s.pending left.tree s = .found e r) :
    ∃ x, Reading t (.extending cutoff left) s x r ∧ x.need ≤ levels + 1 ∧ x.tree = e := by
  induction hn : s.pending.length using Nat.strongRecOn generalizing s left with
  | ind n ihn =>
    rw [climb_eq heof (parseExpr_reaches _ _)] at h
    cases hop : t.operatorAbove? cutoff s.peek.kind with
    | none =>
      simp only [hop, Outcome.found.injEq] at h
      obtain ⟨rfl, rfl⟩ := h
      exact ⟨left, .stay hop, hneed, rfl⟩
    | some op =>
      simp only [hop] at h
      obtain ⟨left', r', hleft, hclimb⟩ := Outcome.andThen_eq_found.1 h
      have hlt := InfixRule.run_length_lt (parseExpr_reaches t levels) hleft
        (two_le_of_operatorAbove? heof hop)
      simp only [InfixRule.run, Outcome.andThen_eq_found, Outcome.found.injEq, current_next]
        at hleft
      obtain ⟨right, r'', hright, rfl, rfl⟩ := hleft
      obtain ⟨y, hy, hneedy, rfl⟩ := ih hright
      have hneed' : (Phrase.binary left s.peek y).need ≤ levels + 1 := by
        rw [Phrase.need]
        omega
      obtain ⟨x, hx, hneedx, rfl⟩ := ihn _ (by omega) hneed' hclimb rfl
      exact ⟨x, .extend hop hy hx, hneedx, rfl⟩

theorem Reading.of_parseExpr (heof : t.operator .eof = none) (levels : Nat) :
    ReadAt t levels := by
  induction levels with
  | zero =>
    intro cutoff s r e h
    cases h
  | succ levels ih =>
    intro cutoff s r e h
    unfold parseExpr at h
    split at h
    · cases h
    · rename_i rule hrule
      obtain ⟨left, r', hleft, hclimb⟩ := Outcome.andThen_eq_found.1 h
      obtain ⟨y, hy, hneedy, rfl⟩ := PrefixRule.run_reading ih hrule hleft
      obtain ⟨x, hx, hneedx, rfl⟩ := climb_reading heof ih hneedy hclimb
      exact ⟨x, .whole hy hx, hneedx, rfl⟩

end

/-- What the parser does where the phrase `x` is read from the stream `s` up to the stream `r`: it
finds the tree of the phrase, within as many levels as the phrase needs. -/
def Stage.Runs (t : Tables) (s r : TokenStream) (x : Phrase) : Stage → Prop
  | opening => ∀ levels, x.need ≤ levels + 1 → ∃ rule,
      t.prefixRule s.current.kind = some rule ∧
        rule.run (parseExpr t levels) s = .found x.tree r
  | extending cutoff left => left.need ≤ x.need ∧ ∀ levels, x.need ≤ levels + 1 →
      climb t (parseExpr t levels) cutoff s.pending left.tree s = .found x.tree r
  | whole cutoff => ∀ levels, x.need ≤ levels → parseExpr t levels cutoff s = .found x.tree r

/-- **The parser finds what can be read**, if there are levels for it. -/
theorem Reading.runs {t : Tables} (heof : t.operator .eof = none) {stage : Stage}
    {s r : TokenStream} {x : Phrase} (h : Reading t stage s x r) : stage.Runs t s r x := by
  induction h with
  | identifier h => exact fun levels _ => ⟨_, h, rfl⟩
  | boolean h => exact fun levels _ => ⟨_, h, rfl⟩
  | integer h hv =>
    refine fun levels _ => ⟨_, h, ?_⟩
    simp only [PrefixRule.run, hv]
    rfl
  | unary h _ ih =>
    intro levels hneed
    rw [Phrase.need] at hneed
    refine ⟨_, h, ?_⟩
    simp only [PrefixRule.run, ih levels (by omega), Outcome.andThen_found]
    rfl
  | group h _ hc ih =>
    intro levels hneed
    rw [Phrase.need] at hneed
    refine ⟨_, h, ?_⟩
    simp only [PrefixRule.run, ih levels (by omega), Outcome.andThen_found, expectPeek, if_pos hc]
    rfl
  | stay h =>
    refine ⟨Nat.le_refl _, fun levels _ => ?_⟩
    rw [climb_round, h]
  | @extend s r r' cutoff op left x y h _ _ ihy ihx =>
    obtain ⟨hle, hclimb⟩ := ihx
    rw [Phrase.need] at hle
    refine ⟨by omega, fun levels hneed => ?_⟩
    rw [climb_eq heof (parseExpr_reaches _ _), h]
    simp only [InfixRule.run, ihy levels (by omega), Outcome.andThen_found, current_next]
    exact hclimb levels hneed
  | @whole s r r' cutoff left x _ _ ihleft ihx =>
    intro levels hneed
    have hone := x.one_le_need
    obtain ⟨n, rfl⟩ : ∃ n, levels = n + 1 := ⟨levels - 1, by omega⟩
    obtain ⟨rule, hrule, hrun⟩ := ihleft n (Nat.le_trans ihx.1 hneed)
    rw [parseExpr, hrule]
    simp only [hrun, Outcome.andThen_found]
    exact ihx.2 n hneed

/-! ## The tokens that are read -/

/-- A reading keeps every token that it moves on over, parentheses included. -/
theorem Reading.tokens_eq {t : Tables} (hbegin : t.prefixRule .eof = none)
    (heof : t.operator .eof = none) {stage : Stage} {s r : TokenStream} {x : Phrase}
    (h : Reading t stage s x r) : stage.tokens s = x.tokens ++ r.next.pending := by
  have hopening : ∀ {s : TokenStream} {rule : PrefixRule},
      t.prefixRule s.current.kind = some rule → s.pending = s.current :: s.next.pending := by
    intro s rule hrule
    refine pending_eq_cons fun hk => ?_
    rw [hk, hbegin] at hrule
    cases hrule
  have hpeek : ∀ {s : TokenStream}, s.peek.kind ≠ .eof →
      s.next.pending = s.peek :: s.next.next.pending := by
    intro s hk
    rw [← current_next] at hk ⊢
    exact pending_eq_cons hk
  induction h with
  | identifier h | integer h _ | boolean h => exact hopening h
  | @unary s r x h _ ih =>
    rw [Stage.tokens] at ih
    rw [Stage.tokens, hopening h, ih, Phrase.tokens, List.cons_append]
  | @group s r x h _ hc ih =>
    have hclosing := hpeek (s := r) (by rw [hc]; decide)
    rw [Stage.tokens] at ih
    rw [Stage.tokens, hopening h, ih, hclosing, Phrase.tokens, List.cons_append, List.append_assoc]
    rfl
  | stay => rfl
  | @extend s r r' cutoff op left x y h hy hx ihy ihx =>
    have hoperator := hpeek (s := s) fun hk => by
      rw [hk, Tables.operatorAbove?_eof heof] at h
      cases h
    rw [Stage.tokens] at ihy
    rw [Stage.tokens, Phrase.tokens, List.append_assoc, List.cons_append] at ihx
    rw [Stage.tokens, hoperator, ihy, ihx]
  | whole _ _ ihleft ihx =>
    exact ihleft.trans ihx

/-! ## Shapes -/

namespace Phrase

/-- The operator between the operands of a phrase; there is none if the phrase is in parentheses. -/
def operator? : Phrase → Option Token
  | binary _ operator _ => some operator
  | _ => none

/-- Whether the last operand of a phrase, outside of parentheses, is that of an operator before
it. -/
def endsInUnary : Phrase → Bool
  | unary _ _ => true
  | binary _ _ right => right.endsInUnary
  | _ => false

/-- A phrase and the phrases in it. -/
def subphrases (x : Phrase) : List Phrase :=
  x :: match x with
    | unary _ operand => operand.subphrases
    | group _ inner _ => inner.subphrases
    | binary left _ right => left.subphrases ++ right.subphrases
    | _ => []

/-- Whether an operator may have its operands: on its right, and after an operator before its
operand, only stronger operators; on its left operators that are as strong, and an operator before
the last operand only if that is as strong. -/
def Placed (t : Tables) : Phrase → Prop
  | unary _ operand => ∀ o ∈ operand.operator?, .unary < t.power o.kind
  | binary left operator right =>
    (∀ o ∈ right.operator?, t.power operator.kind < t.power o.kind) ∧
      (∀ o ∈ left.operator?, t.power operator.kind ≤ t.power o.kind) ∧
      (left.endsInUnary = true → t.power operator.kind ≤ .unary)
  | _ => True

/-- Whether all operators in a phrase have operands that they may have. -/
def Shaped (t : Tables) (x : Phrase) : Prop := ∀ y ∈ x.subphrases, y.Placed t

def Above (t : Tables) (cutoff : BindingPower) (x : Phrase) : Prop :=
  ∀ o ∈ x.operator?, cutoff < t.power o.kind

/-- What is known of a phrase before a token of the kind `next`: the phrase is shaped, and the token
is no operator that its own operators would have taken for themselves. -/
structure Settled (t : Tables) (x : Phrase) (next : TokenKind) : Prop where
  shaped : x.Shaped t
  operator : ∀ o ∈ x.operator?, t.operatorAbove? (t.power o.kind) next = none
  unary : x.endsInUnary = true → t.operatorAbove? .unary next = none

variable {t : Tables} {x y : Phrase}

theorem Shaped.group (h : x.Shaped t) (opening closing : Token) :
    (group opening x closing).Shaped t :=
  List.forall_mem_cons.2 ⟨trivial, h⟩

theorem Shaped.unary (h : x.Shaped t) (habove : x.Above t .unary) (operator : Token) :
    (unary operator x).Shaped t :=
  List.forall_mem_cons.2 ⟨habove, h⟩

theorem Shaped.binary (hx : x.Shaped t) (hy : y.Shaped t) {operator : Token}
    (h : (binary x operator y).Placed t) : (binary x operator y).Shaped t :=
  List.forall_mem_cons.2 ⟨h, List.forall_mem_append.2 ⟨hx, hy⟩⟩

/-- A phrase without operators of its own. -/
theorem Shaped.settled (h : x.Shaped t) (hoperator : x.operator? = none)
    (hunary : x.endsInUnary = false) (next : TokenKind) : x.Settled t next where
  shaped := h
  operator o ho := by
    rw [hoperator] at ho
    cases ho
  unary h := by
    rw [hunary] at h
    cases h

end Phrase

/-- What is known of a phrase that has been read from the stream `s` up to the stream `r`. The
operator loop needs it of the operand that it starts with. -/
def Stage.Settles (t : Tables) (s r : TokenStream) (x : Phrase) : Stage → Prop
  | opening => x.Settled t r.peek.kind ∧ x.operator? = none
  | extending cutoff left => left.Settled t s.peek.kind → left.Above t cutoff →
      x.Settled t r.peek.kind ∧ x.Above t cutoff
  | whole cutoff => x.Settled t r.peek.kind ∧ x.Above t cutoff

/-- An operator is put between the phrase so far and the phrase after it. -/
theorem Phrase.Settled.binary {t : Tables} {cutoff : BindingPower} {left y : Phrase}
    {operator : Token} {op : Operator} {next : TokenKind}
    (h : t.operatorAbove? cutoff operator.kind = some op)
    (hleft : left.Settled t operator.kind) (hy : y.Settled t next)
    (habove : y.Above t (t.power operator.kind))
    (hstops : t.operatorAbove? (t.power operator.kind) next = none) :
    (Phrase.binary left operator y).Settled t next ∧
      (Phrase.binary left operator y).Above t cutoff := by
  constructor
  · refine ⟨hleft.shaped.binary hy.shaped ⟨habove, fun o ho => ?_, fun hunary => ?_⟩, ?_, hy.unary⟩
    · exact Tables.power_le_of_not_above h (hleft.operator o ho)
    · exact Tables.power_le_of_not_above h (hleft.unary hunary)
    · rintro o ⟨⟩
      exact hstops
  · rintro o ⟨⟩
    rw [Tables.power_of_operatorAbove? h]
    exact (Tables.operatorAbove?_eq_some.1 h).2.2

/-- **What is read is shaped by the powers**, at every stage. -/
theorem Reading.settled {t : Tables}
    (hrules : ∀ {kind op}, t.operator kind = some op → op.rule = .binary) {stage : Stage}
    {s r : TokenStream} {x : Phrase} (h : Reading t stage s x r) : stage.Settles t s r x := by
  induction h with
  | identifier | integer | boolean =>
    refine ⟨Phrase.Shaped.settled (fun y hy => ?_) rfl rfl _, rfl⟩
    obtain rfl := List.mem_singleton.1 hy
    trivial
  | unary _ hx ih =>
    obtain ⟨hsettled, habove⟩ := ih
    exact ⟨⟨hsettled.shaped.unary habove _, fun o ho => (nomatch ho),
      fun _ => hx.stops .unary rfl⟩, rfl⟩
  | group _ _ _ ih => exact ⟨(ih.1.shaped.group _ _).settled rfl rfl _, rfl⟩
  | stay => exact fun hleft habove => ⟨hleft, habove⟩
  | @extend s r r' cutoff op left x y h hy hx ihy ihx =>
    intro hleft _
    have hoperand : op.rule.operandPower op.power = t.power s.peek.kind := by
      rw [hrules (Tables.operatorAbove?_eq_some.1 h).1, Tables.power_of_operatorAbove? h]
      rfl
    rw [hoperand] at hy ihy
    obtain ⟨hsettled, habove⟩ :=
      Phrase.Settled.binary h hleft ihy.1 ihy.2 (hy.stops _ rfl)
    exact ihx hsettled habove
  | whole _ _ ihleft ihx =>
    refine ihx ihleft.1 fun o ho => ?_
    rw [ihleft.2] at ho
    cases ho

/-- **Powers shape what is read.** Whatever kinds of token are made operators, and at whatever
powers, a parser finds an expression above a cut-off if and only if a phrase can be read that nests
no deeper than the levels that are still to open, and what it finds is the tree of the phrase. There
is at most one such phrase, and it has all tokens that the parser moves on over. An operator in it
has on its right only stronger operators, on its left only operators that are as strong, and no
operator before the last operand on its left that is weaker; an operator before its operand has only
stronger operators in it. This is said of operands that are not in parentheses. Operators of one
power therefore group to the left. -/
theorem Parser.parseExpression_shaped {p : Parser} (htables : p.tables.Ranked)
    (cutoff : BindingPower) :
    (∀ e q, p.parseExpression cutoff = (.ok e, q) ↔
      ∃ x r, Reading p.tables (.whole cutoff) p.tokens x r ∧ p.depth + x.need ≤ maxNesting ∧
        e = x.tree ∧ q = p.moveTo r) ∧
    (∀ x r y r', Reading p.tables (.whole cutoff) p.tokens x r →
      Reading p.tables (.whole cutoff) p.tokens y r' → y = x ∧ r' = r) ∧
    ∀ x r, Reading p.tables (.whole cutoff) p.tokens x r →
      p.tokens.pending = x.tokens ++ r.next.pending ∧ x.Shaped p.tables ∧
      ∀ left operator right, .binary left operator right ∈ x.subphrases →
        ∀ o ∈ right.operator?, p.tables.power o.kind ≠ p.tables.power operator.kind := by
  refine ⟨fun e q => ⟨fun h => ?_, ?_⟩, fun x r y r' hx hy => hx.unique hy, fun x r hx => ?_⟩
  · have hfound : parseExpr p.tables p.levels cutoff p.tokens = .found e q.tokens :=
      attempt_eq_ok h
    obtain ⟨x, hx, hneed, rfl⟩ := Reading.of_parseExpr htables.operator_eof p.levels hfound
    have hone := x.one_le_need
    rw [levels] at hneed
    refine ⟨x, q.tokens, hx, by omega, rfl, ?_⟩
    rw [parseExpression, operand, hfound] at h
    exact (Prod.mk.inj h).2.symm
  · rintro ⟨x, r, hx, hneed, rfl, rfl⟩
    have hlevels : x.need ≤ p.levels := by
      rw [levels]
      omega
    rw [parseExpression, operand, hx.runs htables.operator_eof p.levels hlevels]
    rfl
  · have hshaped := (hx.settled htables.rule_eq).1.shaped
    refine ⟨hx.tokens_eq (by rw [htables.prefixRule_eq]; rfl) htables.operator_eof, hshaped,
      fun left operator right hmem o ho heq => ?_⟩
    have hlt := (hshaped _ hmem).1 o ho
    rw [heq] at hlt
    exact Nat.lt_irrefl _ hlt

/-- An assignment sign that binds more strongly than the minus before its operand is part of the
operand, and one minus after another groups to the left unless there are parentheses. -/
theorem Parser.parseExpression_shaped_assignment :
    let p := (Parser.ofFile "shell" "-a = b - (c - d) - e").setOperator .assign ⟨.call, .binary⟩
    p.tables.Ranked ∧ ∃ e q x, p.parseExpression .lowest = (.ok e, q) ∧
      e.text = "(((-(a = b)) - (c - d)) - e)" ∧
      Reading p.tables (.whole .lowest) p.tokens x q.tokens ∧ x.tree = e ∧
      x.Shaped p.tables := by
  intro p
  have htables : p.tables.Ranked := .setOperator _ _ .default (by decide)
  have htext : (p.parseExpression .lowest).1.toOption.map Expr.text =
      some "(((-(a = b)) - (c - d)) - e)" := by
    decide +kernel
  obtain ⟨hfound, -, hreading⟩ := parseExpression_shaped htables .lowest
  cases hparse : p.parseExpression .lowest with
  | mk result q =>
    rw [hparse] at htext
    cases result with
    | error d => cases htext
    | ok e =>
      obtain ⟨x, r, hx, -, rfl, rfl⟩ := (hfound e q).1 hparse
      exact ⟨htables, _, _, x, rfl, Option.some.inj htext, hx, rfl, (hreading x r hx).2.1⟩

end FrontEnd
