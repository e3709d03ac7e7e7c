import FrontEnd.Proofs.Grammar

/-!
# The parser reads exactly the grammar

With the rules of the language an expression is read above a cut-off power from the tokens that
form a phrase of the level above that power, up to the first operator that the cut-off admits no
more, and only if the phrase nests no deeper than there are levels left.

* `Reads` — a phrase ahead that ends where the operators above the cut-off end.
* `GoesOn` — a phrase ahead that an operator above the cut-off goes on.

Principal results: `parseExpr_sound`, `Derives.run` and `parseExpr_complete` (the two directions),
and `parseExpression_reads_iff`, which says of every parser and every power when an expression is
read, which one, and where the parser stands then.
-/

namespace FrontEnd

open TokenStream

/-! ## The operators of the language by level -/

theorem Tables.default_operator (kind : TokenKind) :
    Tables.default.operator kind = Operator.default? kind := by
  simp [Tables.default, Tables.withDefaults, Tables.empty]

theorem Tables.default_prefixRule (kind : TokenKind) :
    Tables.default.prefixRule kind = PrefixRule.default? kind := by
  simp [Tables.default, Tables.withDefaults, Tables.empty]

theorem Tables.default_operator_eof : Tables.default.operator .eof = none := rfl

namespace Level

theorem operator_of_mem {l : Level} {kind : TokenKind} (h : kind ∈ l.operators) :
    Tables.default.operator kind = some ⟨l.power, .binary⟩ := by
  rw [Tables.default_operator]
  cases l <;> simp only [operators, List.mem_cons, List.not_mem_nil, or_false] at h <;>
    rcases h with rfl | rfl <;> rfl

theorem exists_of_operator {kind : TokenKind} {op : Operator}
    (h : Tables.default.operator kind = some op) :
    ∃ l : Level, kind ∈ l.operators ∧ op = ⟨l.power, .binary⟩ := by
  rw [Tables.default_operator] at h
  cases kind <;> simp only [Operator.default?, Option.some.injEq, reduceCtorEq] at h <;> subst h
  case equal | notEqual => exact ⟨equality, by decide, rfl⟩
  case less | greater => exact ⟨relation, by decide, rfl⟩
  case plus | minus => exact ⟨sum, by decide, rfl⟩
  case star | slash => exact ⟨product, by decide, rfl⟩

theorem power_of_mem {l : Level} {kind : TokenKind} (h : kind ∈ l.operators) :
    Tables.default.power kind = l.power := by
  rw [Tables.power, operator_of_mem h]

theorem ne_semicolon_of_mem {l : Level} {kind : TokenKind} (h : kind ∈ l.operators) :
    kind ≠ .semicolon := by
  rintro rfl
  cases l <;> simp [operators] at h

theorem ne_eof_of_mem {l : Level} {kind : TokenKind} (h : kind ∈ l.operators) : kind ≠ .eof := by
  rintro rfl
  cases l <;> simp [operators] at h

/-- Chains have operators, unless they stand at the tightest level. -/
theorem ne_unary_of_mem {l : Level} {kind : TokenKind} (h : kind ∈ l.operators) : l ≠ unary := by
  rintro rfl
  simp [operators] at h

/-- A cut-off that admits the operators of a level, or leaves nothing to admit. -/
def AdmittedBy (l : Level) (cutoff : BindingPower) : Prop := cutoff < l.power ∨ l = unary

theorem above_admittedBy (cutoff : BindingPower) : (above cutoff).AdmittedBy cutoff := by
  cases cutoff <;> simp [above, AdmittedBy, power, BindingPower.lt_def, BindingPower.rank]

theorem above_power (l : Level) : above l.power = l.tighter := by
  cases l <;> rfl

theorem tighter_admittedBy {l : Level} {cutoff : BindingPower} (h : l.AdmittedBy cutoff) :
    l.tighter.AdmittedBy cutoff := by
  rcases h with h | rfl
  · cases l <;> simp only [AdmittedBy, tighter, power, BindingPower.lt_def, BindingPower.rank] at h ⊢
    all_goals first | exact Or.inr trivial | exact Or.inl (by omega)
  · exact .inr rfl

/-- The level above a cut-off is the loosest one that the cut-off admits. -/
theorem above_le_of_lt {l : Level} {cutoff : BindingPower} (h : cutoff < l.power) :
    (above cutoff).power ≤ l.power := by
  cases cutoff <;> cases l <;> revert h <;> decide

theorem power_le_tighter (l : Level) : l.power ≤ l.tighter.power := by
  cases l <;> decide

theorem le_unary (l : Level) : l.power ≤ unary.power := by
  cases l <;> decide

theorem lt_tighter {l : Level} (h : l ≠ unary) : l.power < l.tighter.power := by
  cases l <;> first | decide | exact absurd rfl h

theorem exists_looser {l : Level} (h : l ≠ equality) :
    ∃ m : Level, m.tighter = l ∧ m.power.rank + 1 = l.power.rank := by
  cases l
  case equality => exact absurd rfl h
  case relation => exact ⟨equality, rfl, rfl⟩
  case sum => exact ⟨relation, rfl, rfl⟩
  case product => exact ⟨sum, rfl, rfl⟩
  case unary => exact ⟨product, rfl, rfl⟩

theorem power_injective {l m : Level} (h : l.power.rank = m.power.rank) : l = m := by
  cases l <;> cases m <;> simp_all [power, BindingPower.rank]

end Level

/-- A phrase is one of every looser level as well. -/
theorem Derives.loosen {l m : Level} {u : List Token} {x : Phrase} (h : Derives m u x)
    (hle : l.power ≤ m.power) : Derives l u x := by
  rw [BindingPower.le_def] at hle
  induction hn : m.power.rank - l.power.rank generalizing m with
  | zero =>
    obtain rfl : l = m := Level.power_injective (by omega)
    exact h
  | succ n ih =>
    have hne : m ≠ .equality := by
      rintro rfl
      cases l <;> simp [Level.power, BindingPower.rank] at hn
    obtain ⟨k, rfl, hk⟩ := Level.exists_looser hne
    exact ih h.single (by omega) (by omega)

namespace Tables

theorem operatorAbove?_eq_none {cutoff : BindingPower} {kind : TokenKind} :
    Tables.default.operatorAbove? cutoff kind = none ↔
      ¬ cutoff < Tables.default.power kind := by
  unfold operatorAbove? power
  cases h : Tables.default.operator kind with
  | none => simp [BindingPower.lt_def, BindingPower.rank]
  | some op =>
    obtain ⟨l, hmem, _⟩ := Level.exists_of_operator h
    simp [Level.ne_semicolon_of_mem hmem]

theorem operatorAbove?_of_mem {l : Level} {cutoff : BindingPower} {kind : TokenKind}
    (h : kind ∈ l.operators) (hc : cutoff < l.power) :
    Tables.default.operatorAbove? cutoff kind = some ⟨l.power, .binary⟩ := by
  simp [operatorAbove?, Level.operator_of_mem h, Level.ne_semicolon_of_mem h, hc]

theorem exists_level_of_operatorAbove? {cutoff : BindingPower} {kind : TokenKind} {op : Operator}
    (h : Tables.default.operatorAbove? cutoff kind = some op) :
    ∃ l : Level, kind ∈ l.operators ∧ op = ⟨l.power, .binary⟩ ∧ cutoff < l.power := by
  unfold operatorAbove? at h
  cases hop : Tables.default.operator kind with
  | none => simp [hop] at h
  | some op' =>
    obtain ⟨l, hmem, rfl⟩ := Level.exists_of_operator hop
    simp only [hop] at h
    split at h
    · rename_i hc
      cases h
      exact ⟨l, hmem, rfl, hc.2⟩
    · cases h

/-- No operator is stronger than the unary ones. -/
theorem power_le_unary (kind : TokenKind) :
    ¬ Level.unary.power < Tables.default.power kind := by
  unfold power
  cases h : Tables.default.operator kind with
  | none => decide
  | some op =>
    obtain ⟨l, _, rfl⟩ := Level.exists_of_operator h
    cases l <;> decide

end Tables

/-- A token that the cut-off stops at stops the level above the cut-off too. -/
theorem Level.above_stops {cutoff : BindingPower} {kind : TokenKind}
    (h : ¬ cutoff < Tables.default.power kind) :
    ¬ (Level.above cutoff).power < Tables.default.power kind := by
  rcases Level.above_admittedBy cutoff with hlt | hunary
  · intro hgt
    exact h (Nat.lt_trans hlt hgt)
  · rw [hunary]
    exact Tables.power_le_unary kind

theorem Level.tighter_stops {l : Level} {kind : TokenKind}
    (h : ¬ l.power < Tables.default.power kind) :
    ¬ l.tighter.power < Tables.default.power kind :=
  fun hgt => h (Nat.lt_of_le_of_lt l.power_le_tighter hgt)

/-! ## What is read -/

/-- Above the cut-off the stream `s` begins with the phrase `x`, made of the tokens `u`: the phrase
is of the level above the cut-off, and the token after it is no operator above the cut-off. -/
structure Reads (s : TokenStream) (cutoff : BindingPower) (u : List Token) (x : Phrase) :
    Prop where
  derives : Derives (.above cutoff) u x
  starts : s.Starts u
  stops : ¬ cutoff < Tables.default.power (s.skip u.length).current.kind

/-- The stream `s` begins with the phrase `x` of the level `l`, made of the tokens `u`, and then an
operator of the level comes, above the cut-off. -/
structure GoesOn (s : TokenStream) (cutoff : BindingPower) (l : Level) (u : List Token)
    (x : Phrase) : Prop where
  derives : Derives l u x
  starts : s.Starts u
  mem_operators : (s.skip u.length).current.kind ∈ l.operators
  above : cutoff < l.power

/-- The token after `u` is next once the last token of `u` is current. -/
theorem TokenStream.peek_skip_pred {s : TokenStream} {u : List Token} (h : u ≠ []) :
    (s.skip (u.length - 1)).peek = (s.skip u.length).current := by
  have hpos := List.length_pos_iff.2 h
  rw [← current_next, next_skip, Nat.sub_add_cancel hpos]

/-! ## Soundness -/

/-- Every expression that is found within the levels is one of the grammar. -/
def SoundAt (levels : Nat) : Prop :=
  ∀ {cutoff : BindingPower} {s s' : TokenStream} {e : Expr},
    parseExpr .default levels cutoff s = .found e s' →
      ∃ u x, Reads s cutoff u x ∧ x.need ≤ levels ∧ x.tree = e ∧ s' = s.skip (u.length - 1)

/-- The kinds of token that call for a rule. -/
def PrefixRule.CalledBy (rule : PrefixRule) (kind : TokenKind) : Prop :=
  match rule with
  | .identifier => kind = .identifier
  | .integer => kind = .integer
  | .boolean => kind = .trueWord ∨ kind = .falseWord
  | .unary => kind = .minus ∨ kind = .bang
  | .grouping => kind = .openParen

theorem PrefixRule.calledBy_of_default? {rule : PrefixRule} {kind : TokenKind}
    (h : PrefixRule.default? kind = some rule) : rule.CalledBy kind := by
  cases kind <;> cases h <;> simp [PrefixRule.CalledBy]

/-- The beginning of an expression is a phrase of the tightest level. -/
theorem PrefixRule.run_sound {levels : Nat} (ih : SoundAt levels) {rule : PrefixRule}
    {s s' : TokenStream} {e : Expr}
    (hrule : Tables.default.prefixRule s.current.kind = some rule)
    (h : rule.run (parseExpr .default levels) s = .found e s') :
    ∃ u x, Derives .unary u x ∧ s.Starts u ∧ x.need ≤ levels + 1 ∧ x.tree = e ∧
      s' = s.skip (u.length - 1) := by
  rw [Tables.default_prefixRule] at hrule
  have hstart : s.Starts [s.current] := by
    refine starts_current fun hk => ?_
    rw [hk] at hrule
    cases hrule
  cases rule with
  | identifier =>
    have hkind : s.current.kind = .identifier := PrefixRule.calledBy_of_default? hrule
    simp only [PrefixRule.run, Outcome.found.injEq] at h
    exact ⟨_, _, .identifier hkind, hstart, Nat.le_add_left 1 levels, h.1, h.2.symm⟩
  | integer =>
    have hkind : s.current.kind = .integer := PrefixRule.calledBy_of_default? hrule
    simp only [PrefixRule.run] at h
    split at h
    · rename_i value hvalue
      simp only [Outcome.found.injEq] at h
      exact ⟨_, _, .integer hkind hvalue, hstart, Nat.le_add_left 1 levels, h.1, h.2.symm⟩
    · cases h
  | boolean =>
    have hkind : s.current.kind = .trueWord ∨ s.current.kind = .falseWord :=
      PrefixRule.calledBy_of_default? hrule
    simp only [PrefixRule.run, Outcome.found.injEq] at h
    exact ⟨_, _, .boolean hkind, hstart, Nat.le_add_left 1 levels, h.1, h.2.symm⟩
  | unary =>
    have hkind : s.current.kind = .minus ∨ s.current.kind = .bang :=
      PrefixRule.calledBy_of_default? hrule
    simp only [PrefixRule.run, Outcome.andThen_eq_found, Outcome.found.injEq] at h
    obtain ⟨right, r, hright, rfl, rfl⟩ := h
    rw [next_eq_skip] at hright
    obtain ⟨u, x, hreads, hneed, rfl, rfl⟩ := ih hright
    have hpos := List.length_pos_iff.2 hreads.derives.tokens_ne_nil
    refine ⟨_, _, .unary hkind hreads.derives, starts_cons.2 ⟨hstart, hreads.starts⟩, ?_, rfl, ?_⟩
    · simp only [Phrase.need]
      omega
    · rw [skip_skip, List.length_cons]
      congr 1
      omega
  | grouping =>
    have hkind : s.current.kind = .openParen := PrefixRule.calledBy_of_default? hrule
    simp only [PrefixRule.run, Outcome.andThen_eq_found, Outcome.found.injEq] at h
    obtain ⟨inner, r, hinner, _, r', hclose, rfl, rfl⟩ := h
    rw [next_eq_skip] at hinner
    obtain ⟨u, x, hreads, hneed, rfl, rfl⟩ := ih hinner
    have hpos := List.length_pos_iff.2 hreads.derives.tokens_ne_nil
    unfold expectPeek at hclose
    split at hclose
    · rename_i hck
      simp only [Outcome.found.injEq, true_and] at hclose
      rw [peek_skip_pred hreads.derives.tokens_ne_nil] at hck
      have hcstart := starts_current (s := (s.skip 1).skip u.length) (by rw [hck]; decide)
      refine ⟨_, _, .group hkind hreads.derives hck,
        starts_cons.2 ⟨hstart, starts_append.2 ⟨hreads.starts, hcstart⟩⟩, ?_, rfl, ?_⟩
      · simp only [Phrase.need]
        omega
      · rw [← hclose, skip_skip, next_skip, List.length_cons, List.length_append]
        congr 1
        simp only [List.length_cons, List.length_nil]
        omega
    · cases hclose

/-- The operator loop extends a phrase of a level that the cut-off admits, and that the next token
may go on. It ends with a phrase that the next token does not go on, or with the failure of the
operand after an operator that goes on. The induction is on the tokens left. -/
theorem climb_cases {levels : Nat} (ih : SoundAt levels) {cutoff : BindingPower} {s : TokenStream}
    {l : Level} {u : List Token} {x : Phrase} (hx : Derives l u x) (hu : s.Starts u)
    (hneed : x.need ≤ levels + 1) (hl : (Level.above cutoff).power ≤ l.power)
    (hstop : ¬ l.power < Tables.default.power (s.skip u.length).current.kind) {o : Outcome Expr}
    (h : climb .default (parseExpr .default levels) cutoff (s.skip (u.length - 1)).pending x.tree
      (s.skip (u.length - 1)) = o) :
    (∃ v y, Reads s cutoff v y ∧ y.need ≤ levels + 1 ∧ o = .found y.tree (s.skip (v.length - 1))) ∨
      ∃ m v y d r, GoesOn s cutoff m v y ∧ y.need ≤ levels + 1 ∧
        parseExpr .default levels m.power (s.skip (v.length + 1)) = .failed d r ∧
        o = .failed d r := by
  induction hn : (s.skip (u.length - 1)).pending.length using Nat.strongRecOn
    generalizing l u x with
  | ind n ihn =>
    rw [climb_eq Tables.default_operator_eof (parseExpr_reaches _ _)] at h
    cases hop : Tables.default.operatorAbove? cutoff (s.skip (u.length - 1)).peek.kind with
    | none =>
      simp only [hop] at h
      rw [peek_skip_pred hx.tokens_ne_nil] at hop
      exact .inl ⟨u, x, ⟨hx.loosen hl, hu, Tables.operatorAbove?_eq_none.1 hop⟩, hneed, h.symm⟩
    | some op =>
      have h2 := two_le_of_operatorAbove? Tables.default_operator_eof hop
      have hupos := List.length_pos_iff.2 hx.tokens_ne_nil
      simp only [hop] at h
      rw [peek_skip_pred hx.tokens_ne_nil] at hop
      obtain ⟨m, hmem, rfl, hcut⟩ := Tables.exists_level_of_operatorAbove? hop
      -- the operator is no stronger than those of the phrase so far, which is its left operand
      have hml : m.power ≤ l.power := by
        rw [Level.power_of_mem hmem] at hstop
        exact BindingPower.not_lt.1 hstop
      have hostart := starts_current (Level.ne_eof_of_mem hmem)
      simp only [InfixRule.run, InfixRule.operandPower, next_skip, Nat.sub_add_cancel hupos] at h
      cases hright : parseExpr .default levels m.power (s.skip (u.length + 1)) with
      | failed d r =>
        rw [hright] at h
        exact .inr ⟨m, u, x, d, r, ⟨hx.loosen hml, hu, hmem, hcut⟩, hneed, hright, h.symm⟩
      | found right r =>
        simp only [hright, Outcome.andThen_found] at h
        obtain ⟨v, y, hreads, hneedy, rfl, rfl⟩ := ih hright
        have hvpos := List.length_pos_iff.2 hreads.derives.tokens_ne_nil
        have hyd := hreads.derives
        rw [Level.above_power] at hyd
        have hlen : (u ++ (s.skip u.length).current :: v).length = u.length + 1 + v.length := by
          rw [List.length_append, List.length_cons]
          omega
        have hpred : (u ++ (s.skip u.length).current :: v).length - 1 =
            u.length + 1 + (v.length - 1) := by
          omega
        refine ihn _ ?_ (.chain (hx.loosen hml) hmem hyd)
          (starts_append.2 ⟨hu, starts_cons.2 ⟨hostart, ?_⟩⟩) ?_ (Level.above_le_of_lt hcut) ?_ ?_
          rfl
        · simp only [hpred, skip_pending, List.length_drop] at hn h2 ⊢
          omega
        · simpa using hreads.starts
        · simp only [Phrase.need]
          omega
        · rw [hlen, ← skip_skip]
          exact hreads.stops
        · rw [hpred, ← skip_skip]
          exact h

theorem parseExpr_sound (levels : Nat) : SoundAt levels := by
  induction levels with
  | zero =>
    intro cutoff s s' e h
    cases h
  | succ levels ih =>
    intro cutoff s s' e h
    unfold parseExpr at h
    split at h
    · cases h
    · rename_i rule hrule
      obtain ⟨left, r, hleft, hclimb⟩ := Outcome.andThen_eq_found.1 h
      obtain ⟨u, x, hx, hu, hneed, rfl, rfl⟩ := PrefixRule.run_sound ih hrule hleft
      rcases climb_cases ih hx hu hneed (Level.le_unary _) (Tables.power_le_unary _) hclimb with
        ⟨v, y, hreads, hneedy, ho⟩ | ⟨_, _, _, _, _, _, _, _, ho⟩
      · simp only [Outcome.found.injEq] at ho
        exact ⟨v, y, hreads, hneedy, ho.1.symm, ho.2⟩
      · cases ho

/-! ## Completeness -/

/-- Where the operators above the cut-off end, so does the loop. -/
theorem climb_stops {operand : OperandParser} {cutoff : BindingPower} {budget : List Token}
    {left : Expr} {s : TokenStream} (h : ¬ cutoff < Tables.default.power s.peek.kind) :
    climb .default operand cutoff budget left s = .found left s := by
  rw [climb_round, Tables.operatorAbove?_eq_none.2 h]

/-- With enough levels the parser gets to the end of every phrase of the grammar, at any cut-off
that admits the phrase's level, and then asks for the next operator. The induction is along the
left-recursive rules: a chain is read by going on from where its left operand ends. -/
theorem Derives.run {l : Level} {u : List Token} {x : Phrase} (h : Derives l u x) :
    ∀ {levels : Nat} {cutoff : BindingPower} {s : TokenStream}, x.need ≤ levels + 1 →
      s.Starts u → l.AdmittedBy cutoff →
      ¬ l.power < Tables.default.power (s.skip u.length).current.kind →
      parseExpr .default (levels + 1) cutoff s =
        climb .default (parseExpr .default levels) cutoff (s.skip (u.length - 1)).pending x.tree
          (s.skip (u.length - 1)) := by
  induction h with
  | @identifier name h =>
    intro levels cutoff s hneed hs hl hstop
    obtain rfl := hs.current_eq
    simp only [parseExpr, Tables.default_prefixRule, h, PrefixRule.default?, PrefixRule.run,
      Outcome.andThen_found]
    rfl
  | @integer token value h hv =>
    intro levels cutoff s hneed hs hl hstop
    obtain rfl := hs.current_eq
    simp only [parseExpr, Tables.default_prefixRule, h, PrefixRule.default?, PrefixRule.run, hv,
      Outcome.andThen_found]
    rfl
  | @boolean token h =>
    intro levels cutoff s hneed hs hl hstop
    obtain rfl := hs.current_eq
    rcases h with h | h <;>
    · simp only [parseExpr, Tables.default_prefixRule, h, PrefixRule.default?, PrefixRule.run,
        Outcome.andThen_found, Phrase.tree]
      rfl
  | @unary operator u x h hx ih =>
    intro levels cutoff s hneed hs hl hstop
    obtain rfl := hs.current_eq
    obtain ⟨_, hu⟩ := starts_cons.1 hs
    have hpos := List.length_pos_iff.2 hx.tokens_ne_nil
    simp only [Phrase.need] at hneed
    have hone := x.one_le_need
    obtain ⟨n, rfl⟩ : ∃ n, levels = n + 1 := ⟨levels - 1, by omega⟩
    rw [skip_length_cons] at hstop
    -- no operator is above the unary ones, so the operand ends where its phrase does
    have hoperand : parseExpr .default (n + 1) .unary (s.skip 1) =
        .found x.tree ((s.skip 1).skip (u.length - 1)) := by
      rw [ih (by omega) hu (.inr rfl) hstop]
      apply climb_stops
      rw [peek_skip_pred hx.tokens_ne_nil]
      exact hstop
    have hrule : PrefixRule.default? s.current.kind = some .unary := by
      rcases h with h | h <;> rw [h] <;> rfl
    rw [parseExpr, Tables.default_prefixRule, hrule]
    simp only [PrefixRule.run, next_eq_skip, hoperand, Outcome.andThen_found, skip_skip,
      List.length_cons, Phrase.tree]
    rw [show 1 + (u.length - 1) = u.length + 1 - 1 by omega]
  | @group opening closing u x ho hx hc ih =>
    intro levels cutoff s hneed hs hl hstop
    obtain rfl := hs.current_eq
    obtain ⟨_, hs'⟩ := starts_cons.1 hs
    obtain ⟨hu, hclosing⟩ := starts_append.1 hs'
    have hpos := List.length_pos_iff.2 hx.tokens_ne_nil
    simp only [Phrase.need] at hneed
    have hone := x.one_le_need
    obtain ⟨n, rfl⟩ : ∃ n, levels = n + 1 := ⟨levels - 1, by omega⟩
    have hck : ((s.skip 1).skip u.length).current.kind = .closeParen := by
      rw [hclosing.current_eq, hc]
    have hinner : parseExpr .default (n + 1) .lowest (s.skip 1) =
        .found x.tree ((s.skip 1).skip (u.length - 1)) := by
      rw [ih (by omega) hu (.inl (by decide)) (by rw [hck]; decide)]
      apply climb_stops
      rw [peek_skip_pred hx.tokens_ne_nil, hck]
      decide
    have hexpect : ((s.skip 1).skip (u.length - 1)).expectPeek .closeParen =
        .found () (s.skip (u.length + 1)) := by
      rw [expectPeek, peek_skip_pred hx.tokens_ne_nil, if_pos hck, next_skip, skip_skip,
        Nat.sub_add_cancel hpos, Nat.add_comm]
    rw [parseExpr, Tables.default_prefixRule, ho]
    simp only [PrefixRule.default?, PrefixRule.run, next_eq_skip, hinner, hexpect,
      Outcome.andThen_found, List.length_cons, List.length_append, List.length_nil, Phrase.tree]
    rfl
  | @chain l u v x y operator hx h hy ihx ihy =>
    intro levels cutoff s hneed hs hl hstop
    obtain ⟨hu, hs'⟩ := starts_append.1 hs
    obtain ⟨_, hv⟩ := starts_cons.1 hs'
    have hoperator := hs'.current_eq
    have hupos := List.length_pos_iff.2 hx.tokens_ne_nil
    have hvpos := List.length_pos_iff.2 hy.tokens_ne_nil
    have hcut : cutoff < l.power := hl.resolve_right (Level.ne_unary_of_mem h)
    simp only [Phrase.need] at hneed
    have hone := y.one_le_need
    obtain ⟨n, rfl⟩ : ∃ n, levels = n + 1 := ⟨levels - 1, by omega⟩
    rw [skip_length_append, skip_length_cons] at hstop
    -- the left operand ends before the operator, which its own operators do not take
    have hxstop : ¬ l.power < Tables.default.power (s.skip u.length).current.kind := by
      rw [hoperator, Level.power_of_mem h]
      exact Nat.lt_irrefl _
    rw [ihx (by omega) hu hl hxstop]
    have hright : parseExpr .default (n + 1) l.power ((s.skip u.length).skip 1) =
        .found y.tree (((s.skip u.length).skip 1).skip (v.length - 1)) := by
      rw [ihy (by omega) hv (.inl (Level.lt_tighter (Level.ne_unary_of_mem h)))
        (Level.tighter_stops hstop)]
      apply climb_stops
      rw [peek_skip_pred hy.tokens_ne_nil]
      exact hstop
    rw [skip_skip, skip_skip] at hright
    have hnext : (s.skip (u.length - 1)).next = s.skip u.length := by
      rw [next_skip, Nat.sub_add_cancel hupos]
    rw [climb_eq Tables.default_operator_eof (parseExpr_reaches _ _),
      peek_skip_pred hx.tokens_ne_nil, hoperator, Tables.operatorAbove?_of_mem h hcut]
    simp only [InfixRule.run, InfixRule.operandPower, hnext, hoperator, next_eq_skip, hright,
      Outcome.andThen_found, skip_skip, List.length_append, List.length_cons, Phrase.tree]
    rw [show u.length + 1 + (v.length - 1) = u.length + (v.length + 1) - 1 by omega]
  | single hx ih =>
    intro levels cutoff s hneed hs hl hstop
    exact ih hneed hs (Level.tighter_admittedBy hl) (Level.tighter_stops hstop)

/-- A phrase that the levels allow is found. -/
theorem parseExpr_complete {levels : Nat} {cutoff : BindingPower} {s : TokenStream}
    {u : List Token} {x : Phrase} (h : Reads s cutoff u x) (hneed : x.need ≤ levels) :
    parseExpr .default levels cutoff s = .found x.tree (s.skip (u.length - 1)) := by
  have hone := x.one_le_need
  obtain ⟨n, rfl⟩ : ∃ n, levels = n + 1 := ⟨levels - 1, by omega⟩
  rw [h.derives.run hneed h.starts (Level.above_admittedBy cutoff) (Level.above_stops h.stops)]
  apply climb_stops
  rw [peek_skip_pred h.derives.tokens_ne_nil]
  exact h.stops

/-- At most one phrase is ahead: with levels for both, the parser would find both. -/
theorem Reads.unique {s : TokenStream} {cutoff : BindingPower} {u v : List Token} {x y : Phrase}
    (hx : Reads s cutoff u x) (hy : Reads s cutoff v y) : v = u ∧ y = x := by
  have hfound := (parseExpr_complete hx (Nat.le_max_left x.need y.need)).symm.trans
    (parseExpr_complete hy (Nat.le_max_right x.need y.need))
  simp only [Outcome.found.injEq] at hfound
  obtain ⟨htree, hskip⟩ := hfound
  have hlen : v.length = u.length := by
    have hupos := List.length_pos_iff.2 hx.derives.tokens_ne_nil
    have hvpos := List.length_pos_iff.2 hy.derives.tokens_ne_nil
    have hpassed := congrArg TokenStream.passed hskip
    simp only [skip_passed] at hpassed
    omega
  obtain rfl : v = u := by
    obtain ⟨r, hr⟩ := hx.starts
    obtain ⟨r', hr'⟩ := hy.starts
    exact (List.append_inj (hr'.trans hr.symm) hlen).1
  exact ⟨rfl, hy.derives.eq_of_tree_eq hx.derives htree.symm⟩

/-! ## Expressions that a parser reads -/

/-- **The parser reads exactly the grammar.** By the rules of the language a parser finds an
expression above the power `cutoff` if and only if a phrase of the level above it is ahead, the
token after the phrase is no operator above it, and the phrase nests no deeper than the levels that
are still to open. There is at most one such phrase, and it is what the parser finds: the tree is
the phrase's own, the last token of the phrase becomes current, and depth, rules and diagnostics
stay as they are. -/
theorem parseExpression_reads_iff (p : Parser) (hrules : p.tables = .default)
    (cutoff : BindingPower) :
    ((∃ e q, p.parseExpression cutoff = (.ok e, q)) ↔
      ∃ u x, Reads p.tokens cutoff u x ∧ p.depth + x.need ≤ maxNesting) ∧
    (∀ u x v y, Reads p.tokens cutoff u x → Reads p.tokens cutoff v y → v = u ∧ y = x) ∧
    ∀ u x, Reads p.tokens cutoff u x → p.depth + x.need ≤ maxNesting →
      ∃ q, p.parseExpression cutoff = (.ok x.tree, q) ∧
        q.tokens = p.tokens.skip (u.length - 1) ∧ some q.tokens.current = u.getLast? ∧
        q.depth = p.depth ∧ q.tables = p.tables ∧ q.diagnostics = p.diagnostics := by
  have hfound : ∀ u x, Reads p.tokens cutoff u x → p.depth + x.need ≤ maxNesting →
      p.parseExpression cutoff = (.ok x.tree, p.moveTo (p.tokens.skip (u.length - 1))) := by
    intro u x hreads hneed
    have hlevels : x.need ≤ p.levels := by
      rw [Parser.levels]
      omega
    rw [Parser.parseExpression, Parser.operand, hrules, parseExpr_complete hreads hlevels]
    rfl
  refine ⟨⟨?_, ?_⟩, fun u x v y hx hy => hx.unique hy, ?_⟩
  · rintro ⟨e, q, h⟩
    rw [Parser.parseExpression, Parser.operand, Parser.attempt, hrules] at h
    cases ho : parseExpr .default p.levels cutoff p.tokens with
    | failed d r => simp [ho, Outcome.result] at h
    | found e' r =>
      obtain ⟨u, x, hreads, hneed, _, _⟩ := parseExpr_sound p.levels ho
      have hone := x.one_le_need
      rw [Parser.levels] at hneed
      exact ⟨u, x, hreads, by omega⟩
  · rintro ⟨u, x, hreads, hneed⟩
    exact ⟨_, _, hfound u x hreads hneed⟩
  · intro u x hreads hneed
    refine ⟨_, hfound u x hreads hneed, rfl, ?_, rfl, rfl, rfl⟩
    have hne := hreads.derives.tokens_ne_nil
    obtain ⟨r, hr⟩ := hreads.starts
    have hsplit : u.dropLast ++ (u.getLast hne :: r) = p.tokens.pending := by
      rw [← hr, ← List.singleton_append, ← List.append_assoc, List.dropLast_concat_getLast]
    have hdrop : (p.tokens.skip (u.length - 1)).pending = u.getLast hne :: r := by
      rw [skip_pending, ← hsplit, ← List.length_dropLast, List.drop_left]
    show some (p.tokens.skip (u.length - 1)).current = u.getLast?
    rw [current_of_cons hdrop, List.getLast?_eq_some_getLast hne]

/-- In `a - (b);` a parser with 125 levels open reads `a - (b)`, which takes the last three. -/
theorem parseExpression_reads_difference :
    let a : Token := ⟨.identifier, "a", .null⟩
    let minus : Token := ⟨.minus, "-", .null⟩
    let opening : Token := ⟨.openParen, "(", .null⟩
    let b : Token := ⟨.identifier, "b", .null⟩
    let closing : Token := ⟨.closeParen, ")", .null⟩
    let semicolon : Token := ⟨.semicolon, ";", .null⟩
    let p : Parser :=
      { Parser.ofFile "shell" "" with
        tokens := ⟨[a, minus, opening, b, closing, semicolon], .null, 0⟩
        depth := 125 }
    p.tables = .default ∧
      ∃ q, p.parseExpression .lowest =
          (.ok (.binary minus (.identifier (.ofToken a)) "-" (.identifier (.ofToken b)) .null), q) ∧
        q.tokens.current = closing := by
  intro a minus opening b closing semicolon p
  have hreads : Reads p.tokens .lowest [a, minus, opening, b, closing]
      (.binary (.identifier a) minus (.group opening (.identifier b) closing)) := by
    refine ⟨?_, ⟨[semicolon], rfl⟩, by decide⟩
    have ha : Derives .unary [a] (.identifier a) := .identifier rfl
    have hb : Derives .unary [b] (.identifier b) := .identifier rfl
    have hgroup : Derives .unary [opening, b, closing] (.group opening (.identifier b) closing) :=
      .group (u := [b]) rfl (hb.loosen (by decide)) rfl
    have hdifference : Derives .sum [a, minus, opening, b, closing]
        (.binary (.identifier a) minus (.group opening (.identifier b) closing)) :=
      .chain (u := [a]) (ha.loosen (by decide)) (by decide) (hgroup.loosen (by decide))
    exact hdifference.loosen (by decide)
  obtain ⟨q, hq, htokens, _⟩ :=
    (parseExpression_reads_iff p rfl .lowest).2.2 _ _ hreads (by decide)
  exact ⟨rfl, q, hq, by rw [htokens]; rfl⟩

end FrontEnd
