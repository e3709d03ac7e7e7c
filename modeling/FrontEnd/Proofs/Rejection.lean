import FrontEnd.Proofs.Recovery
import FrontEnd.Proofs.StatementGrammar

/-!
# What the parser rejects

A parse that fails, but for too deep a nesting, rejects one token. It has read some tokens that are
the beginning of a statement, and whatever may come after them, this token may not. Which tokens are
rejected where, and why, is written down here like a grammar, and without a stream: it depends on
nothing but the tokens read and the token itself.

* `Cause.ahead` — whether the rejected token is the current one or the one after it.
* `Rejects` — the tokens that an expression cannot go on with.
* `Clause.Rejects` — the tokens that a statement cannot go on with.

Principal results: `Rejects.run` and `parseExpr_rejects` (expressions fail at the tokens that are
rejected, and nowhere else), and the same of statements, put together in `parseStmt_failed_iff`.
-/

namespace FrontEnd

open TokenStream

/-- How many tokens after the current one the token stands that a failed parse rejects. -/
def Cause.ahead : Cause → Nat
  | .unexpectedToken _ _ _ => 1
  | .noPrefixRule _ _ => 0
  | .badInteger _ => 0
  | .nestingTooDeep _ => 0

/-- `Rejects levels cutoff v t cause`: within `levels` levels, an expression above the cut-off that
has been read as far as the tokens `v` cannot go on with the token `t`. -/
inductive Rejects : Nat → BindingPower → List Token → Token → Cause → Prop where
  /-- No expression begins with the token. -/
  | first {levels : Nat} {cutoff : BindingPower} {t : Token}
    (h : PrefixRule.default? t.kind = none) :
    Rejects (levels + 1) cutoff [] t (.noPrefixRule t.kind t.text)
  /-- The token is an integer literal that has no value. -/
  | integer {levels : Nat} {cutoff : BindingPower} {t : Token} (h : t.kind = .integer)
    (hv : literalValue? t.text = none) : Rejects (levels + 1) cutoff [] t (.badInteger t.text)
  /-- The operand of a unary operator cannot go on with the token. -/
  | unary {levels : Nat} {cutoff : BindingPower} {operator t : Token} {v : List Token}
    {cause : Cause} (h : operator.kind = .minus ∨ operator.kind = .bang)
    (hv : Rejects levels .unary v t cause) : Rejects (levels + 1) cutoff (operator :: v) t cause
  /-- The expression in a group cannot go on with the token. -/
  | inner {levels : Nat} {cutoff : BindingPower} {opening t : Token} {v : List Token}
    {cause : Cause} (h : opening.kind = .openParen) (hv : Rejects levels .lowest v t cause) :
    Rejects (levels + 1) cutoff (opening :: v) t cause
  /-- The token neither goes on with the expression in a group nor closes the group. -/
  | closing {levels : Nat} {cutoff : BindingPower} {opening t : Token} {u : List Token} {x : Phrase}
    (h : opening.kind = .openParen) (hx : Derives .equality u x) (hneed : x.need ≤ levels)
    (hstop : ¬ BindingPower.lowest < Tables.default.power t.kind) (ht : t.kind ≠ .closeParen) :
    Rejects (levels + 1) cutoff (opening :: u) t (.unexpectedToken .closeParen t.kind t.text)
  /-- The right operand of an operator cannot go on with the token. -/
  | operand {levels : Nat} {cutoff : BindingPower} {l : Level} {operator t : Token}
    {u v : List Token} {x : Phrase} {cause : Cause} (hx : Derives l u x)
    (hneed : x.need ≤ levels + 1) (h : operator.kind ∈ l.operators) (hcut : cutoff < l.power)
    (hv : Rejects levels l.power v t cause) :
    Rejects (levels + 1) cutoff (u ++ operator :: v) t cause

namespace Rejects

variable {levels : Nat} {cutoff : BindingPower} {v : List Token} {t : Token} {cause : Cause}

theorem ahead_le (h : Rejects levels cutoff v t cause) : cause.ahead ≤ v.length := by
  induction h with
  | first | integer => exact Nat.le_refl 0
  | unary _ _ ih | inner _ _ ih => exact Nat.le_succ_of_le ih
  | closing => exact Nat.le_add_left 1 _
  | operand _ _ _ _ _ ih =>
    rw [List.length_append, List.length_cons]
    omega

/-- What has been read of an expression begins like one. -/
theorem default?_head (h : Rejects levels cutoff v t cause) :
    ∀ first ∈ v.head?, PrefixRule.default? first.kind ≠ none := by
  induction h with
  | first | integer => exact fun first hfirst => (nomatch hfirst)
  | unary h =>
    rintro _ ⟨⟩
    rcases h with h | h <;> simp [h, PrefixRule.default?]
  | inner h | closing h =>
    rintro _ ⟨⟩
    simp [h, PrefixRule.default?]
  | @operand _ _ _ _ _ u _ x _ hx =>
    obtain rfl := hx.tokens_eq
    rw [x.tokens_eq_cons]
    rintro _ ⟨⟩
    exact hx.default?_first

/-- Where a token is rejected the parser fails, whatever comes after the token. The induction is
along the rules that wait for what fails: each of them hands the failure on as it is. -/
theorem run (h : Rejects levels cutoff v t cause) : ∀ {s : TokenStream}, s.Starts v →
    (s.skip v.length).current = t →
    parseExpr .default levels cutoff s =
      .failed ⟨cause, t.span.start⟩ (s.skip (v.length - cause.ahead)) := by
  induction h with
  | first h =>
    intro s _ ht
    obtain rfl : s.current = _ := ht
    rw [parseExpr, Tables.default_prefixRule, h]
    rfl
  | integer h hv =>
    intro s _ ht
    obtain rfl : s.current = _ := ht
    rw [parseExpr, Tables.default_prefixRule, h]
    simp only [PrefixRule.default?, PrefixRule.run, hv, Outcome.andThen_failed]
    rfl
  | @unary levels cutoff operator t v cause h hv ih =>
    intro s hs ht
    obtain rfl := hs.current_eq
    obtain ⟨_, hv'⟩ := starts_cons.1 hs
    rw [skip_length_cons] at ht
    have hrule : PrefixRule.default? s.current.kind = some .unary := by
      rcases h with h | h <;> rw [h] <;> rfl
    rw [parseExpr, Tables.default_prefixRule, hrule]
    simp only [PrefixRule.run, next_eq_skip, ih hv' ht, Outcome.andThen_failed, skip_skip]
    rw [List.length_cons, Nat.sub_add_comm hv.ahead_le, Nat.add_comm]
  | @inner levels cutoff opening t v cause h hv ih =>
    intro s hs ht
    obtain rfl := hs.current_eq
    obtain ⟨_, hv'⟩ := starts_cons.1 hs
    rw [skip_length_cons] at ht
    rw [parseExpr, Tables.default_prefixRule, h]
    simp only [PrefixRule.default?, PrefixRule.run, next_eq_skip, ih hv' ht, Outcome.andThen_failed,
      skip_skip]
    rw [List.length_cons, Nat.sub_add_comm hv.ahead_le, Nat.add_comm]
  | @closing levels cutoff opening t u x h hx hneed hstop ht =>
    intro s hs ht'
    obtain rfl := hs.current_eq
    obtain ⟨_, hu⟩ := starts_cons.1 hs
    rw [skip_length_cons] at ht'
    obtain rfl := ht'
    have hpos := List.length_pos_iff.2 hx.tokens_ne_nil
    have hreads : Reads (s.skip 1) .lowest u x := ⟨hx, hu, hstop⟩
    have hinner := parseExpr_complete hreads hneed
    have hpeek : ((s.skip 1).skip (u.length - 1)).peek = ((s.skip 1).skip u.length).current :=
      peek_skip_pred hx.tokens_ne_nil
    rw [parseExpr, Tables.default_prefixRule, h]
    simp only [PrefixRule.default?, PrefixRule.run, next_eq_skip, hinner, Outcome.andThen_found,
      expectPeek, hpeek, if_neg ht, Outcome.andThen_failed]
    rw [skip_skip _ 1 (u.length - 1), List.length_cons, Cause.ahead,
      show 1 + (u.length - 1) = u.length + 1 - 1 by omega]
  | @operand levels cutoff l operator t u v x cause hx hneed h hcut hv ih =>
    intro s hs ht
    obtain ⟨hu, hs'⟩ := starts_append.1 hs
    obtain ⟨_, hv'⟩ := starts_cons.1 hs'
    have hoperator := hs'.current_eq
    have hpos := List.length_pos_iff.2 hx.tokens_ne_nil
    rw [skip_length_append, skip_length_cons] at ht
    -- the left operand ends before the operator, which its own operators do not take
    have hstop : ¬ l.power < Tables.default.power (s.skip u.length).current.kind := by
      rw [hoperator, Level.power_of_mem h]
      exact Nat.lt_irrefl _
    have hnext : (s.skip (u.length - 1)).next = s.skip u.length := by
      rw [next_skip, Nat.sub_add_cancel hpos]
    rw [hx.run hneed hu (.inl hcut) hstop, climb_eq Tables.default_operator_eof
      (parseExpr_reaches _ _), peek_skip_pred hx.tokens_ne_nil, hoperator,
      Tables.operatorAbove?_of_mem h hcut]
    have hright := ih hv' ht
    rw [skip_skip, skip_skip] at hright
    have hle := hv.ahead_le
    simp only [InfixRule.run, InfixRule.operandPower, hnext, next_skip, hright,
      Outcome.andThen_failed, List.length_append, List.length_cons]
    congr 2
    omega

end Rejects

/-- The beginning of an expression fails at a token that is rejected, if the expressions in it do.
-/
theorem PrefixRule.run_rejects {levels : Nat} {cutoff : BindingPower} {rule : PrefixRule}
    {s r : TokenStream} {d : Diagnostic}
    (ih : ∀ {cutoff : BindingPower} {s r : TokenStream} {d : Diagnostic},
      parseExpr .default levels cutoff s = .failed d r → ¬ d.cause.TooDeep →
        ∃ v, s.Starts v ∧ Rejects levels cutoff v (s.skip v.length).current d.cause)
    (hrule : PrefixRule.default? s.current.kind = some rule)
    (h : rule.run (parseExpr .default levels) s = .failed d r) (hcause : ¬ d.cause.TooDeep) :
    ∃ v, s.Starts v ∧ Rejects (levels + 1) cutoff v (s.skip v.length).current d.cause := by
  have hstart : s.Starts [s.current] := by
    refine starts_current fun hk => ?_
    rw [hk] at hrule
    cases hrule
  cases rule with
  | identifier => cases h
  | integer =>
    have hkind : s.current.kind = .integer := PrefixRule.calledBy_of_default? hrule
    simp only [PrefixRule.run] at h
    split at h
    · cases h
    · rename_i hvalue
      cases h
      exact ⟨[], List.nil_prefix, .integer hkind hvalue⟩
  | boolean => cases h
  | unary =>
    have hkind : s.current.kind = .minus ∨ s.current.kind = .bang :=
      PrefixRule.calledBy_of_default? hrule
    rcases Outcome.andThen_eq_failed.1 h with h | ⟨_, _, _, h⟩
    · rw [next_eq_skip] at h
      obtain ⟨v, hv, hrejects⟩ := ih h hcause
      refine ⟨s.current :: v, starts_cons.2 ⟨hstart, hv⟩, ?_⟩
      rw [skip_length_cons]
      exact .unary hkind hrejects
    · cases h
  | grouping =>
    have hkind : s.current.kind = .openParen := PrefixRule.calledBy_of_default? hrule
    rcases Outcome.andThen_eq_failed.1 h with h | ⟨inner, r', hinner, h⟩
    · rw [next_eq_skip] at h
      obtain ⟨v, hv, hrejects⟩ := ih h hcause
      refine ⟨s.current :: v, starts_cons.2 ⟨hstart, hv⟩, ?_⟩
      rw [skip_length_cons]
      exact .inner hkind hrejects
    · rw [next_eq_skip] at hinner
      obtain ⟨u, x, hreads, hneed, rfl, rfl⟩ := parseExpr_sound levels hinner
      rcases Outcome.andThen_eq_failed.1 h with h | ⟨_, _, _, h⟩
      · unfold expectPeek at h
        split at h
        · cases h
        · rename_i hck
          rw [peek_skip_pred hreads.derives.tokens_ne_nil] at hck h
          cases h
          refine ⟨s.current :: u, starts_cons.2 ⟨hstart, hreads.starts⟩, ?_⟩
          rw [skip_length_cons]
          exact .closing hkind hreads.derives hneed hreads.stops hck
      · cases h

/-- An expression that fails, but for too deep a nesting, fails at a token that is rejected. -/
theorem parseExpr_rejects (levels : Nat) {cutoff : BindingPower} {s r : TokenStream}
    {d : Diagnostic} (h : parseExpr .default levels cutoff s = .failed d r)
    (hcause : ¬ d.cause.TooDeep) :
    ∃ v, s.Starts v ∧ Rejects levels cutoff v (s.skip v.length).current d.cause := by
  induction levels generalizing cutoff s r d with
  | zero =>
    cases h
    exact absurd ⟨_, rfl⟩ hcause
  | succ levels ih =>
    unfold parseExpr at h
    split at h
    · rename_i hnone
      cases h
      exact ⟨[], List.nil_prefix, .first (by rwa [Tables.default_prefixRule] at hnone)⟩
    · rename_i rule hrule
      rcases Outcome.andThen_eq_failed.1 h with h | ⟨left, r', hleft, hclimb⟩
      · rw [Tables.default_prefixRule] at hrule
        exact PrefixRule.run_rejects ih hrule h hcause
      · obtain ⟨u, x, hx, hu, hneed, rfl, rfl⟩ :=
          PrefixRule.run_sound (parseExpr_sound levels) hrule hleft
        rcases climb_cases (parseExpr_sound levels) hx hu hneed (Level.le_unary _)
          (Tables.power_le_unary _) hclimb with
          ⟨_, _, _, _, ho⟩ | ⟨m, v, y, d', r', hgoes, hneedy, hfail, ho⟩
        · cases ho
        · cases ho
          rw [← skip_skip] at hfail
          obtain ⟨w, hw, hrejects⟩ := ih hfail hcause
          have hoperator := starts_current (Level.ne_eof_of_mem hgoes.mem_operators)
          refine ⟨_, starts_append.2 ⟨hgoes.starts, starts_cons.2 ⟨hoperator, hw⟩⟩, ?_⟩
          rw [skip_length_append, skip_length_cons]
          exact .operand hgoes.derives hneedy hgoes.mem_operators hgoes.above hrejects

/-! ## Statements -/

namespace Clause

/-- `Rejects levels v t cause`: with expressions within `levels` levels, a statement that has been
read as far as the tokens `v` cannot go on with the token `t`. -/
inductive Rejects (levels : Nat) : List Token → Token → Cause → Prop where
  /-- The word of a binding needs a name. -/
  | name {word t : Token} (hword : word.kind = .letWord) (ht : t.kind ≠ .identifier) :
    Rejects levels [word] t (.unexpectedToken .identifier t.kind t.text)
  /-- The name of a binding needs an assignment sign. -/
  | sign {word name t : Token} (hword : word.kind = .letWord) (hname : name.kind = .identifier)
    (ht : t.kind ≠ .assign) :
    Rejects levels [word, name] t (.unexpectedToken .assign t.kind t.text)
  /-- The value of a binding cannot go on with the token. -/
  | binding {word name sign t : Token} {v : List Token} {cause : Cause}
    (hword : word.kind = .letWord) (hname : name.kind = .identifier) (hsign : sign.kind = .assign)
    (hv : FrontEnd.Rejects levels .lowest v t cause) :
    Rejects levels (word :: name :: sign :: v) t cause
  /-- The value of a result cannot go on with the token, and the result does not end there. -/
  | result {word t : Token} {v : List Token} {cause : Cause} (hword : word.kind = .returnWord)
    (hends : v = [] → t.kind ≠ .semicolon ∧ t.kind ≠ .eof)
    (hv : FrontEnd.Rejects levels .lowest v t cause) : Rejects levels (word :: v) t cause
  /-- An expression cannot go on with the token, and no word of the language stands there. -/
  | expression {t : Token} {v : List Token} {cause : Cause}
    (hrule : v = [] → Tables.default.statementRule t.kind = .expression)
    (hv : FrontEnd.Rejects levels .lowest v t cause) : Rejects levels v t cause

namespace Rejects

variable {levels : Nat} {v : List Token} {t : Token} {cause : Cause}

theorem ahead_le (h : Rejects levels v t cause) : cause.ahead ≤ v.length := by
  cases h with
  | name | sign => exact Nat.le_add_left 1 _
  | binding _ _ _ hv => exact Nat.le_trans hv.ahead_le (Nat.le_add_right _ 3)
  | result _ _ hv => exact Nat.le_succ_of_le hv.ahead_le
  | expression _ hv => exact hv.ahead_le

/-- Where a token is rejected a statement fails, whatever comes after the token. -/
theorem run (h : Rejects levels v t cause) {s : TokenStream} (hs : s.Starts v)
    (ht : (s.skip v.length).current = t) :
    parseStmt .default levels s =
      .failed ⟨cause, t.span.start⟩ (s.skip (v.length - cause.ahead)) := by
  have hbinding : s.current.kind = .letWord →
      parseStmt .default levels s = StatementRule.binding.run (parseExpr .default levels) s := by
    intro hword
    rw [parseStmt, hword]
    rfl
  cases h with
  | @name word _ hword hname =>
    obtain rfl := hs.current_eq
    obtain rfl : (s.skip 1).current = t := ht
    rw [hbinding hword]
    simp only [StatementRule.run, expectPeek, peek_eq_skip, if_neg hname, Outcome.andThen_failed]
    rfl
  | @sign word name _ hword hname hsign =>
    obtain ⟨h₀, h₁⟩ := starts_cons.1 hs
    obtain rfl := h₀.current_eq
    obtain rfl := h₁.current_eq
    obtain rfl : (s.skip 2).current = t := ht
    rw [hbinding hword]
    simp only [StatementRule.run, expectPeek, peek_eq_skip, if_pos hname, Outcome.andThen_found,
      next_eq_skip, skip_skip, if_neg hsign, Outcome.andThen_failed]
    rfl
  | @binding word name sign _ v _ hword hname hsign hv =>
    obtain ⟨h₀, h₁, h₂, hs₃⟩ := starts_three.1 hs
    obtain rfl := h₀.current_eq
    obtain rfl := h₁.current_eq
    obtain rfl := h₂.current_eq
    have hlen : (s.current :: (s.skip 1).current :: (s.skip 2).current :: v).length =
        3 + v.length := Nat.add_comm v.length 3
    rw [hlen, ← skip_skip] at ht
    rw [parseStmt_binding hword hname hsign, hv.run hs₃ ht, Outcome.andThen_failed, hlen, skip_skip,
      Nat.add_sub_assoc hv.ahead_le]
  | @result word _ v _ hword hends hv =>
    obtain ⟨h₀, hs₁⟩ := starts_cons.1 hs
    obtain rfl := h₀.current_eq
    rw [List.length_cons, Nat.add_comm v.length] at ht ⊢
    rw [← skip_skip] at ht
    have hne : (s.skip 1).current.kind ≠ .semicolon ∧ (s.skip 1).current.kind ≠ .eof := by
      cases v with
      | nil => exact ht ▸ hends rfl
      | cons first v =>
        have hfirst := hv.default?_head first rfl
        rw [hs₁.current_eq]
        constructor <;>
        · intro hkind
          rw [hkind] at hfirst
          exact hfirst rfl
    rw [parseStmt_result hword hne.1 hne.2, hv.run hs₁ ht, Outcome.andThen_failed, skip_skip,
      Nat.add_sub_assoc hv.ahead_le]
  | expression hrule hv =>
    have hexpression : Tables.default.statementRule s.current.kind = .expression := by
      cases v with
      | nil => exact ht ▸ hrule rfl
      | cons first v =>
        rw [hs.current_eq]
        exact statementRule_of_prefixRule (hv.default?_head first rfl)
    rw [parseStmt_expression hexpression, hv.run hs ht, Outcome.andThen_failed]

end Rejects

end Clause

/-- A statement that fails, but for too deep a nesting, fails at a token that is rejected. -/
theorem parseStmt_rejects {levels : Nat} {s r : TokenStream} {d : Diagnostic}
    (h : parseStmt .default levels s = .failed d r) (hcause : ¬ d.cause.TooDeep) :
    ∃ v, s.Starts v ∧ Clause.Rejects levels v (s.skip v.length).current d.cause := by
  unfold parseStmt at h
  cases hrule : Tables.default.statementRule s.current.kind with
  | binding =>
    rw [hrule] at h
    have hword := kind_of_binding hrule
    have hstart := starts_current (s := s) (by rw [hword]; decide)
    rcases Outcome.andThen_eq_failed.1 h with h | ⟨_, s₁, hname, h⟩
    · obtain ⟨hkind, hd⟩ := expectPeek_failed h
      rw [hd]
      exact ⟨[s.current], hstart, .name hword hkind⟩
    obtain ⟨rfl, hname⟩ := expectPeek_found hname
    rw [next_eq_skip] at hname h
    have hstart₁ := starts_current (s := s.skip 1) (by rw [hname]; decide)
    rcases Outcome.andThen_eq_failed.1 h with h | ⟨_, s₂, hsign, h⟩
    · obtain ⟨hkind, hd⟩ := expectPeek_failed h
      rw [skip_skip] at hkind hd
      rw [hd]
      exact ⟨_, starts_cons.2 ⟨hstart, hstart₁⟩, .sign hword hname hkind⟩
    obtain ⟨rfl, hsign⟩ := expectPeek_found hsign
    rw [next_skip] at hsign h
    have hstart₂ := starts_current (s := s.skip 2) (by rw [hsign]; decide)
    rcases Outcome.andThen_eq_failed.1 h with h | ⟨_, _, _, h⟩
    · rw [next_skip] at h
      obtain ⟨v, hv, hrejects⟩ := parseExpr_rejects levels h hcause
      refine ⟨_, starts_three.2 ⟨hstart, hstart₁, hstart₂, hv⟩, ?_⟩
      have hlen : (s.current :: (s.skip 1).current :: (s.skip 2).current :: v).length =
          3 + v.length := Nat.add_comm v.length 3
      rw [hlen, ← skip_skip]
      exact .binding hword hname hsign hrejects
    · cases h
  | result =>
    rw [hrule] at h
    have hword := kind_of_result hrule
    have hstart := starts_current (s := s) (by rw [hword]; decide)
    simp only [StatementRule.run, next_eq_skip] at h
    split at h
    · cases h
    · rename_i hends
      rcases Outcome.andThen_eq_failed.1 h with h | ⟨_, _, _, h⟩
      · obtain ⟨v, hv, hrejects⟩ := parseExpr_rejects levels h hcause
        refine ⟨s.current :: v, starts_cons.2 ⟨hstart, hv⟩, ?_⟩
        rw [skip_length_cons]
        refine .result hword ?_ hrejects
        rintro rfl
        exact not_or.1 hends
      · cases h
  | expression =>
    rw [hrule] at h
    rcases Outcome.andThen_eq_failed.1 h with h | ⟨_, _, _, h⟩
    · obtain ⟨v, hv, hrejects⟩ := parseExpr_rejects levels h hcause
      refine ⟨v, hv, .expression ?_ hrejects⟩
      rintro rfl
      exact hrule
    · cases h

/-- **Statements fail where a token is rejected.** By the rules of the language a statement fails,
but for too deep a nesting, if and only if it has been read as far as some tokens that cannot go on
with the next one. That token and its place are what the diagnostic is about. -/
theorem parseStmt_failed_iff {levels : Nat} {s r : TokenStream} {d : Diagnostic}
    (hcause : ¬ d.cause.TooDeep) :
    parseStmt .default levels s = .failed d r ↔
      ∃ v t, Clause.Rejects levels v t d.cause ∧ s.Starts v ∧ (s.skip v.length).current = t ∧
        d.position = t.span.start ∧ r = s.skip (v.length - d.cause.ahead) := by
  constructor
  · intro h
    obtain ⟨v, hv, hrejects⟩ := parseStmt_rejects h hcause
    have hrun := (hrejects.run hv rfl).symm.trans h
    simp only [Outcome.failed.injEq] at hrun
    exact ⟨v, _, hrejects, hv, rfl, congrArg Diagnostic.position hrun.1.symm, hrun.2.symm⟩
  · rintro ⟨v, t, hrejects, hv, ht, hposition, rfl⟩
    rw [hrejects.run hv ht, ← hposition]

end FrontEnd
