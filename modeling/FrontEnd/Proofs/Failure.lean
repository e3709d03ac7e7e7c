import FrontEnd.Proofs.Progress

/-!
# Why statements fail

A parse fails in four ways, each of them at the token that the parser stands on or at the one after
it. Nothing else is ever reported: an error is handed on as it is, together with the place where the
parse came to it.

* `Tables.Fails` — the four ways, with the stream where each of them arises.
* `Outcome.Explained` — a failure is one of them.

Principal result: `parseStmt_explained` (every failure of a statement is explained).
-/

namespace FrontEnd

open TokenStream

variable {α β : Type}

/-- `t.Fails d s`: by the rules `t`, the diagnostic `d` arises where the stream `s` begins. -/
inductive Tables.Fails (t : Tables) : Diagnostic → TokenStream → Prop where
  /-- No level of nesting is left. -/
  | deep (s : TokenStream) : Fails t ⟨.nestingTooDeep maxNesting, s.current.span.start⟩ s
  /-- No expression begins with the current token. -/
  | first {s : TokenStream} (h : t.prefixRule s.current.kind = none) :
    Fails t ⟨.noPrefixRule s.current.kind s.current.text, s.current.span.start⟩ s
  /-- The current token is read as an integer, and has no value. -/
  | integer {s : TokenStream} (h : t.prefixRule s.current.kind = some .integer)
    (hv : literalValue? s.current.text = none) :
    Fails t ⟨.badInteger s.current.text, s.current.span.start⟩ s
  /-- The next token is not the name, the assignment sign or the parenthesis that it should be. -/
  | next {s : TokenStream} {kind : TokenKind} (h : s.peek.kind ≠ kind)
    (hkind : kind ∈ [TokenKind.identifier, .assign, .closeParen]) :
    Fails t ⟨.unexpectedToken kind s.peek.kind s.peek.text, s.peek.span.start⟩ s

def Outcome.Explained (t : Tables) (o : Outcome α) : Prop :=
  ∀ d s, o = .failed d s → t.Fails d s

def OperandParser.Explained (t : Tables) (operand : OperandParser) : Prop :=
  ∀ cutoff s, (operand cutoff s).Explained t

namespace Outcome

variable {t : Tables}

theorem found_explained (a : α) (s : TokenStream) : (Outcome.found a s).Explained t := by
  intro d r h
  cases h

theorem failed_explained {d : Diagnostic} {s : TokenStream} (h : t.Fails d s) :
    (Outcome.failed d s : Outcome α).Explained t := by
  intro d' r h'
  cases h'
  exact h

theorem Explained.andThen {o : Outcome α} {f : α → TokenStream → Outcome β} (ho : o.Explained t)
    (hf : ∀ a s, (f a s).Explained t) : (o.andThen f).Explained t := by
  intro d s h
  rcases andThen_eq_failed.1 h with h | ⟨a, r, _, h⟩
  · exact ho d s h
  · exact hf a r d s h

end Outcome

open Outcome

theorem expectPeek_explained (t : Tables) (s : TokenStream) {kind : TokenKind}
    (hkind : kind ∈ [TokenKind.identifier, .assign, .closeParen]) :
    (s.expectPeek kind).Explained t := by
  unfold TokenStream.expectPeek
  split
  · exact found_explained _ _
  · rename_i h
    exact failed_explained (.next h hkind)

theorem PrefixRule.run_explained {t : Tables} {rule : PrefixRule} {operand : OperandParser}
    (hop : operand.Explained t) {s : TokenStream} (h : t.prefixRule s.current.kind = some rule) :
    (rule.run operand s).Explained t := by
  cases rule with
  | identifier => exact found_explained _ _
  | integer =>
    simp only [PrefixRule.run]
    split
    · exact found_explained _ _
    · rename_i hv
      exact failed_explained (.integer h hv)
  | boolean => exact found_explained _ _
  | unary =>
    apply (hop _ _).andThen
    intro right r
    exact found_explained _ _
  | grouping =>
    apply (hop _ _).andThen
    intro inner r
    apply (expectPeek_explained t r (by decide)).andThen
    intro _ r'
    exact found_explained _ _

theorem climb_explained {t : Tables} {operand : OperandParser} (hop : operand.Explained t)
    (cutoff : BindingPower) (budget : List Token) (left : Expr) (s : TokenStream) :
    (climb t operand cutoff budget left s).Explained t := by
  have hrun : ∀ rule left power s, (InfixRule.run rule operand left power s).Explained t := by
    intro rule left power s
    apply (hop _ _).andThen
    intro right r
    exact found_explained _ _
  induction budget generalizing left s with
  | nil =>
    rw [climb_round]
    split
    · exact found_explained _ _
    · apply (hrun _ _ _ _).andThen
      intro left' r
      exact found_explained _ _
  | cons _ budget ih =>
    rw [climb_round]
    split
    · exact found_explained _ _
    · apply (hrun _ _ _ _).andThen
      intro left' r
      exact ih left' r

theorem parseExpr_explained (t : Tables) (levels : Nat) :
    OperandParser.Explained t (parseExpr t levels) := by
  induction levels with
  | zero =>
    intro cutoff s
    exact failed_explained (.deep s)
  | succ levels ih =>
    intro cutoff s
    unfold parseExpr
    split
    · rename_i hnone
      exact failed_explained (.first hnone)
    · rename_i rule hrule
      apply (PrefixRule.run_explained ih hrule).andThen
      intro left r
      exact climb_explained ih cutoff _ left r

theorem StatementRule.run_explained {t : Tables} (rule : StatementRule) {operand : OperandParser}
    (hop : operand.Explained t) (s : TokenStream) : (rule.run operand s).Explained t := by
  cases rule with
  | binding =>
    apply (expectPeek_explained t s (by decide)).andThen
    intro _ s₁
    apply (expectPeek_explained t s₁ (by decide)).andThen
    intro _ s₂
    apply (hop _ _).andThen
    intro value s₃
    exact found_explained _ _
  | result =>
    simp only [StatementRule.run]
    split
    · exact found_explained _ _
    · apply (hop _ _).andThen
      intro value s₁
      exact found_explained _ _
  | expression =>
    apply (hop _ _).andThen
    intro value s₁
    exact found_explained _ _

/-- **Every failure of a statement is explained by the rules.** -/
theorem parseStmt_explained (t : Tables) (levels : Nat) (s : TokenStream) :
    (parseStmt t levels s).Explained t :=
  (t.statementRule s.current.kind).run_explained (parseExpr_explained t levels) s

end FrontEnd
