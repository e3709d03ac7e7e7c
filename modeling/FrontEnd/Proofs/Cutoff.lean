import FrontEnd.Proofs.Precedence
import FrontEnd.Proofs.Termination

/-!
# What the cut-off decides

The cut-off power has no part in how an expression is read, only in where it ends. What is read at
one cut-off is read at any lower one as well, first and in the same way; then the operators that the
higher one left over are added to it. A failure at the higher cut-off comes before any operator is
left over, so it is the failure at the lower one too.

* `Expr.OnLeftSpine` — an expression that another one has for its left operand, or for the left
  operand of that, and so on.

Principal results: `climb_climb` (the operator loop at a cut-off, and then at a lower one),
`parseExpr_lower` (an expression at a lower cut-off) and `Parser.parseExpression_cutoff`, which says
of every parser what becomes of an expression if the cut-off is lowered.
-/

namespace FrontEnd

open TokenStream

variable {α β γ : Type}

theorem Outcome.andThen_assoc (o : Outcome α) (f : α → TokenStream → Outcome β)
    (g : β → TokenStream → Outcome γ) :
    (o.andThen f).andThen g = o.andThen fun a s => (f a s).andThen g := by
  cases o <;> rfl

/-- An operator above a cut-off is above any lower one. -/
theorem Tables.operatorAbove?_lower {t : Tables} {low high : BindingPower} (hle : low ≤ high)
    {kind : TokenKind} {op : Operator} (h : t.operatorAbove? high kind = some op) :
    t.operatorAbove? low kind = some op := by
  obtain ⟨hop, hkind, hlt⟩ := operatorAbove?_eq_some.1 h
  exact operatorAbove?_eq_some.2 ⟨hop, hkind, Nat.lt_of_le_of_lt hle hlt⟩

/-! ## The operator loop -/

/-- **The loop at a cut-off, and then at a lower one**, is the loop at the lower one. -/
theorem climb_climb {t : Tables} (heof : t.operator .eof = none) {operand : OperandParser}
    (hop : operand.Forward) {low high : BindingPower} (hle : low ≤ high) (left : Expr)
    (s : TokenStream) :
    (climb t operand high s.pending left s).andThen
        (fun left s => climb t operand low s.pending left s) =
      climb t operand low s.pending left s := by
  induction hn : s.pending.length using Nat.strongRecOn generalizing left s with
  | ind n ih =>
    rw [climb_eq heof hop high]
    cases hhigh : t.operatorAbove? high s.peek.kind with
    | none => rfl
    | some op =>
      have htwo := two_le_of_operatorAbove? heof hhigh
      rw [climb_eq heof hop low, Tables.operatorAbove?_lower hle hhigh]
      dsimp only
      cases hrun : op.rule.run operand left op.power s.next with
      | failed d r => rfl
      | found left' s' =>
        have hlt := InfixRule.run_length_lt hop hrun htwo
        exact ih _ (by omega) left' s' rfl

/-- **An expression at a lower cut-off**: the expression at the higher one, and the operators that
follow it. They are read in the level that is open for the expression, which has one fewer below
it. -/
theorem parseExpr_lower {t : Tables} (heof : t.operator .eof = none) {levels : Nat}
    {low high : BindingPower} (hle : low ≤ high) (s : TokenStream) :
    parseExpr t levels low s =
      (parseExpr t levels high s).andThen fun left s =>
        climb t (parseExpr t (levels - 1)) low s.pending left s := by
  cases levels with
  | zero => rfl
  | succ levels =>
    unfold parseExpr
    cases t.prefixRule s.current.kind with
    | none => rfl
    | some rule =>
      dsimp only
      rw [Outcome.andThen_assoc]
      congr 1
      funext left s
      exact (climb_climb heof (parseExpr_reaches t levels) hle left s).symm

/-! ## The left spine -/

/-- The first expression is the second, or it is on the left spine of the second one's left
operand. -/
inductive Expr.OnLeftSpine (e : Expr) : Expr → Prop where
  | refl : OnLeftSpine e e
  | left {token : Token} {left : Expr} {operator : String} {right : Expr} {span : Span}
    (h : OnLeftSpine e left) : OnLeftSpine e (.binary token left operator right span)

theorem Expr.OnLeftSpine.trans {e left whole : Expr} (h : e.OnLeftSpine left)
    (h' : left.OnLeftSpine whole) : e.OnLeftSpine whole := by
  induction h' with
  | refl => exact h
  | left _ ih => exact .left ih

/-- A rule for operators puts what was read before the operator on the left. -/
theorem InfixRule.run_onLeftSpine {rule : InfixRule} {operand : OperandParser} {left e : Expr}
    {power : BindingPower} {s s' : TokenStream}
    (h : rule.run operand left power s = .found e s') : left.OnLeftSpine e := by
  obtain ⟨right, r, -, hfound⟩ := Outcome.andThen_eq_found.1 h
  cases hfound
  exact .left .refl

theorem climb_onLeftSpine {t : Tables} {operand : OperandParser} {cutoff : BindingPower}
    {budget : List Token} {left e : Expr} {s s' : TokenStream}
    (h : climb t operand cutoff budget left s = .found e s') : left.OnLeftSpine e := by
  induction budget generalizing left s with
  | nil =>
    rw [climb_round] at h
    split at h
    · cases h
      exact .refl
    · obtain ⟨left', r, hrun, hrest⟩ := Outcome.andThen_eq_found.1 h
      cases hrest
      exact InfixRule.run_onLeftSpine hrun
  | cons _ budget ih =>
    rw [climb_round] at h
    split at h
    · cases h
      exact .refl
    · obtain ⟨left', r, hrun, hrest⟩ := Outcome.andThen_eq_found.1 h
      exact (InfixRule.run_onLeftSpine hrun).trans (ih hrest)

/-! ## Parsers -/

namespace Parser

open Procedure

/-- The operator loop, run in a level that is open for the operands it follows. -/
theorem climbing_runs {p : Parser} (heof : p.tables.operator .eof = none) (cutoff : BindingPower)
    (left : Expr) {o : Outcome Expr}
    (ho : climb p.tables (parseExpr p.tables (p.levels - 1)) cutoff p.tokens.pending left
      p.tokens = o) :
    ∃ moments, (climbing cutoff left).body.Runs { p with depth := p.depth + 1 } o.result
      ({ p with depth := p.depth + 1 }.moveTo o.rest) moments := by
  have hlevels : ({ p with depth := p.depth + 1 } : Parser).levels = p.levels - 1 :=
    Nat.sub_add_eq _ _ _
  rw [← hlevels] at ho
  obtain ⟨moments, hruns, -⟩ := Procedure.ends (p := { p with depth := p.depth + 1 }) heof
    (climbing cutoff left)
  rw [← ho]
  exact ⟨moments, hruns⟩

/-- **The cut-off only decides where an expression ends.** Whatever rules are in force, unless the
end of input is an operator: if an expression fails at a cut-off, it fails at every lower one with
the same diagnostic and at the same place. If it is found, what comes of it at a lower cut-off is
what the operator loop makes of it from there at the lower one, run in the level that was open for
the expression. So the one expression is on the left spine of the other, if that is found too. -/
theorem parseExpression_cutoff {p : Parser} (heof : p.tables.operator .eof = none)
    {low high : BindingPower} (hle : low ≤ high) :
    (∀ d q, p.parseExpression high = (.error d, q) → p.parseExpression low = (.error d, q)) ∧
      ∀ e q, p.parseExpression high = (.ok e, q) →
        ∃ result r moments,
          (climbing low e).body.Runs { q with depth := q.depth + 1 } result r moments ∧
          p.parseExpression low = (result, r.exitNesting) ∧
          ∀ e', result = .ok e' → e.OnLeftSpine e' := by
  have hlower : p.operand low p.tokens = (p.operand high p.tokens).andThen fun left s =>
      climb p.tables (parseExpr p.tables (p.levels - 1)) low s.pending left s :=
    parseExpr_lower heof hle p.tokens
  have hreach : Reaches p.tokens (p.operand high p.tokens).rest := parseExpr_reaches _ _ _ _
  unfold parseExpression attempt
  rw [hlower]
  cases ho : p.operand high p.tokens with
  | failed d s => exact ⟨fun d' q h => h, fun e q h => (nomatch congrArg Prod.fst h)⟩
  | found left s =>
    refine ⟨fun d q h => (nomatch congrArg Prod.fst h), fun e q h => ?_⟩
    obtain ⟨he, rfl⟩ := Prod.mk.inj h
    obtain rfl := Except.ok.inj he
    rw [ho] at hreach
    generalize hclimb : climb p.tables (parseExpr p.tables (p.levels - 1)) low s.pending left s = o'
    have hreach' : Reaches s o'.rest := by
      rw [← hclimb]
      exact climb_reaches _ (parseExpr_reaches _ _) _ _ _ _
    obtain ⟨moments, hruns⟩ := climbing_runs (p := p.moveTo s) heof low left hclimb
    refine ⟨_, _, moments, hruns, ?_, fun e' he' => ?_⟩
    · rw [Outcome.andThen_found, hclimb, ← moveTo_moveTo hreach hreach']
      rfl
    · cases o' with
      | failed d r => cases he'
      | found e'' r =>
        cases he'
        exact climb_onLeftSpine hclimb

/-- An assignment sign is registered as an operator whose right operand is parsed at the lowest
power. Between products and sums nothing is read of the rest, which the lowest cut-off takes in. -/
theorem parseExpression_cutoff_assignment :
    let p := (Parser.ofFile "shell" "a * b = c + d < e").setOperator .assign ⟨.sum, .binaryLowest⟩
    p.tables.operator .eof = none ∧ BindingPower.lowest ≤ .sum ∧
      ∃ e q, p.parseExpression .sum = (.ok e, q) ∧ e.text = "(a * b)" ∧
        ∃ e' q', p.parseExpression .lowest = (.ok e', q') ∧
          e'.text = "((a * b) = ((c + d) < e))" ∧ e.OnLeftSpine e' := by
  intro p
  have heof : p.tables.operator .eof = none := rfl
  have hle : BindingPower.lowest ≤ .sum := by decide
  obtain ⟨-, hfound⟩ := parseExpression_cutoff heof hle
  have hhigh : (p.parseExpression .sum).1.toOption.map Expr.text = some "(a * b)" := by
    decide +kernel
  have hlow : (p.parseExpression .lowest).1.toOption.map Expr.text =
      some "((a * b) = ((c + d) < e))" := by
    decide +kernel
  generalize p.parseExpression .sum = high at *
  obtain ⟨d | e, q⟩ := high
  · cases hhigh
  obtain ⟨result, r, -, -, heq, hspine⟩ := hfound e q rfl
  rw [heq] at hlow
  cases result with
  | error d => cases hlow
  | ok e' =>
    exact ⟨heof, hle, e, q, rfl, Option.some.inj hhigh, e', _, heq, Option.some.inj hlow,
      hspine e' rfl⟩

end Parser

end FrontEnd
