import FrontEnd.Proofs.Agreement

/-!
# Termination and progress

Whatever rules are registered, parsing ends, unless the end of input is made an operator. Every
round of the program loop leaves a token behind, so there are no more rounds than tokens.

* `Tables.Registered` — the tables that registration leads to.

Principal results: `TokenStream.length_rounds_le` (no more rounds than tokens),
`Parser.step_progress` (what a round adds), `Parser.ends_with_progress` (both, with the end of every
procedure) and `Parser.climbing_endless` (the operator loop does not end if the end of input is an
operator).
-/

namespace FrontEnd

open TokenStream

/-! ## Progress -/

namespace TokenStream

theorem Reaches.passed_le {s s' : TokenStream} (h : Reaches s s') : s.passed ≤ s'.passed := by
  obtain ⟨k, rfl⟩ := h
  exact Nat.le_add_right _ _

theorem rounds_eq_nil {t : Tables} {levels : Nat} {s : TokenStream} :
    s.rounds t levels = [] ↔ s.atEnd = true := by
  constructor
  · intro h
    cases hend : s.atEnd with
    | true => rfl
    | false =>
      rw [rounds_of_not_atEnd hend] at h
      cases h
  · exact rounds_of_atEnd

/-- Every round begins at a token that is not the end of input, and leaves it behind. -/
theorem length_rounds_le (t : Tables) (levels : Nat) (s : TokenStream) :
    (s.rounds t levels).length ≤ s.pending.countP fun token => token.kind ≠ .eof := by
  induction hn : s.pending.length using Nat.strongRecOn generalizing s with
  | ind n ih =>
    cases hend : s.atEnd with
    | true =>
      rw [rounds_of_atEnd hend]
      exact Nat.zero_le _
    | false =>
      have hpending := pending_ne_nil_of_not_atEnd hend
      have hlt := round_length_lt t levels hpending
      have hrest := ih _ (by omega) (s.round t levels).2 rfl
      obtain ⟨k, hk⟩ := round_reaches t levels s
      obtain ⟨token, r, hp⟩ := List.exists_cons_of_ne_nil hpending
      have htoken : token.kind ≠ .eof := by
        rw [atEnd, current_of_cons hp] at hend
        exact of_decide_eq_false hend
      have hsub : (s.round t levels).2.pending.Sublist r := by
        rw [hk, next_eq_skip, skip_skip, skip_pending, hp, Nat.add_comm, List.drop_succ_cons]
        exact List.drop_sublist _ _
      rw [rounds_of_not_atEnd hend, List.length_cons, hp, List.countP_cons_of_pos (by simpa)]
      exact Nat.succ_le_succ (Nat.le_trans hrest hsub.countP_le)

end TokenStream

theorem length_statementsOf_add_length_diagnosticsOf (items : List (Except Diagnostic Stmt)) :
    (statementsOf items).length + (diagnosticsOf items).length = items.length := by
  induction items with
  | nil => rfl
  | cons item items ih =>
    cases item with
    | ok statement =>
      rw [statementsOf_ok, diagnosticsOf_ok, List.length_cons, List.length_cons]
      omega
    | error d =>
      rw [statementsOf_error, diagnosticsOf_error, List.length_cons, List.length_cons]
      omega

/-- A step of the program loop moves on by a token at least, and adds one statement or one
diagnostic. -/
theorem Parser.step_progress {p : Parser} :
    p.tokens.passed < p.step.2.tokens.passed ∧
      ((∃ statement, p.step.1 = some statement ∧ p.step.2.diagnostics = p.diagnostics) ∨
        ∃ d, p.step.1 = none ∧ p.step.2.diagnostics = p.diagnostics.push d) := by
  constructor
  · rw [p.step_spec.1]
    exact (round_reaches p.tables p.levels p.tokens).passed_le
  · unfold step parseStatement attempt
    cases parseStmt p.tables p.levels p.tokens with
    | found statement rest => exact .inl ⟨statement, rfl, rfl⟩
    | failed d rest => exact .inr ⟨d, rfl, rfl⟩

/-! ## Registered rules -/

/-- The tables that come from those of the language by registering rules, without an operator for
the end of input. -/
inductive Tables.Registered : Tables → Prop where
  | default : Registered .default
  | setStatement {t : Tables} (kind : TokenKind) (rule : StatementRule) (h : Registered t) :
      Registered (t.setStatement kind rule)
  | setPrefix {t : Tables} (kind : TokenKind) (rule : PrefixRule) (h : Registered t) :
      Registered (t.setPrefix kind rule)
  | setOperator {t : Tables} (kind : TokenKind) (op : Operator) (h : Registered t)
      (hkind : kind ≠ .eof) : Registered (t.setOperator kind op)

theorem Tables.Registered.operator_eof {t : Tables} (h : t.Registered) :
    t.operator .eof = none := by
  induction h with
  | default => rfl
  | setStatement _ _ _ ih => exact ih
  | setPrefix _ _ _ ih => exact ih
  | setOperator _ op _ hkind ih => rw [operator_setOperator_eof op hkind, ih]

/-- **Parsing ends and makes progress under any registered rules.** Every procedure has exactly one
run, the one that the functions of the parser compute. A round of the program loop moves on by a
token at least and adds one statement or one diagnostic. A program with its new diagnostics is
therefore no longer than its tokens, and nothing is added only if the current token is the end of
input. -/
theorem Parser.ends_with_progress {p : Parser} (h : p.tables.Registered) :
    (∀ (procedure : Procedure) (result : Except Diagnostic procedure.Answer) (q : Parser),
        (∃ moments, procedure.body.Runs p result q moments) ↔ (result, q) = procedure.eval p) ∧
      p.tokens.passed < p.step.2.tokens.passed ∧
      ((∃ statement, p.step.1 = some statement ∧ p.step.2.diagnostics = p.diagnostics) ∨
        ∃ d, p.step.1 = none ∧ p.step.2.diagnostics = p.diagnostics.push d) ∧
      ∃ new, p.parseProgram.2.diagnostics.toList = p.diagnostics.toList ++ new ∧
        p.parseProgram.1.statements.length + new.length ≤
          p.tokens.pending.countP (fun token => token.kind ≠ .eof) ∧
        (p.parseProgram.1.statements = [] ∧ new = [] ↔ p.tokens.atEnd = true) := by
  obtain ⟨hpassed, hadded⟩ := p.step_progress
  obtain ⟨hstatements, hdiagnostics⟩ := p.parseProgram_eq
  have hlength := length_statementsOf_add_length_diagnosticsOf (p.tokens.rounds p.tables p.levels)
  refine ⟨Procedure.runs_iff h.operator_eof, hpassed, hadded,
    diagnosticsOf (p.tokens.rounds p.tables p.levels), hdiagnostics, ?_, ?_⟩
  · rw [hstatements, hlength]
    exact length_rounds_le _ _ _
  · have hnone : p.tokens.rounds p.tables p.levels = [] ↔ p.tokens.atEnd = true := rounds_eq_nil
    rw [hstatements, ← hnone, ← List.length_eq_zero_iff, ← List.length_eq_zero_iff,
      ← List.length_eq_zero_iff, ← hlength]
    omega

/-- If the end of input is registered as an operator before its operand, the operand of a last minus
nests as deeply as it may, one end of input within another, and then fails. -/
theorem Parser.ends_with_progress_unary_end :
    let p := ((Parser.ofFile "shell" "-").setPrefix .eof .unary).setOperator .illegal
      ⟨.sum, .binaryLowest⟩
    p.tables.Registered ∧
      (∃ q moments, Procedure.program.body.Runs p
        (.ok ⟨[], ⟨.ofBytes "shell" 0, .ofBytes "shell" 1⟩⟩) q moments ∧
        q.diagnostics = #[⟨.nestingTooDeep 128, .ofBytes "shell" 1⟩]) ∧
      p.tokens.passed < p.step.2.tokens.passed ∧
      p.parseProgram.1.statements.length + 1 ≤
        p.tokens.pending.countP (fun token => token.kind ≠ .eof) := by
  intro p
  have hp : p.tables.Registered := .setOperator _ _ (.setPrefix _ _ .default) (by decide)
  obtain ⟨hruns, hpassed, -, new, hnew, hle, -⟩ := ends_with_progress hp
  have hprogram : p.parseProgram.1 = ⟨[], ⟨.ofBytes "shell" 0, .ofBytes "shell" 1⟩⟩ := by
    decide +kernel
  have hdiagnostics : p.parseProgram.2.diagnostics =
      #[⟨.nestingTooDeep 128, .ofBytes "shell" 1⟩] := by
    decide +kernel
  obtain ⟨moments, hrun⟩ := (hruns .program (.ok p.parseProgram.1) p.parseProgram.2).2 rfl
  have hone : new.length = 1 := by
    have hempty : p.diagnostics = #[] := rfl
    rw [hdiagnostics, hempty] at hnew
    simpa using congrArg List.length hnew.symm
  rw [hone] at hle
  rw [hprogram] at hrun
  exact ⟨hp, ⟨_, moments, hrun, hdiagnostics⟩, hpassed, hle⟩

/-! ## An operator for the end of input -/

namespace Parser

open Procedure Script

variable {p : Parser}

/-- An operator that stands at the end of input, and that always finds its operand there, is found
for ever. -/
theorem climbing_endless_of_operand {cutoff : BindingPower} {op : Operator}
    (hop : p.tables.operator .eof = some op) (habove : cutoff < op.power)
    (hend : p.tokens.pending = [])
    (hoperand : ∀ q : Parser, q.tables = p.tables → q.depth = p.depth → q.tokens.pending = [] →
      ∀ left, ∃ left' k, (continuing op.rule left op.power).body.Attempts q
        (.found left' (q.tokens.skip k)))
    (left : Expr) : ¬ ∃ result q moments, (climbing cutoff left).body.Runs p result q moments := by
  rintro ⟨result, q, moments, hruns⟩
  -- a round of the loop is a run of the loop with fewer moments
  induction hn : moments.length using Nat.strongRecOn generalizing p left moments with
  | ind n ih =>
    have hpeek : p.tokens.peek.kind = .eof := peek_kind_of_short (by simp [hend])
    have hsome : p.tables.operatorAbove? cutoff p.tokens.peek.kind = some op := by
      simp [Tables.operatorAbove?, hpeek, hop, habove]
    have hnext : p.advance.tokens.pending = [] := next_pending_of_nil hend
    rw [climbing_body] at hruns
    obtain ⟨_, hextend, rfl⟩ := Runs.of_bind (.look (.answer (.ok p) p)) hruns
    rw [hsome] at hextend
    obtain ⟨_, hadvanced, rfl⟩ := Runs.of_bind (.perform rfl) hextend
    obtain ⟨_, hcontinue, rfl⟩ := Runs.of_bind (.look (.answer (.ok p.advance) p.advance)) hadvanced
    rw [currentPower_advance hsome] at hcontinue
    obtain ⟨left', k, hfound⟩ := hoperand p.advance rfl rfl hnext left
    obtain ⟨-, _, hoperator, -⟩ := Attempts.run hfound
    obtain ⟨_, hclimb, rfl⟩ := Runs.of_bind hoperator hcontinue
    cases hclimb with
    | call hclimb hanswer =>
      cases hanswer
      refine ih _ ?_ (p := p.advance.moveTo (p.advance.tokens.skip k)) hop ?_ hoperand left' _ _
        hclimb rfl
      · simp only [List.length_append, List.length_cons] at hn
        omega
      · show p.advance.tokens.pending.drop k = []
        rw [hnext, List.drop_nil]

/-- Where the end of input is both a name and an operator, the name is an operand up to it. -/
theorem nested_at_end {power : BindingPower} {op : Operator}
    (hname : p.tables.prefixRule .eof = some .identifier)
    (hop : p.tables.operator .eof = some op) (hend : p.tokens.pending = [])
    (hpower : op.power ≤ power) :
    (nested power).body.Attempts p
      (.found (.identifier (.ofToken p.tokens.current)) p.tokens) := by
  have hcurrent : p.tokens.current.kind = .eof := by
    rw [current_of_nil hend]
    rfl
  have hpeek : p.tokens.peek.kind = .eof := peek_kind_of_short (by simp [hend])
  have hnone : p.tables.operatorAbove? power p.tokens.peek.kind = none := by
    simp [Tables.operatorAbove?, hpeek, hop, BindingPower.not_lt.2 hpower]
  have hbeginning : (beginning .identifier).body.Attempts p
      (.found (.identifier (.ofToken p.tokens.current)) p.tokens) := .state_bind (.pure _ p)
  have hclimbing : (climbing power (.identifier (.ofToken p.tokens.current))).body.Attempts p
      (.found (.identifier (.ofToken p.tokens.current)) p.tokens) := by
    rw [climbing_body]
    apply Attempts.state_bind
    rw [hnone]
    exact .pure _ p
  apply Attempts.state_bind
  dsimp only
  rw [hcurrent, hname]
  refine .bind_found (.run hbeginning) ?_
  rw [moveTo_self]
  exact .run hclimbing

theorem expression_at_end {power : BindingPower} {op : Operator}
    (hname : p.tables.prefixRule .eof = some .identifier)
    (hop : p.tables.operator .eof = some op) (hend : p.tokens.pending = [])
    (hpower : op.power ≤ power) (hdepth : p.depth < maxNesting) :
    ∃ name, (expression power).body.Attempts p.advance (.found name p.tokens.next) := by
  have hnext : p.advance.tokens.pending = [] := next_pending_of_nil hend
  exact ⟨_, expression_attempts_of_nested (p := p.advance) hdepth
    (nested_at_end (p := { p.advance with depth := p.depth + 1 }) hname hop hnext hpower)⟩

/-- **The end of input must not be an operator.** If it is both a name and an operator above the
cut-off, the operator loop never ends there, as long as a level is left for the operand. -/
theorem climbing_endless {cutoff power : BindingPower}
    (hname : p.tables.prefixRule .eof = some .identifier)
    (hop : p.tables.operator .eof = some ⟨power, .binary⟩) (habove : cutoff < power)
    (hdepth : p.depth < maxNesting) (hend : p.tokens.pending = []) (left : Expr) :
    ¬ ∃ result q moments, (climbing cutoff left).body.Runs p result q moments := by
  refine climbing_endless_of_operand hop habove hend ?_ left
  intro q htables hqdepth hqend left
  rw [← htables] at hname hop
  rw [← hqdepth] at hdepth
  obtain ⟨right, hright⟩ := expression_at_end hname hop hqend (Nat.le_refl _) hdepth
  let token := q.tokens.current
  refine ⟨.binary token left token.text right ⟨left.span.start, right.span.stop⟩, 1, ?_⟩
  rw [← next_eq_skip]
  apply Attempts.state_bind
  apply Attempts.advance_bind
  exact .bind_found (.run hright) (.pure _ (q.advance.moveTo _))

end Parser

end FrontEnd
