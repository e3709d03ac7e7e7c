import FrontEnd.Proofs.Agreement

/-!
# Balance

Whatever was done with a parser before, a procedure that is called on it leaves as many levels of
nesting open as it found, the rules as they were, and the input the same, whether it succeeds or
fails, and however deep inside it fails. Errors are handed on and not recorded, until a round of the
program loop catches them.

* `Parser.Reachable` — the states that a parser may be in.

Principal results: `Parser.Reachable.orderly` (no more levels are open than there are, and the end
of input is no operator) and `Parser.calls_balanced` (what a call leaves alone, at its end and on
the way).
-/

namespace FrontEnd

open Script

namespace Parser

/-- The states that a parser comes to from its start: by any actions but making the end of input an
operator, and by calls of any procedures, whatever their result. -/
inductive Reachable : Parser → Prop where
  | start {l : Lexer} {p : Parser} (h : ofLexer? l = some p) : Reachable p
  | act {p : Parser} (action : Action) (h : Reachable p)
      (hop : ∀ op, action ≠ .setOperator .eof op) : Reachable (action.perform p).2
  | call {p q : Parser} {procedure : Procedure} {result : Except Diagnostic procedure.Answer}
      {moments : List Parser} (h : Reachable p)
      (hruns : procedure.body.Runs p result q moments) : Reachable q

/-- No more levels are open than there are, and the end of input is no operator. -/
structure Orderly (p : Parser) : Prop where
  depth_le : p.depth ≤ maxNesting
  operator_eof : p.tables.operator .eof = none

theorem Orderly.ofLexer? {l : Lexer} {p : Parser} (h : ofLexer? l = some p) : p.Orderly := by
  obtain ⟨-, hsome⟩ := Option.ite_none_right_eq_some.1 h
  cases hsome
  exact ⟨Nat.zero_le _, rfl⟩

theorem Orderly.perform {p : Parser} (h : p.Orderly) (action : Action)
    (hop : ∀ op, action ≠ .setOperator .eof op) : (action.perform p).2.Orderly := by
  obtain ⟨hdepth, heof⟩ := h
  cases action with
  | advance => exact ⟨hdepth, heof⟩
  | expectPeek kind => exact ⟨hdepth, heof⟩
  | enterNesting =>
    simp only [Action.perform, enterNesting]
    by_cases hlt : p.depth < maxNesting
    · rw [if_pos hlt]
      exact ⟨hlt, heof⟩
    · rw [if_neg hlt]
      exact ⟨hdepth, heof⟩
  | exitNesting => exact ⟨Nat.le_trans (Nat.sub_le _ _) hdepth, heof⟩
  | resetTables => exact ⟨hdepth, heof⟩
  | setStatement kind rule => exact ⟨hdepth, heof⟩
  | setPrefix kind rule => exact ⟨hdepth, heof⟩
  | setOperator kind op =>
    have hkind : kind ≠ .eof := by
      rintro rfl
      exact hop op rfl
    exact ⟨hdepth, (Tables.operator_setOperator_eof op hkind).trans heof⟩
  | note statement => exact ⟨hdepth, heof⟩
  | report d => exact ⟨hdepth, heof⟩
  | clearDiagnostics => exact ⟨hdepth, heof⟩

theorem Orderly.grows {p q : Parser} (h : p.Orderly) (hgrows : p.Grows q) : q.Orderly where
  depth_le := Nat.le_trans hgrows.depth_le (Nat.max_le.2 ⟨h.depth_le, Nat.le_refl _⟩)
  operator_eof := by rw [hgrows.tables, h.operator_eof]

end Parser

theorem Procedure.keeps_of_runs {p q : Parser} (heof : p.tables.operator .eof = none)
    {procedure : Procedure} {result : Except Diagnostic procedure.Answer} {moments : List Parser}
    (hruns : procedure.body.Runs p result q moments) :
    ∀ m ∈ q :: moments, procedure.Keeps p m := by
  obtain ⟨moments', hends, hkeeps⟩ := Procedure.ends heof procedure
  obtain ⟨-, -, rfl⟩ := hruns.unique hends
  refine List.forall_mem_cons.2 ⟨?_, hkeeps⟩
  rcases hruns.end_mem with rfl | hmem
  · exact .refl procedure q
  · exact hkeeps q hmem

namespace Parser

theorem Reachable.orderly {p : Parser} (h : p.Reachable) : p.Orderly := by
  induction h with
  | start h => exact .ofLexer? h
  | act action _ hop ih => exact ih.perform action hop
  | call _ hruns ih =>
    exact ih.grows (Procedure.keeps_of_runs ih.operator_eof hruns _ List.mem_cons_self).grows

theorem parseStatements_depth (budget : List Token) (p : Parser) (found : Array Stmt) :
    (parseStatements budget p found).2.depth = p.depth := by
  induction budget generalizing p found with
  | nil => rfl
  | cons token budget ih =>
    unfold parseStatements
    obtain ⟨-, -, hdepth, -⟩ := p.step_spec
    split
    · rfl
    · generalize p.step = next at *
      obtain ⟨statement?, q⟩ := next
      cases statement? with
      | none => exact (ih q found).trans hdepth
      | some parsed => exact (ih q (found.push parsed)).trans hdepth

end Parser

/-- The functions of the parser leave as many levels of nesting open as they find. -/
theorem Procedure.eval_depth (procedure : Procedure) (p : Parser) :
    (procedure.eval p).2.depth = p.depth := by
  cases procedure with
  | round => exact p.step_spec.2.2.1
  | statements found => exact Parser.parseStatements_depth _ p found
  | program => exact Parser.parseStatements_depth _ p #[]
  | _ => rfl

namespace Parser

/-- **The state is framed and balanced.** From a state that a parser may be in, every procedure has
a run, the one that the functions of the parser compute. However it ends, as many levels of nesting
are open after it as before. At every moment of it no more than 128 are, and the rules and the file
are those from before. A procedure that parses an expression or a statement never touches the
diagnostics, also when it fails; the program loop adds to them. -/
theorem calls_balanced {p : Parser} (hp : p.Reachable) (procedure : Procedure) :
    (∃ result q moments, procedure.body.Runs p result q moments) ∧
      ∀ result q moments, procedure.body.Runs p result q moments →
        (result, q) = procedure.eval p ∧ q.depth = p.depth ∧
        (∀ m ∈ p :: q :: moments, m.depth ≤ 128 ∧ m.tables = p.tables ∧
          m.tokens.stop.file = p.tokens.stop.file) ∧
        (procedure.records = false → ∀ m ∈ q :: moments, m.diagnostics = p.diagnostics) ∧
        ∃ new, q.diagnostics.toList = p.diagnostics.toList ++ new := by
  have horderly := hp.orderly
  have heof := horderly.operator_eof
  constructor
  · obtain ⟨moments, hends, -⟩ := Procedure.ends heof procedure
    exact ⟨_, _, moments, hends⟩
  · intro result q moments hruns
    have heval := (Procedure.runs_iff heof procedure result q).1 ⟨moments, hruns⟩
    have hkeeps := Procedure.keeps_of_runs heof hruns
    obtain ⟨new, hnew⟩ := (hkeeps q List.mem_cons_self).grows.diagnostics
    refine ⟨heval, ?_, ?_, fun hrecords m hm => (hkeeps m hm).same hrecords, new, hnew.symm⟩
    · rw [← procedure.eval_depth p, ← heval]
    · intro m hm
      have hgrows : p.Grows m := (List.forall_mem_cons.2 ⟨.refl procedure p, hkeeps⟩ m hm).grows
      exact ⟨(horderly.grows hgrows).depth_le, hgrows.tables, by rw [hgrows.stop]⟩

/-- Two levels are open inside a third when the parentheses turn out not to be closed; the one that
was open before the call is the only one left, and nothing is recorded. -/
theorem calls_balanced_unclosed :
    let p := (Action.enterNesting.perform (Parser.ofFile "shell" "((1")).2
    p.Reachable ∧ ∃ q moments,
      (Procedure.expression .lowest).body.Runs p
        (.error ⟨.unexpectedToken .closeParen .eof "", .ofBytes "shell" 3⟩) q moments ∧
      q.depth = 1 ∧ (∀ m ∈ p :: q :: moments, m.depth ≤ 128) ∧
      ∀ m ∈ q :: moments, m.diagnostics = #[] := by
  intro p
  have hp : p.Reachable := .act _ (.start (l := .ofFile "shell" "((1") rfl) (by simp)
  obtain ⟨⟨result, q, moments, hruns⟩, hall⟩ := calls_balanced hp (.expression .lowest)
  obtain ⟨heval, hdepth, hmoments, hdiagnostics, -⟩ := hall result q moments hruns
  have hfailed : p.operand .lowest p.tokens =
      .failed ⟨.unexpectedToken .closeParen .eof "", .ofBytes "shell" 3⟩ (p.tokens.skip 2) := by
    decide +kernel
  have hresult : result = (p.operand .lowest p.tokens).result := congrArg Prod.fst heval
  rw [hfailed] at hresult
  subst hresult
  exact ⟨hp, q, moments, hruns, hdepth, fun m hm => (hmoments m hm).1, hdiagnostics rfl⟩

end Parser

end FrontEnd
