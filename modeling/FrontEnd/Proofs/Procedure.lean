import FrontEnd.Parser

/-!
# The parser as procedures

The functions of the parser answer with the parser after them, and they open no level of nesting
that they would have to close. Here the parser is written once more as procedures that change one
state as they go: a level is opened and closed by hand, an error leaves a procedure at the place
where it arises, and loops and recursive calls are bounded by nothing. What such a procedure does is
a relation, so that a procedure may as well not end.

* `Action` — what changes the state of the parser, one change at a time.
* `Script` — looking at the state, acting on it and calling procedures, in order, up to an answer;
  an error that nothing catches is the answer.
* `Procedure`, `Procedure.body` — the procedures of the parser, and the script of each.
* `Script.Runs` — the runs of a script from a state: the answer, the state at the end, and every
  state on the way.

Principal results: `Script.Runs.unique` (a script has one run at most), `Script.Runs.bind`,
`Script.Runs.bind_error` and `Script.Runs.of_bind` (a run of two scripts in a row).
-/

namespace FrontEnd

/-! ## Actions -/

/-- One change of the state of a parser. `resetTables` is `create_token_lookups`, the setters are
`stmt`, `nud` and `led`, `report` is `push_error`, and `note` logs a parsed statement. -/
inductive Action where
  | advance
  | expectPeek (kind : TokenKind)
  | enterNesting
  | exitNesting
  | resetTables
  | setStatement (kind : TokenKind) (rule : StatementRule)
  | setPrefix (kind : TokenKind) (rule : PrefixRule)
  | setOperator (kind : TokenKind) (op : Operator)
  | note (statement : Stmt)
  | report (diagnostic : Diagnostic)
  | clearDiagnostics

def Action.perform (action : Action) (p : Parser) : Except Diagnostic Unit × Parser :=
  match action with
  | advance => (.ok (), p.advance)
  | expectPeek kind => p.expectPeek kind
  | enterNesting =>
    match p.enterNesting with
    | .ok p => (.ok (), p)
    | .error d => (.error d, p)
  | exitNesting => (.ok (), p.exitNesting)
  | resetTables => (.ok (), p.resetTables)
  | setStatement kind rule => (.ok (), p.setStatement kind rule)
  | setPrefix kind rule => (.ok (), p.setPrefix kind rule)
  | setOperator kind op => (.ok (), p.setOperator kind op)
  | note statement => (.ok (), { p with records := p.records.push (.parsed statement) })
  | report diagnostic => (.ok (), p.report diagnostic)
  | clearDiagnostics => (.ok (), p.clearDiagnostics)

/-! ## Scripts -/

/-- The procedures of the parser, with what they are handed. -/
inductive Procedure where
  /-- `parse_expr`. -/
  | expression (cutoff : BindingPower)
  /-- `parse_expr_inner`, in the level that was opened for it. -/
  | nested (cutoff : BindingPower)
  /-- One rule for the beginning of an expression, such as `parse_prefix_expr`. -/
  | beginning (rule : PrefixRule)
  /-- `parse_infix_expr`. -/
  | continuing (rule : InfixRule) (left : Expr) (power : BindingPower)
  /-- The loop of `parse_expr_inner`, with the operand that it extends. -/
  | climbing (cutoff : BindingPower) (left : Expr)
  /-- `parse_stmt`. -/
  | statement
  /-- One rule for statements, such as `parse_let_stmt`. -/
  | reading (rule : StatementRule)
  /-- `skip_to_statement_end`. -/
  | skipping
  /-- One round of the loop of `parse_program`. -/
  | round
  /-- The loop of `parse_program`, with the statements found so far. -/
  | statements (found : Array Stmt)
  /-- `parse_program`. -/
  | program

@[reducible] def Procedure.Answer : Procedure → Type
  | expression _ | nested _ | beginning _ | continuing .. | climbing .. => Expr
  | statement | reading _ => Stmt
  | skipping => Unit
  | round => Option Stmt
  | statements _ => Array Stmt
  | program => Program

/-- What a procedure does in order: it looks at the state, acts on it, or calls a procedure, and
goes on with what it saw or with the answer it got, up to an answer of its own. -/
inductive Script (α : Type) where
  | answer (result : Except Diagnostic α)
  | look (go : Parser → Script α)
  | act (action : Action) (go : Except Diagnostic Unit → Script α)
  | call (procedure : Procedure) (go : Except Diagnostic procedure.Answer → Script α)

namespace Script

variable {α β : Type}

/-- Goes on with what a script found; an error ends the whole. -/
def bind (x : Script α) (f : α → Script β) : Script β :=
  match x with
  | answer (.ok a) => f a
  | answer (.error d) => answer (.error d)
  | look go => look fun p => (go p).bind f
  | act action go => act action fun r => (go r).bind f
  | call procedure go => call procedure fun r => (go r).bind f

instance : Monad Script where
  pure a := answer (.ok a)
  bind := bind

def fail (d : Diagnostic) : Script α := answer (.error d)

def state : Script Parser := look pure

def perform (action : Action) : Script Unit := act action answer

def run (procedure : Procedure) : Script procedure.Answer := call procedure answer

def skipPeek (kind : TokenKind) : Script Unit := do
  let p ← state
  if p.tokens.peek.kind = kind then perform .advance

/-- Extends an operand by the operator that comes next, and then by those after it. -/
def extend (cutoff : BindingPower) (left : Expr) (op : Operator) : Script Expr := do
  perform .advance
  let p ← state
  let left ← run (.continuing op.rule left p.currentPower)
  run (.climbing cutoff left)

def leave (cause : Cause) : Script Unit :=
  match cause with
  | .nestingTooDeep _ => run .skipping
  | _ => pure ()

end Script

/-! ## The procedures -/

open Script

def Procedure.body : (procedure : Procedure) → Script procedure.Answer
  | expression cutoff => do
    perform .enterNesting
    call (nested cutoff) fun result => do
      perform .exitNesting
      answer result
  | nested cutoff => do
    let p ← state
    let token := p.tokens.current
    match p.tables.prefixRule token.kind with
    | none => fail ⟨.noPrefixRule token.kind token.text, token.span.start⟩
    | some rule =>
      let left ← run (beginning rule)
      run (climbing cutoff left)
  | beginning .identifier => do
    let p ← state
    return .identifier (.ofToken p.tokens.current)
  | beginning .integer => do
    let p ← state
    let token := p.tokens.current
    match literalValue? token.text with
    | some value => return .integer token value token.span
    | none => fail ⟨.badInteger token.text, token.span.start⟩
  | beginning .boolean => do
    let p ← state
    let token := p.tokens.current
    return .boolean token (token.kind = .trueWord) token.span
  | beginning .unary => do
    let p ← state
    let token := p.tokens.current
    perform .advance
    let right ← run (expression .unary)
    return .unary token token.text right ⟨token.span.start, right.span.stop⟩
  | beginning .grouping => do
    perform .advance
    let inner ← run (expression .lowest)
    perform (.expectPeek .closeParen)
    return inner
  | continuing rule left power => do
    let p ← state
    let token := p.tokens.current
    perform .advance
    let right ← run (expression (rule.operandPower power))
    return .binary token left token.text right ⟨left.span.start, right.span.stop⟩
  | climbing cutoff left => do
    let p ← state
    if p.tokens.peek.kind ≠ .semicolon ∧ cutoff < p.peekPower then
      match p.tables.operator p.tokens.peek.kind with
      | none => return left
      | some op => extend cutoff left op
    else
      return left
  | statement => do
    let p ← state
    run (reading (p.tables.statementRule p.tokens.current.kind))
  | reading .expression => do
    let p ← state
    let token := p.tokens.current
    let value ← run (expression .lowest)
    skipPeek .semicolon
    return .expression token value ⟨token.span.start, value.span.stop⟩
  | reading .binding => do
    let p ← state
    let token := p.tokens.current
    perform (.expectPeek .identifier)
    let p ← state
    let name := Identifier.ofToken p.tokens.current
    perform (.expectPeek .assign)
    perform .advance
    let value ← run (expression .lowest)
    skipPeek .semicolon
    let p ← state
    return .binding token name value ⟨token.span.start, p.tokens.current.span.stop⟩
  | reading .result => do
    let p ← state
    let token := p.tokens.current
    perform .advance
    let p ← state
    if p.tokens.current.kind = .semicolon ∨ p.tokens.current.kind = .eof then
      return .result token none ⟨token.span.start, p.tokens.current.span.stop⟩
    else
      let value ← run (expression .lowest)
      skipPeek .semicolon
      let p ← state
      return .result token (some value) ⟨token.span.start, p.tokens.current.span.stop⟩
  | skipping => do
    let p ← state
    if p.tokens.peek.kind = .semicolon ∨ p.tokens.peek.kind = .eof then
      return ()
    else
      perform .advance
      run skipping
  | round =>
    call statement fun
      | .ok found => do
        perform (.note found)
        perform .advance
        return some found
      | .error d => do
        perform (.report d)
        leave d.cause
        skipPeek .semicolon
        perform .advance
        return none
  | statements found => do
    let p ← state
    if p.tokens.atEnd then
      return found
    else
      match ← run round with
      | some parsed => run (statements (found.push parsed))
      | none => run (statements found)
  | program => do
    let p ← state
    let file := p.tokens.stop.file
    let found ← run (statements #[])
    let p ← state
    return ⟨found.toList, ⟨.ofBytes file 0, p.tokens.current.span.stop⟩⟩

/-! ## Runs -/

namespace Script

variable {α β : Type}

/-- The script, begun in one state, ends with a result and in another state. The states that its
actions lead to, those of the procedures it calls included, are listed in order. -/
inductive Runs : {α : Type} →
    Script α → Parser → Except Diagnostic α → Parser → List Parser → Prop where
  | answer {α : Type} (result : Except Diagnostic α) (p : Parser) :
      Runs (.answer result) p result p []
  | look {α : Type} {go : Parser → Script α} {p q : Parser} {result : Except Diagnostic α}
      {moments : List Parser} (h : Runs (go p) p result q moments) :
      Runs (.look go) p result q moments
  | act {α : Type} {action : Action} {go : Except Diagnostic Unit → Script α} {p q : Parser}
      {result : Except Diagnostic α} {moments : List Parser}
      (h : Runs (go (action.perform p).1) (action.perform p).2 result q moments) :
      Runs (.act action go) p result q ((action.perform p).2 :: moments)
  | call {α : Type} {procedure : Procedure} {go : Except Diagnostic procedure.Answer → Script α}
      {p q r : Parser} {result : Except Diagnostic procedure.Answer}
      {result' : Except Diagnostic α} {moments moments' : List Parser}
      (h : Runs procedure.body p result q moments) (h' : Runs (go result) q result' r moments') :
      Runs (.call procedure go) p result' r (moments ++ moments')

namespace Runs

variable {x : Script α} {f : α → Script β} {p q r : Parser} {moments moments' : List Parser}

theorem unique {result result' : Except Diagnostic α}
    (h : Runs x p result q moments) (h' : Runs x p result' r moments') :
    result = result' ∧ q = r ∧ moments = moments' := by
  induction h generalizing r moments' with
  | answer =>
    cases h'
    exact ⟨rfl, rfl, rfl⟩
  | look _ ih =>
    cases h' with
    | look h' => exact ih h'
  | act _ ih =>
    cases h' with
    | act h' =>
      obtain ⟨hresult, hq, hmoments⟩ := ih h'
      exact ⟨hresult, hq, by rw [hmoments]⟩
  | call _ _ ih ihgo =>
    cases h' with
    | call h' hgo' =>
      obtain ⟨rfl, rfl, rfl⟩ := ih h'
      obtain ⟨hresult, hq, hmoments⟩ := ihgo hgo'
      exact ⟨hresult, hq, by rw [hmoments]⟩

/-- The state at the end is one of those on the way, unless nothing happens. -/
theorem end_mem {result : Except Diagnostic α} (h : Runs x p result q moments) :
    q = p ∨ q ∈ moments := by
  induction h with
  | answer => exact .inl rfl
  | look _ ih => exact ih
  | act _ ih =>
    right
    rcases ih with heq | hmem
    · rw [heq]
      exact List.mem_cons_self
    · exact List.mem_cons_of_mem _ hmem
  | call _ _ ih ihgo =>
    rcases ihgo with rfl | hmem
    · exact ih.imp_right (List.mem_append_left _)
    · exact .inr (List.mem_append_right _ hmem)

theorem perform {action : Action} {result : Except Diagnostic Unit}
    (h : action.perform p = (result, q)) : Runs (.perform action) p result q [q] := by
  have hact : Runs (.perform action) p (action.perform p).1 (action.perform p).2
      [(action.perform p).2] := .act (.answer _ _)
  rwa [h] at hact

/-- A run of a script that finds something, and then a run of what goes on with it. -/
theorem bind {a : α} {result : Except Diagnostic β} (h : Runs x p (.ok a) q moments)
    (h' : Runs (f a) q result r moments') : Runs (x >>= f) p result r (moments ++ moments') := by
  show Runs (x.bind f) p result r _
  generalize hok : Except.ok a = found at h
  induction h with
  | answer =>
    subst hok
    exact h'
  | look _ ih => exact .look (ih h' hok)
  | act _ ih => exact .act (ih h' hok)
  | call h _ _ ihgo =>
    rw [List.append_assoc]
    exact .call h (ihgo h' hok)

/-- The run of two scripts in a row goes on from the end of the first. -/
theorem of_bind {a : α} {result : Except Diagnostic β} (h : Runs x p (.ok a) q moments)
    (h' : Runs (x >>= f) p result r moments') :
    ∃ rest, Runs (f a) q result r rest ∧ moments' = moments ++ rest := by
  replace h' : Runs (x.bind f) p result r moments' := h'
  generalize hok : Except.ok a = found at h
  induction h generalizing moments' with
  | answer =>
    subst hok
    exact ⟨moments', h', rfl⟩
  | look _ ih =>
    cases h' with
    | look h' => exact ih h' hok
  | act _ ih =>
    cases h' with
    | act h' =>
      obtain ⟨rest, hrest, rfl⟩ := ih h' hok
      exact ⟨rest, hrest, rfl⟩
  | call h _ _ ihgo =>
    cases h' with
    | call h' hgo' =>
      obtain ⟨rfl, rfl, rfl⟩ := h.unique h'
      obtain ⟨rest, hrest, rfl⟩ := ihgo hgo' hok
      exact ⟨rest, hrest, (List.append_assoc _ _ _).symm⟩

/-- A run of a script that fails is the whole run. -/
theorem bind_error {d : Diagnostic} (h : Runs x p (.error d) q moments) :
    Runs (x >>= f) p (.error d) q moments := by
  show Runs (x.bind f) p (.error d) q _
  generalize herror : Except.error d = failed at h
  induction h with
  | answer =>
    subst herror
    exact .answer _ _
  | look _ ih => exact .look (ih herror)
  | act _ ih => exact .act (ih herror)
  | call h _ _ ihgo => exact .call h (ihgo herror)

end Runs

end Script

end FrontEnd
