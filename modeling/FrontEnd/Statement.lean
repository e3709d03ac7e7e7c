import FrontEnd.Expression

/-!
# Parsing statements

A statement may end with a semicolon. On success the current token is the last token of the
statement, so the next statement begins one token on.

* `StatementRule.run` — one rule, given the way to parse an expression.
* `parseStmt` — the statement that the current token calls for.
* `TokenStream.afterFailure` — where to look for the next statement if this one failed.
-/

namespace FrontEnd

/-- Reads a statement; `operand` parses the expressions in it. The rules are `parse_let_stmt`,
`parse_return_stmt` and `parse_expression_stmt`. -/
def StatementRule.run (rule : StatementRule) (operand : OperandParser) (s : TokenStream) :
    Outcome Stmt :=
  let token := s.current
  match rule with
  | .binding =>
    (s.expectPeek .identifier).andThen fun _ s =>
      let name := Identifier.ofToken s.current
      (s.expectPeek .assign).andThen fun _ s =>
        (operand .lowest s.next).andThen fun value s =>
          let s := s.skipPeek .semicolon
          .found (.binding token name value ⟨token.span.start, s.current.span.stop⟩) s
  | .result =>
    let s := s.next
    if s.current.kind = .semicolon ∨ s.current.kind = .eof then
      .found (.result token none ⟨token.span.start, s.current.span.stop⟩) s
    else
      (operand .lowest s).andThen fun value s =>
        let s := s.skipPeek .semicolon
        .found (.result token (some value) ⟨token.span.start, s.current.span.stop⟩) s
  | .expression =>
    (operand .lowest s).andThen fun value s =>
      .found (.expression token value ⟨token.span.start, value.span.stop⟩) (s.skipPeek .semicolon)

/-- The rule for statements that begin with a token of the kind: a bare expression, unless the
tables say otherwise. -/
def Tables.statementRule (t : Tables) (kind : TokenKind) : StatementRule :=
  (t.statement kind).getD .expression

/-- `parse_stmt`: the statement that the current token calls for, its expressions nested in at most
`levels` levels. -/
def parseStmt (t : Tables) (levels : Nat) (s : TokenStream) : Outcome Stmt :=
  (t.statementRule s.current.kind).run (parseExpr t levels) s

/-- Where `parse_program` tries the next statement. A failed statement gives up its
current token, and the semicolon after it; if it nested too deeply, it gives up all tokens before
the semicolon. -/
def TokenStream.afterFailure (s : TokenStream) (cause : Cause) : TokenStream :=
  match cause with
  | .nestingTooDeep _ => (s.skipToStatementEnd.skipPeek .semicolon).next
  | _ => (s.skipPeek .semicolon).next

end FrontEnd
