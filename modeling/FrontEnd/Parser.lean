import FrontEnd.Log
import FrontEnd.Statement

/-!
# The parser

A parser is a place in a token stream, the rules in force, the levels of nesting that are open, and
what it has recorded so far. Each of its operations answers with the parser after it; a parse that
fails moves on in the stream all the same.

* `Parser` — the state; `Parser.ofLexer` starts one with the rules of the language.
* `Parser.currentPower`, `Parser.peekPower` — `current_precedence` and `peek_precedence`.
* `Parser.attempt` — an attempt to parse, with the tokens that it draws written to the log.
* `Parser.parseProgram` — statements up to the end of input. A statement that fails is left out; its
  diagnostic is recorded.
* `parse` — a whole source at once.
-/

namespace FrontEnd

/-- The state of a parse: the lexer as it was handed over, the tokens from the current one on, the
number of levels of nesting that are open, the rules in force, the diagnostics recorded so far, and
what was logged. -/
structure Parser where
  reader : Lexer
  tokens : TokenStream
  depth : Nat
  tables : Tables
  diagnostics : Array Diagnostic
  records : Array LogRecord

namespace Parser

/-- `Parser::new`, for what a lexer has yet to read from the next boundary on. The window draws two
tokens at once. -/
def ofLexer (l : Lexer) : Parser where
  reader := l
  tokens := l.stream
  depth := 0
  tables := .default
  diagnostics := #[]
  records := #[.drawn l.stream.current, .drawn l.stream.peek]

/-- A parser for what a lexer has yet to read, unless its cursor stands inside a character. -/
def ofLexer? (l : Lexer) : Option Parser := if l.cut = 0 then some (ofLexer l) else none

def ofFile (file source : String) : Parser := ofLexer (.ofFile file source)

def log (p : Parser) : Array LogLine := (LogRecord.lines p.reader p.records.toList).toArray

/-! ### The window -/

/-- Moves on to `s`, a later place in the same stream. -/
def moveTo (p : Parser) (s : TokenStream) : Parser :=
  { p with
    tokens := s
    records := p.records ++ (p.tokens.drawn (s.passed - p.tokens.passed)).map LogRecord.drawn }

/-- Takes over the outcome of an attempt to parse. -/
def attempt {α : Type} (p : Parser) (o : Outcome α) : Except Diagnostic α × Parser :=
  (o.result, p.moveTo o.rest)

def advance (p : Parser) : Parser := p.moveTo p.tokens.next

def expectPeek (p : Parser) (expected : TokenKind) : Except Diagnostic Unit × Parser :=
  p.attempt (p.tokens.expectPeek expected)

def currentPower (p : Parser) : BindingPower := p.tables.power p.tokens.current.kind

def peekPower (p : Parser) : BindingPower := p.tables.power p.tokens.peek.kind

/-! ### Nesting -/

def enterNesting (p : Parser) : Except Diagnostic Parser :=
  if p.depth < maxNesting then .ok { p with depth := p.depth + 1 }
  else .error ⟨.nestingTooDeep maxNesting, p.tokens.current.span.start⟩

def exitNesting (p : Parser) : Parser := { p with depth := p.depth - 1 }

def levels (p : Parser) : Nat := maxNesting - p.depth

/-! ### Rules -/

/-- `create_token_lookups`. -/
def resetTables (p : Parser) : Parser := { p with tables := p.tables.withDefaults }

def setStatement (p : Parser) (kind : TokenKind) (rule : StatementRule) : Parser :=
  { p with tables := p.tables.setStatement kind rule }

def setPrefix (p : Parser) (kind : TokenKind) (rule : PrefixRule) : Parser :=
  { p with tables := p.tables.setPrefix kind rule }

def setOperator (p : Parser) (kind : TokenKind) (op : Operator) : Parser :=
  { p with tables := p.tables.setOperator kind op }

/-! ### Parsing -/

/-- How operands are parsed by the rules in force, within the levels that are left. -/
def operand (p : Parser) : OperandParser := parseExpr p.tables p.levels

def parseExpression (p : Parser) (cutoff : BindingPower) : Except Diagnostic Expr × Parser :=
  p.attempt (p.operand cutoff p.tokens)

/-- Applies one rule to the current token, whatever the tables say. -/
def applyPrefix (p : Parser) (rule : PrefixRule) : Except Diagnostic Expr × Parser :=
  p.attempt (rule.run p.operand p.tokens)

def applyInfix (p : Parser) (rule : InfixRule) (left : Expr) (power : BindingPower) :
    Except Diagnostic Expr × Parser :=
  p.attempt (rule.run p.operand left power p.tokens)

def applyStatement (p : Parser) (rule : StatementRule) : Except Diagnostic Stmt × Parser :=
  p.attempt (rule.run p.operand p.tokens)

def parseStatement (p : Parser) : Except Diagnostic Stmt × Parser :=
  p.attempt (parseStmt p.tables p.levels p.tokens)

/-! ### Programs -/

/-- `push_error`. -/
def report (p : Parser) (d : Diagnostic) : Parser :=
  { p with diagnostics := p.diagnostics.push d, records := p.records.push (.reported d) }

/-- What `take_diagnostics` leaves. -/
def clearDiagnostics (p : Parser) : Parser := { p with diagnostics := #[] }

/-- A round of `parse_program`: tries one statement and moves on to where the next may begin. -/
def step (p : Parser) : Option Stmt × Parser :=
  match p.parseStatement with
  | (.ok statement, p) =>
    (some statement, { p with records := p.records.push (.parsed statement) }.advance)
  | (.error d, p) => (none, (p.report d).moveTo (p.tokens.afterFailure d.cause))

/-- Parses statements up to the end of input and adds them to `found`. Every step passes a token, so
a step for each token in `budget` is enough. -/
def parseStatements : List Token → Parser → Array Stmt → Array Stmt × Parser
  | [], p, found => (found, p)
  | _ :: budget, p, found =>
    if p.tokens.atEnd then (found, p)
    else
      match p.step with
      | (some statement, p) => parseStatements budget p (found.push statement)
      | (none, p) => parseStatements budget p found

def parseProgram (p : Parser) : Program × Parser :=
  match parseStatements p.tokens.pending p #[] with
  | (found, q) =>
    (⟨found.toList, ⟨.ofBytes p.tokens.stop.file 0, q.tokens.current.span.stop⟩⟩, q)

end Parser

/-- The program in the source called `file`, and the diagnostics of what could not be parsed. -/
def parseFile (file source : String) : Program × List Diagnostic :=
  match (Parser.ofFile file source).parseProgram with
  | (program, p) => (program, p.diagnostics.toList)

def parse (source : String) : Program × List Diagnostic := parseFile Lexer.defaultFile source

end FrontEnd
