import FrontEnd.Diagnostic
import FrontEnd.Lexer
import FrontEnd.Tree

/-!
# The log

What is logged, in order: each token when the lexer reads it (`next_token`), each statement when it
is parsed (`parse_program`), each diagnostic when it is recorded (`push_error`). Tokens are logged
as a trace, the rest for debugging.

* `LogRecord` — what a parser has done that is logged.
* `LogRecord.lines` — the lines that are written for it. The line for a token begins with the number
  of bytes that the lexer has read by then, so that the lexer reads along.
-/

namespace FrontEnd

inductive LogLevel where
  | trace
  | debug
  | info
  deriving DecidableEq, Repr

structure LogLine where
  level : LogLevel
  text : String
  deriving DecidableEq, Repr

def LogLine.isTrace (line : LogLine) : Bool := line.level = .trace

inductive LogRecord where
  /-- The token has come into the window. -/
  | drawn (token : Token)
  | parsed (statement : Stmt)
  | reported (diagnostic : Diagnostic)
  deriving DecidableEq, Repr

namespace LogRecord

def isTrace : LogRecord → Bool
  | drawn _ => true
  | parsed _ => false
  | reported _ => false

/-- The line for a record that is made when the lexer has read `cursor` bytes. -/
def line (cursor : Nat) : LogRecord → LogLine
  | drawn token => ⟨.trace, toString cursor ++ ": " ++ token.describe⟩
  | parsed statement => ⟨.debug, "parsed statement: " ++ statement.text⟩
  | reported diagnostic =>
    ⟨.debug, "diagnostic at " ++ toString diagnostic.position.offset ++ ": " ++
      diagnostic.cause.message⟩

/-- The lines for records that are made while `l` is read, one token of it for each that is
drawn. -/
def lines (l : Lexer) : List LogRecord → List LogLine
  | [] => []
  | record :: records =>
    let l := if record.isTrace then l.scan.2 else l
    record.line l.offset :: lines l records

end LogRecord

end FrontEnd
