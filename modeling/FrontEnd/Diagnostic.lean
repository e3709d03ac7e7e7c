import FrontEnd.Text.Quoted
import FrontEnd.Token

/-!
# Diagnostics

Why a statement could not be parsed, and where. Each cause has a name, a message, and, where more
can be said, a tip.
-/

namespace FrontEnd

/-- What stopped the parser (`ErrorImpl`). -/
inductive Cause where
  /-- A token of the kind `expected` had to come next; the next one is of the kind `received`. -/
  | unexpectedToken (expected received : TokenKind) (text : String)
  /-- No expression begins with a token of this kind. -/
  | noPrefixRule (kind : TokenKind) (text : String)
  /-- The text is no integer literal. -/
  | badInteger (text : String)
  /-- An expression has more than `limit` levels. -/
  | nestingTooDeep (limit : Nat)
  deriving DecidableEq, Repr

namespace Cause

/-- `get_error_name`. -/
def name : Cause → String
  | unexpectedToken _ _ _ => "UnexpectedToken"
  | noPrefixRule _ _ => "NoPrefixParseFn"
  | badInteger _ => "IntegerParseError"
  | nestingTooDeep _ => "NestingTooDeep"

def message : Cause → String
  | unexpectedToken expected received _ =>
    "expected next token to be " ++ expected.name ++ ", got " ++ received.name ++ " instead"
  | noPrefixRule kind _ => "no prefix parse function for " ++ kind.name ++ " found"
  | badInteger text => "could not parse " ++ quote text ++ " as integer"
  | nestingTooDeep limit =>
    "expression nested more than " ++ toString limit ++ " levels deep"

def backquoted (text : String) : String := "\x60" ++ text ++ "\x60"

/-- `get_tip`. -/
def tip : Cause → Option String
  | unexpectedToken expected _ text =>
    some ("expected " ++ backquoted expected.name ++ ", got " ++ backquoted text)
  | noPrefixRule .illegal text => some (backquoted text ++ " is not a valid character here")
  | noPrefixRule .eof _ => some "input ended in the middle of an expression"
  | noPrefixRule _ text => some (backquoted text ++ " cannot start an expression")
  | badInteger _ => some "is it above the 64-bit integer limit?"
  | nestingTooDeep _ => none

end Cause

/-- A cause and the position that it is reported at (`Error`). -/
structure Diagnostic where
  cause : Cause
  position : Position
  deriving DecidableEq, Repr

end FrontEnd
