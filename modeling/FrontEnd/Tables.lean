import FrontEnd.BindingPower
import FrontEnd.Token

/-!
# Rule tables

Which rule reads what begins with, or goes on with, a token of a given kind. The tables can be
extended: a later entry for a kind takes the place of an earlier one.

* `PrefixRule`, `InfixRule`, `StatementRule` — the rules.
* `Tables` — the rules by kind of token.
* `Tables.withDefaults`, `Tables.default` — the entries of the language itself.
-/

namespace FrontEnd

/-- How an expression begins (`NUDHandler`). -/
inductive PrefixRule where
  | identifier
  | integer
  | boolean
  | unary
  | grouping
  deriving DecidableEq, Repr

/-- How an expression goes on after its left operand (`LEDHandler`). -/
inductive InfixRule where
  /-- An operator whose right operand is parsed at the operator's own power. -/
  | binary
  /-- An operator whose right operand is parsed at the lowest power. -/
  | binaryLowest
  deriving DecidableEq, Repr

/-- How a statement is read (`StmtHandler`). -/
inductive StatementRule where
  | binding
  | result
  | expression
  deriving DecidableEq, Repr

structure Operator where
  power : BindingPower
  rule : InfixRule
  deriving DecidableEq, Repr

/-- The rules by the kind of the token that calls for them (`StmtLookup`, `NUDLookup`, and
`LEDLookup` with `BPLookup`). -/
structure Tables where
  statement : TokenKind → Option StatementRule
  prefixRule : TokenKind → Option PrefixRule
  operator : TokenKind → Option Operator

namespace Tables

def empty : Tables := ⟨fun _ => none, fun _ => none, fun _ => none⟩

/-- `precedence_of`. -/
def power (t : Tables) (kind : TokenKind) : BindingPower :=
  match t.operator kind with
  | some op => op.power
  | none => .lowest

/-- `stmt`. -/
def setStatement (t : Tables) (kind : TokenKind) (rule : StatementRule) : Tables :=
  { t with statement := fun k => if k = kind then some rule else t.statement k }

/-- `nud`. -/
def setPrefix (t : Tables) (kind : TokenKind) (rule : PrefixRule) : Tables :=
  { t with prefixRule := fun k => if k = kind then some rule else t.prefixRule k }

/-- `led`. -/
def setOperator (t : Tables) (kind : TokenKind) (op : Operator) : Tables :=
  { t with operator := fun k => if k = kind then some op else t.operator k }

end Tables

def StatementRule.default? : TokenKind → Option StatementRule
  | .letWord => some .binding
  | .returnWord => some .result
  | _ => none

def PrefixRule.default? : TokenKind → Option PrefixRule
  | .identifier => some .identifier
  | .integer => some .integer
  | .trueWord => some .boolean
  | .falseWord => some .boolean
  | .bang => some .unary
  | .minus => some .unary
  | .openParen => some .grouping
  | _ => none

def Operator.default? : TokenKind → Option Operator
  | .equal => some ⟨.equals, .binary⟩
  | .notEqual => some ⟨.equals, .binary⟩
  | .less => some ⟨.lessGreater, .binary⟩
  | .greater => some ⟨.lessGreater, .binary⟩
  | .plus => some ⟨.sum, .binary⟩
  | .minus => some ⟨.sum, .binary⟩
  | .star => some ⟨.product, .binary⟩
  | .slash => some ⟨.product, .binary⟩
  | _ => none

namespace Tables

/-- `create_token_lookups`: the entries of the language are put back; other entries stay. -/
def withDefaults (t : Tables) : Tables where
  statement kind := (StatementRule.default? kind).or (t.statement kind)
  prefixRule kind := (PrefixRule.default? kind).or (t.prefixRule kind)
  operator kind := (Operator.default? kind).or (t.operator kind)

def default : Tables := empty.withDefaults

end Tables

end FrontEnd
