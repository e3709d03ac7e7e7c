import FrontEnd.Token

/-!
# Syntax trees

A program is a list of statements: bindings, results and bare expressions. Every node keeps the
token that it was made from and the span that it covers. Parentheses leave no node, since the tree
itself tells how operands are grouped.

* `Identifier`, `Expr`, `Stmt`, `Program` — the nodes.
* `Expr.text`, `Stmt.text`, `Program.text` — a node written out, every operator in parentheses.
-/

namespace FrontEnd

structure Identifier where
  token : Token
  value : String
  span : Span
  deriving DecidableEq, Repr, Inhabited

/-- An expression. The token of an operator node is the operator. -/
inductive Expr where
  | identifier (name : Identifier)
  | integer (token : Token) (value : Int64) (span : Span)
  | boolean (token : Token) (value : Bool) (span : Span)
  | unary (token : Token) (operator : String) (right : Expr) (span : Span)
  | binary (token : Token) (left : Expr) (operator : String) (right : Expr) (span : Span)
  deriving DecidableEq, Repr, Inhabited

/-- A statement. The token of a binding or a result is its word, that of an expression the first
token of the statement. -/
inductive Stmt where
  | binding (token : Token) (name : Identifier) (value : Expr) (span : Span)
  | result (token : Token) (value : Option Expr) (span : Span)
  | expression (token : Token) (value : Expr) (span : Span)
  deriving DecidableEq, Repr, Inhabited

/-- The statements of a source, in order, and the span of the whole source. -/
structure Program where
  statements : List Stmt
  span : Span
  deriving DecidableEq, Repr, Inhabited

namespace Identifier

def text (name : Identifier) : String := name.value

end Identifier

namespace Expr

def token : Expr → Token
  | identifier name => name.token
  | integer token _ _ => token
  | boolean token _ _ => token
  | unary token _ _ _ => token
  | binary token _ _ _ _ => token

def span : Expr → Span
  | identifier name => name.span
  | integer _ _ span => span
  | boolean _ _ span => span
  | unary _ _ _ span => span
  | binary _ _ _ _ span => span

/-- The expression written out. Literals keep the spelling of their token, and every operator
stands with its operands in parentheses. -/
def text : Expr → String
  | identifier name => name.text
  | integer token _ _ => token.text
  | boolean token _ _ => token.text
  | unary _ operator right _ => "(" ++ operator ++ right.text ++ ")"
  | binary _ left operator right _ =>
    "(" ++ left.text ++ " " ++ operator ++ " " ++ right.text ++ ")"

end Expr

namespace Stmt

def token : Stmt → Token
  | binding token _ _ _ => token
  | result token _ _ => token
  | expression token _ _ => token

def span : Stmt → Span
  | binding _ _ _ span => span
  | result _ _ span => span
  | expression _ _ span => span

/-- The statement written out. A semicolon ends bindings and results, and no bare expression. -/
def text : Stmt → String
  | binding token name value _ => token.text ++ " " ++ name.text ++ " = " ++ value.text ++ ";"
  | result token (some value) _ => token.text ++ " " ++ value.text ++ ";"
  | result token none _ => token.text ++ ";"
  | expression _ value _ => value.text

end Stmt

namespace Program

/-- `token_literal` of a program. -/
def literal (program : Program) : String :=
  match program.statements with
  | statement :: _ => statement.token.text
  | [] => ""

/-- The statements written out one after the other. -/
def text (program : Program) : String := String.join (program.statements.map Stmt.text)

end Program

end FrontEnd
