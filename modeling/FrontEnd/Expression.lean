import FrontEnd.Numeral
import FrontEnd.Outcome
import FrontEnd.Tables
import FrontEnd.Tree

/-!
# Parsing expressions

An expression is parsed at a cut-off power: a rule for the current token reads its beginning, and
rules for the operators that follow extend it as long as they bind more strongly than the cut-off.
On success the current token is the last token of the expression.

* `PrefixRule.run`, `InfixRule.run` — one rule each, given the way to parse an operand.
* `climb` — extends a left operand by the operators above the cut-off.
* `parseExpr` — an expression. It may nest only so deep, and every operand costs a level, so the
  recursion is on the number of levels that are left.
-/

namespace FrontEnd

/-- `MAX_NESTING_DEPTH`. -/
def maxNesting : Nat := 128

/-- A way to parse an operand at a cut-off power. -/
abbrev OperandParser := BindingPower → TokenStream → Outcome Expr

def Identifier.ofToken (token : Token) : Identifier := ⟨token, token.text, token.span⟩

/-- Reads the beginning of an expression; `operand` parses what is nested in it. The rules are
`parse_identifier_expr`, `parse_integer_expr`, `parse_boolean_expr`, `parse_prefix_expr` and
`parse_grouping_expr`. -/
def PrefixRule.run (rule : PrefixRule) (operand : OperandParser) (s : TokenStream) :
    Outcome Expr :=
  let token := s.current
  match rule with
  | .identifier => .found (.identifier (.ofToken token)) s
  | .integer =>
    match literalValue? token.text with
    | some value => .found (.integer token value token.span) s
    | none => .failed ⟨.badInteger token.text, token.span.start⟩ s
  | .boolean => .found (.boolean token (token.kind = .trueWord) token.span) s
  | .unary =>
    (operand .unary s.next).andThen fun right s =>
      .found (.unary token token.text right ⟨token.span.start, right.span.stop⟩) s
  | .grouping =>
    (operand .lowest s.next).andThen fun inner s =>
      (s.expectPeek .closeParen).andThen fun _ s => .found inner s

def InfixRule.operandPower (rule : InfixRule) (power : BindingPower) : BindingPower :=
  match rule with
  | .binary => power
  | .binaryLowest => .lowest

/-- `parse_infix_expr`: reads on after the operand `left`, from an operator of power `power`. -/
def InfixRule.run (rule : InfixRule) (operand : OperandParser) (left : Expr)
    (power : BindingPower) (s : TokenStream) : Outcome Expr :=
  let token := s.current
  (operand (rule.operandPower power) s.next).andThen fun right s =>
    .found (.binary token left token.text right ⟨left.span.start, right.span.stop⟩) s

/-- The operator that comes next, if the operand before it reaches that far: it must bind more
strongly than the cut-off, and no operator follows a semicolon. -/
def Tables.operatorAbove? (t : Tables) (cutoff : BindingPower) (kind : TokenKind) :
    Option Operator :=
  match t.operator kind with
  | some op => if kind ≠ .semicolon ∧ cutoff < op.power then some op else none
  | none => none

/-- The loop of `parse_expr_inner`, which extends the operand `left` by the operators above the
cut-off. Every operator uses up a token, so a round for each token in `budget` is enough; only the
end of input, made an operator, could ask for more. -/
def climb (t : Tables) (operand : OperandParser) (cutoff : BindingPower) :
    List Token → Expr → TokenStream → Outcome Expr
  | budget, left, s =>
    match t.operatorAbove? cutoff s.peek.kind with
    | none => .found left s
    | some op =>
      (op.rule.run operand left op.power s.next).andThen fun left s =>
        match budget with
        | [] => .found left s
        | _ :: budget => climb t operand cutoff budget left s

/-- `parse_expr`: an expression above the power `cutoff`, nested in at most `levels` levels, itself
included. -/
def parseExpr (t : Tables) (levels : Nat) (cutoff : BindingPower) (s : TokenStream) :
    Outcome Expr :=
  match levels with
  | 0 => .failed ⟨.nestingTooDeep maxNesting, s.current.span.start⟩ s
  | levels + 1 =>
    match t.prefixRule s.current.kind with
    | none => .failed ⟨.noPrefixRule s.current.kind s.current.text, s.current.span.start⟩ s
    | some rule =>
      (rule.run (parseExpr t levels) s).andThen fun left s =>
        climb t (parseExpr t levels) cutoff s.pending left s

end FrontEnd
