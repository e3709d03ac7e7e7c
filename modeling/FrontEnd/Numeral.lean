/-!
# Integer literals

A literal is read without regard to case. `0x`, `0o` and `0b` announce the bases 16, 8 and 2; any
other literal of more than one digit that begins with a zero is octal; the rest are decimal. A
literal has at least one digit after its mark, only digits of its base, and a value that fits a
signed word of 64 bits.

* `Numeral.ofText` — the base and the digits of a literal.
* `Numeral.value?` — what the digits amount to.
* `literalValue?` — the value of a literal.
-/

namespace FrontEnd

/-- Digits to be read in a base. -/
structure Numeral where
  base : Nat
  digits : List Char
  deriving DecidableEq, Repr

namespace Numeral

/-- The base that a literal in lower case announces, and the digits after the mark. -/
def ofLower : List Char → Numeral
  | '0' :: 'x' :: digits => ⟨16, digits⟩
  | '0' :: 'o' :: digits => ⟨8, digits⟩
  | '0' :: 'b' :: digits => ⟨2, digits⟩
  | '0' :: digit :: digits => ⟨8, digit :: digits⟩
  | digits => ⟨10, digits⟩

def ofText (text : String) : Numeral := ofLower (text.toList.map Char.toLower)

/-- What a digit stands for in the base: the letters follow the nine. -/
def digit? (base : Nat) (c : Char) : Option Nat :=
  if '0' ≤ c ∧ c ≤ '9' ∧ c.toNat - '0'.toNat < base then some (c.toNat - '0'.toNat)
  else if 'a' ≤ c ∧ c ≤ 'z' ∧ c.toNat - 'a'.toNat + 10 < base then some (c.toNat - 'a'.toNat + 10)
  else none

/-- The value of the digits, the most significant first, after digits of the value `high`; none if
one of them is no digit of the base. -/
def valueFrom? (base high : Nat) : List Char → Option Nat
  | [] => some high
  | c :: cs =>
    match digit? base c with
    | some d => valueFrom? base (high * base + d) cs
    | none => none

def value? (n : Numeral) : Option Nat :=
  match n.digits with
  | [] => none
  | digits => valueFrom? n.base 0 digits

end Numeral

def maxLiteral : Nat := 9223372036854775807

/-- `parse_int_literal`. -/
def literalValue? (text : String) : Option Int64 :=
  match (Numeral.ofText text).value? with
  | some n => if n ≤ maxLiteral then some (Int64.ofNat n) else none
  | none => none

end FrontEnd
