/-!
# Binding powers

How strongly an operator holds on to its operands. An expression parsed at a cut-off power ends
before the first operator whose power is not above it.
-/

namespace FrontEnd

/-- The powers, weakest first. -/
inductive BindingPower where
  | lowest
  | equals
  | lessGreater
  | sum
  | product
  | unary
  | call
  deriving DecidableEq, Repr, Inhabited

namespace BindingPower

def all : List BindingPower := [lowest, equals, lessGreater, sum, product, unary, call]

def rank : BindingPower → Nat
  | lowest => 0
  | equals => 1
  | lessGreater => 2
  | sum => 3
  | product => 4
  | unary => 5
  | call => 6

instance : LT BindingPower := ⟨fun a b => a.rank < b.rank⟩
instance : LE BindingPower := ⟨fun a b => a.rank ≤ b.rank⟩

instance (a b : BindingPower) : Decidable (a < b) := inferInstanceAs (Decidable (a.rank < b.rank))
instance (a b : BindingPower) : Decidable (a ≤ b) := inferInstanceAs (Decidable (a.rank ≤ b.rank))

theorem lt_def {a b : BindingPower} : a < b ↔ a.rank < b.rank := Iff.rfl

theorem le_def {a b : BindingPower} : a ≤ b ↔ a.rank ≤ b.rank := Iff.rfl

theorem rank_injective {a b : BindingPower} (h : a.rank = b.rank) : a = b := by
  cases a <;> cases b <;> simp_all [rank]

theorem not_lt {a b : BindingPower} : ¬ a < b ↔ b ≤ a := Nat.not_lt

end BindingPower

end FrontEnd
