/-!
# Classes of characters

A class of characters is given by the ranges of code points that it covers.
-/

namespace FrontEnd

/-- Whether one of the ranges, both ends included, covers the code point of `c`. -/
def inRanges (ranges : List (Nat × Nat)) (c : Char) : Bool :=
  ranges.any fun range => range.1 ≤ c.toNat && c.toNat ≤ range.2

/-- Whether the ranges are in ascending order, with a gap between any two. -/
def isAscending : List (Nat × Nat) → Bool
  | [] => true
  | [range] => range.1 ≤ range.2
  | range :: later :: ranges =>
    range.1 ≤ range.2 && range.2 + 1 < later.1 && isAscending (later :: ranges)

theorem inRanges_iff {ranges : List (Nat × Nat)} {c : Char} :
    inRanges ranges c = true ↔ ∃ range ∈ ranges, range.1 ≤ c.toNat ∧ c.toNat ≤ range.2 := by
  simp [inRanges]

end FrontEnd
