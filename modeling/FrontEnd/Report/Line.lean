import FrontEnd.Text.Width

/-!
# Lines of a source

A line runs through its line feed. What follows the last line feed is a line as well, and the only
one that can be empty; the end of the source belongs to it.

* `Line` — a place in a source: a line and a column in it.
* `Line.find?` — the place of an offset.
-/

namespace FrontEnd

/-- A place in a source: the number of its line, counted from one, the text of the line, line feed
included, and the number of bytes of the line before the place. -/
structure Line where
  number : Nat
  text : List Char
  column : Nat
  deriving DecidableEq, Repr

namespace Line

def isInside (c : Char) : Bool := c ≠ '\n'

theorem length_lt_of_dropWhile {cs rest : List Char} {feed : Char}
    (h : cs.dropWhile isInside = feed :: rest) : rest.length < cs.length := by
  have := (List.dropWhile_suffix isInside (l := cs)).length_le
  rw [h, List.length_cons] at this
  omega

/-- The place `offset` bytes into the text, whose first line has the given number. -/
def findFrom (number : Nat) (cs : List Char) (offset : Nat) : Option Line :=
  match _h : cs.dropWhile isInside with
  | [] =>
    if offset ≤ byteLength cs then some ⟨number, cs, offset⟩ else none
  | feed :: rest =>
    let text := cs.takeWhile isInside ++ [feed]
    if offset < byteLength text then some ⟨number, text, offset⟩
    else findFrom (number + 1) rest (offset - byteLength text)
termination_by cs.length
decreasing_by exact length_lt_of_dropWhile ‹_›

/-- `get_line_at_position`. -/
def find? (source : String) (offset : UInt32) : Option Line :=
  findFrom 1 source.toList offset.toNat

end Line

end FrontEnd
