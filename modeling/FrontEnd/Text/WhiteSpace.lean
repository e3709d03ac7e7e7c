import FrontEnd.Text.CharacterClass

/-!
# White space

The characters with the Unicode property `White_Space`, 25 in number.
-/

namespace FrontEnd

def whiteSpaceRanges : List (Nat × Nat) :=
  [(0x9, 0xD), (0x20, 0x20), (0x85, 0x85), (0xA0, 0xA0), (0x1680, 0x1680), (0x2000, 0x200A),
    (0x2028, 0x2029), (0x202F, 0x202F), (0x205F, 0x205F), (0x3000, 0x3000)]

theorem whiteSpaceRanges_ascending : isAscending whiteSpaceRanges = true := by decide

def isWhiteSpace (c : Char) : Bool := inRanges whiteSpaceRanges c

theorem isWhiteSpace_of_isWhitespace {c : Char} (h : c.isWhitespace = true) :
    isWhiteSpace c = true := by
  simp only [Char.isWhitespace, Bool.or_eq_true, decide_eq_true_eq] at h
  rcases h with ((rfl | rfl) | rfl) | rfl <;> decide

/-- The text without the white space at its end. -/
def trimEnd (cs : List Char) : List Char := (cs.reverse.dropWhile isWhiteSpace).reverse

theorem trimEnd_prefix (cs : List Char) : trimEnd cs <+: cs := by
  rw [← List.reverse_suffix, trimEnd, List.reverse_reverse]
  exact List.dropWhile_suffix isWhiteSpace

/-- Something is left of a text that is not all white space. -/
theorem trimEnd_ne_nil {cs : List Char} {c : Char} (hc : c ∈ cs) (hblack : isWhiteSpace c = false) :
    trimEnd cs ≠ [] := by
  intro hnil
  have hall := List.takeWhile_append_dropWhile (p := isWhiteSpace) (l := cs.reverse)
  rw [List.reverse_eq_nil_iff.1 hnil, List.append_nil] at hall
  rw [← List.mem_reverse, ← hall] at hc
  rw [List.all_eq_true.1 List.all_takeWhile c hc] at hblack
  cases hblack

/-- White space is removed no further than the last other character. -/
theorem trimEnd_append_of_mem (as : List Char) {bs : List Char} {c : Char} (hc : c ∈ bs)
    (hblack : isWhiteSpace c = false) : trimEnd (as ++ bs) = as ++ trimEnd bs := by
  have hne : bs.reverse.dropWhile isWhiteSpace ≠ [] := fun hnil =>
    trimEnd_ne_nil hc hblack (List.reverse_eq_nil_iff.2 hnil)
  rw [trimEnd, List.reverse_append, List.dropWhile_append,
    if_neg (by rwa [List.isEmpty_iff]), List.reverse_append, List.reverse_reverse]
  rfl

theorem trimEnd_append_of_forall (as : List Char) {bs : List Char}
    (h : ∀ c ∈ bs, isWhiteSpace c = true) : trimEnd (as ++ bs) = trimEnd as := by
  rw [trimEnd, List.reverse_append,
    List.dropWhile_append_of_pos fun c hc => h c (List.mem_reverse.1 hc)]
  rfl

end FrontEnd
