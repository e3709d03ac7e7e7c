/-!
# Width of text in bytes

Offsets and columns count the bytes of UTF-8, so the width of a text is the sum of the widths of
its characters.

* `byteLength` — the width of a list of characters.
* `byteLength_append` — widths add up along concatenation.
* `byteLength_eq_length_iff` — when bytes and characters are as many.
* `append_inj_byteLength` — a count of bytes splits a text in one way.
* `byteLength_toList` — the width of a string's characters is the size of the string.
-/

namespace FrontEnd

/-- The number of bytes that the characters take in UTF-8. -/
def byteLength (cs : List Char) : Nat :=
  cs.foldl (fun n c => n + c.utf8Size) 0

theorem foldl_utf8Size (cs : List Char) (n : Nat) :
    cs.foldl (fun n c => n + c.utf8Size) n = n + byteLength cs := by
  induction cs generalizing n with
  | nil => rfl
  | cons c cs ih =>
    rw [byteLength, List.foldl_cons, List.foldl_cons, ih, ih]
    omega

@[simp] theorem byteLength_nil : byteLength [] = 0 := rfl

@[simp] theorem byteLength_cons (c : Char) (cs : List Char) :
    byteLength (c :: cs) = c.utf8Size + byteLength cs := by
  rw [byteLength, List.foldl_cons, foldl_utf8Size, Nat.zero_add]

@[simp] theorem byteLength_append (as bs : List Char) :
    byteLength (as ++ bs) = byteLength as + byteLength bs := by
  induction as with
  | nil => simp
  | cons a as ih => simp [ih, Nat.add_assoc]

/-- Only the empty text has no width. -/
theorem byteLength_eq_zero {cs : List Char} : byteLength cs = 0 ↔ cs = [] := by
  cases cs with
  | nil => simp
  | cons c cs => simp [Nat.ne_of_gt c.utf8Size_pos]

theorem length_le_byteLength (cs : List Char) : cs.length ≤ byteLength cs := by
  induction cs with
  | nil => exact Nat.le_refl 0
  | cons c cs ih =>
    rw [List.length_cons, byteLength_cons]
    have := c.utf8Size_pos
    omega

/-- A text has as many bytes as characters exactly if every one of them takes one byte. -/
theorem byteLength_eq_length_iff {cs : List Char} :
    byteLength cs = cs.length ↔ ∀ c ∈ cs, c.utf8Size = 1 := by
  induction cs with
  | nil => simp
  | cons c cs ih =>
    rw [List.forall_mem_cons, ← ih, byteLength_cons, List.length_cons]
    have := c.utf8Size_pos
    have := length_le_byteLength cs
    omega

/-- A text is split in one way at a count of bytes. -/
theorem append_inj_byteLength {as bs cs ds : List Char} (h : as ++ cs = bs ++ ds)
    (hlength : byteLength as = byteLength bs) : as = bs ∧ cs = ds := by
  induction as generalizing bs with
  | nil =>
    obtain rfl : bs = [] := byteLength_eq_zero.1 hlength.symm
    exact ⟨rfl, h⟩
  | cons a as ih =>
    cases bs with
    | nil => exact absurd (byteLength_eq_zero.1 hlength) (List.cons_ne_nil a as)
    | cons b bs =>
      obtain ⟨rfl, htail⟩ := List.cons.inj h
      rw [byteLength_cons, byteLength_cons] at hlength
      obtain ⟨rfl, hrest⟩ := ih htail (Nat.add_left_cancel hlength)
      exact ⟨rfl, hrest⟩

theorem utf8ByteSize_ofList (cs : List Char) :
    (String.ofList cs).utf8ByteSize = byteLength cs := by
  induction cs with
  | nil => rfl
  | cons c cs ih =>
    rw [← List.singleton_append, String.ofList_append, String.utf8ByteSize_append, ih,
      byteLength_append, ← String.singleton_eq_ofList, String.utf8ByteSize_singleton]
    simp

theorem byteLength_toList (text : String) : byteLength text.toList = text.utf8ByteSize := by
  rw [← utf8ByteSize_ofList, String.ofList_toList]

end FrontEnd
