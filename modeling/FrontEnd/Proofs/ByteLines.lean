import FrontEnd.Proofs.LineLookup
import FrontEnd.Proofs.Lines
import Mathlib.Algebra.GroupWithZero.Nat

/-!
# Lines by their bytes

An offset is any count of bytes, and may point inside a character. Still it has a line: the bytes
from behind the last line feed before it through the next one. The byte of a line feed spells
nothing else, so this is a line of the text as well, and the line feeds before the offset tell its
number.

* `LineCut` — the bytes of a source around a place, cut at the ends of its line.
* `Line.Holds` — the line of a place, its number and its column, told by the bytes of the source.

Principal results: `exists_line` (every place is in some line), `LineCut.before_eq` and
`LineCut.after_eq` (in one way), and `Line.find_exact` (the search finds just that line).
-/

namespace FrontEnd

/-- The bytes of a source, cut at a place and at the ends of the line that holds it: `before` and
`after` are the two parts of that line. It begins behind a line feed, or with the source, and has
none before the place; it goes on through the next line feed, or to the end of the source. -/
structure LineCut (source : String) (offset : Nat) (above before after below : List UInt8) :
    Prop where
  split : utf8 source = (above ++ before) ++ (after ++ below)
  length_eq : (above ++ before).length = offset
  begins : above = [] ∨ ∃ lines, above = lines ++ [10]
  unbroken : 10 ∉ before
  ends : (10 ∉ after ∧ below = []) ∨ ∃ body, after = body ++ [10] ∧ 10 ∉ body

/-- The line holds the place `offset` bytes into the source. Its number counts the line feeds before
the place, and its column the bytes of the line before the place. It is the line behind `earlier`
ones; if there is no such line, the place is behind the last line feed, at the end of the source. -/
structure Line.Holds (line : Line) (source : String) (offset : Nat) : Prop where
  number_eq : line.number = 1 + ((utf8 source).take offset).count 10
  exists_cut : ∃ above before after below, LineCut source offset above before after below ∧
    utf8 (String.ofList line.text) = before ++ after ∧ line.column = before.length
  column_le : line.column ≤ byteLength line.text
  exists_lines : ∃ earlier later, Lines source (earlier ++ later) ∧
    earlier.length + 1 = line.number ∧ later.headD "" = String.ofList line.text ∧
    (earlier.map String.utf8ByteSize).sum + line.column = offset

/-! ## Bytes -/

theorem utf8_inj {a b : String} (h : utf8 a = utf8 b) : a = b := by
  rw [← String.toByteArray_inj, ← toByteArray_utf8, h, toByteArray_utf8]

theorem length_utf8 (text : String) : (utf8 text).length = text.utf8ByteSize := by
  have hsize := congrArg ByteArray.size (toByteArray_utf8 text)
  rwa [List.size_toByteArray, String.size_toByteArray] at hsize

/-- The line feeds of a text are those bytes of it. -/
theorem count_utf8 (text : String) : (utf8 text).count 10 = text.toList.count '\n' := by
  rw [utf8]
  induction text.toList with
  | nil => rfl
  | cons c cs ih =>
    rw [List.flatMap_cons, List.count_append, ih]
    by_cases hc : c = '\n'
    · subst hc
      rw [List.count_cons_self, Nat.add_comm]
      rfl
    · rw [List.count_cons_of_ne hc, List.count_eq_zero.2 (feed_not_mem_utf8EncodeChar hc),
        Nat.zero_add]

def isInsideByte (b : UInt8) : Bool := b ≠ 10

theorem isInsideByte_of_not_mem {bytes : List UInt8} (h : 10 ∉ bytes) :
    ∀ b ∈ bytes, isInsideByte b = true := by
  intro b hb
  refine decide_eq_true ?_
  rintro rfl
  exact h hb

namespace LineCut

variable {source : String} {offset : Nat} {above before after below : List UInt8}

theorem take_eq (h : LineCut source offset above before after below) :
    (utf8 source).take offset = above ++ before := by
  rw [h.split, ← h.length_eq, List.take_left]

theorem drop_eq (h : LineCut source offset above before after below) :
    (utf8 source).drop offset = after ++ below := by
  rw [h.split, ← h.length_eq, List.drop_left]

/-- The line before the place is the last run of bytes without a line feed. -/
theorem before_eq (h : LineCut source offset above before after below) :
    before = (((utf8 source).take offset).reverse.takeWhile isInsideByte).reverse := by
  -- Read backwards, the bytes before the place run up to the line feed that ends `above`.
  have hunbroken : ∀ b ∈ before.reverse, isInsideByte b = true := fun b hb =>
    isInsideByte_of_not_mem h.unbroken b (List.mem_reverse.1 hb)
  have habove : ∀ b ∈ above.reverse.head?, isInsideByte b = false := by
    intro b hb
    rcases h.begins with rfl | ⟨lines, rfl⟩
    · cases hb
    · rw [List.reverse_append] at hb
      exact Option.some.inj hb ▸ rfl
  rw [h.take_eq, List.reverse_append, (run_eq hunbroken habove).1, List.reverse_reverse]

/-- The line behind the place is the first run of bytes without a line feed, and the line feed. -/
theorem after_eq (h : LineCut source offset above before after below) :
    after = ((utf8 source).drop offset).takeWhile isInsideByte ++
      (((utf8 source).drop offset).dropWhile isInsideByte).take 1 := by
  rw [h.drop_eq]
  rcases h.ends with ⟨hafter, rfl⟩ | ⟨body, rfl, hbody⟩
  · have hend : ∀ b ∈ ([] : List UInt8).head?, isInsideByte b = false := nofun
    obtain ⟨htake, hdrop⟩ := run_eq (isInsideByte_of_not_mem hafter) hend
    rw [htake, hdrop, List.take_nil, List.append_nil]
  · have hfeed : ∀ b ∈ (10 :: below).head?, isInsideByte b = false := fun _ hb =>
      Option.some.inj hb ▸ rfl
    obtain ⟨htake, hdrop⟩ := run_eq (isInsideByte_of_not_mem hbody) hfeed
    rw [List.append_assoc, List.singleton_append, htake, hdrop]
    rfl

end LineCut

/-- A place is in one line only. -/
theorem Line.Holds.unique {line line' : Line} {source : String} {offset : Nat}
    (h : line.Holds source offset) (h' : line'.Holds source offset) : line = line' := by
  obtain ⟨_, before, after, _, hcut, htext, hcolumn⟩ := h.exists_cut
  obtain ⟨_, before', after', _, hcut', htext', hcolumn'⟩ := h'.exists_cut
  obtain rfl : before = before' := hcut.before_eq.trans hcut'.before_eq.symm
  obtain rfl : after = after' := hcut.after_eq.trans hcut'.after_eq.symm
  have hnumber : line.number = line'.number := h.number_eq.trans h'.number_eq.symm
  have htexts : line.text = line'.text :=
    String.ofList_injective (utf8_inj (htext.trans htext'.symm))
  cases line
  cases line'
  simp_all

/-! ## The line of a place -/

/-- Every place in a text is in some line of it, and at most behind the line's last byte. -/
theorem exists_line {cs : List Char} {offset : Nat} (h : offset ≤ byteLength cs) :
    ∃ above body behind column, cs = above ++ (body ++ behind) ∧ WholeLines above ∧ '\n' ∉ body ∧
      (∀ c ∈ behind.head?, c = '\n') ∧ offset = byteLength above + column ∧
      column ≤ byteLength body := by
  obtain ⟨whole, last, rfl, hwhole, hlast⟩ := exists_wholeLines cs
  -- Over the whole lines, the offset counted anew in what is behind each of them. The places of a
  -- line go up to the one right before its line feed; the one right behind it begins the next line.
  induction hwhole generalizing offset with
  | nil => exact ⟨[], last, [], offset, by simp, .nil, hlast, nofun, by simp, h⟩
  | @cons line rest hline hrest ih =>
    by_cases hle : offset ≤ byteLength line
    · refine ⟨[], line, '\n' :: rest ++ last, offset, by simp, .nil, hline, ?_, by simp, hle⟩
      exact fun _ hc => (Option.some.inj hc).symm
    · have hfeed : '\n'.utf8Size = 1 := rfl
      rw [List.append_assoc, byteLength_append, List.cons_append, byteLength_cons] at h
      have hrest : offset - (byteLength line + 1) ≤ byteLength (rest ++ last) := by omega
      obtain ⟨above, body, behind, column, heq, habove, hbody, hbehind, hoffset, hcolumn⟩ :=
        ih hrest
      refine ⟨line ++ '\n' :: above, body, behind, column, ?_, .cons hline habove, hbody, hbehind,
        ?_, hcolumn⟩
      · rw [List.append_assoc, List.append_assoc, List.cons_append, List.cons_append, heq]
      · rw [byteLength_append, byteLength_cons]
        omega

namespace WholeLines

variable {above : List Char}

theorem eq_nil_or (h : WholeLines above) : above = [] ∨ ∃ front, above = front ++ ['\n'] := by
  induction h with
  | nil => exact .inl rfl
  | @cons line rest _ _ ih =>
    rcases ih with rfl | ⟨front, rfl⟩
    · exact .inr ⟨line, rfl⟩
    · exact .inr ⟨line ++ '\n' :: front, by simp⟩

/-- Whole lines in front of a text are lines of their own. -/
theorem exists_lines (h : WholeLines above) {cs : List Char} {later : List String}
    (hlater : Lines (String.ofList cs) later) :
    ∃ earlier, Lines (String.ofList (above ++ cs)) (earlier ++ later) ∧
      earlier.length = above.count '\n' ∧
      (earlier.map String.utf8ByteSize).sum = byteLength above := by
  induction h with
  | nil => exact ⟨[], hlater, rfl, rfl⟩
  | @cons line rest hline _ ih =>
    obtain ⟨earlier, hlines, hlength, hsum⟩ := ih
    have hline' : '\n' ∉ (String.ofList line).toList := by rwa [String.toList_ofList]
    have hfeed := Lines.feed hline' hlines
    have hchars : String.ofList (line ++ '\n' :: rest ++ cs) =
        String.ofList line ++ "\n" ++ String.ofList (rest ++ cs) := by
      rw [← String.toList_inj]
      simp
    refine ⟨(String.ofList line ++ "\n") :: earlier, hchars ▸ hfeed, ?_, ?_⟩
    · rw [List.length_cons, hlength, List.count_append, List.count_eq_zero.2 hline,
        List.count_cons_self, Nat.zero_add]
    · rw [List.map_cons, List.sum_cons, hsum, String.utf8ByteSize_append, utf8ByteSize_ofList,
        byteLength_append, byteLength_cons, Nat.add_assoc]
      rfl

end WholeLines

/-- The first line of a text; a text that has none is empty. -/
theorem exists_lines_of_line {body behind : List Char} (hbody : '\n' ∉ body)
    (hbehind : ∀ c ∈ behind.head?, c = '\n') :
    ∃ lines, Lines (String.ofList (body ++ behind)) lines ∧
      lines.headD "" = String.ofList (body ++ behind.take 1) := by
  have hbody' : '\n' ∉ (String.ofList body).toList := by rwa [String.toList_ofList]
  cases behind with
  | nil =>
    rw [List.take_nil, List.append_nil]
    cases body with
    | nil => exact ⟨[], .none, rfl⟩
    | cons c cs => exact ⟨_, .last (by simp [← String.toList_inj]) hbody', rfl⟩
  | cons c rest =>
    obtain rfl : c = '\n' := hbehind c rfl
    obtain ⟨lines, hlines⟩ := Lines.exists_lines (String.ofList rest)
    have hfeed := Lines.feed hbody' hlines
    have hchars : String.ofList (body ++ '\n' :: rest) =
        String.ofList body ++ "\n" ++ String.ofList rest := by
      rw [← String.toList_inj]
      simp
    exact ⟨_, hchars ▸ hfeed, by simp⟩

namespace Line

/-- The bytes of a source, cut at a place in a line. -/
theorem lineCut_of_line {source : String} {above body behind : List Char} {column : Nat}
    (hsource : source.toList = above ++ (body ++ behind)) (habove : WholeLines above)
    (hbody : '\n' ∉ body) (hbehind : ∀ c ∈ behind.head?, c = '\n')
    (hcolumn : column ≤ byteLength body) :
    LineCut source (byteLength above + column) (utf8 (String.ofList above))
      ((utf8 (String.ofList body)).take column)
      ((utf8 (String.ofList body)).drop column ++ utf8 (String.ofList (behind.take 1)))
      (utf8 (String.ofList (behind.drop 1))) := by
  have hfeed : 10 ∉ utf8 (String.ofList body) :=
    feed_not_mem_utf8 (by rwa [String.toList_ofList])
  refine { split := ?_, length_eq := ?_, begins := ?_, unbroken := ?_, ends := ?_ }
  · have hchars : source = String.ofList above ++ (String.ofList body ++
        (String.ofList (behind.take 1) ++ String.ofList (behind.drop 1))) := by
      rw [← String.ofList_append, List.take_append_drop, ← String.ofList_append,
        ← String.ofList_append, ← hsource, String.ofList_toList]
    rw [hchars, utf8_append, utf8_append, utf8_append]
    simp only [List.append_assoc]
    rw [← List.append_assoc (List.take _ _), List.take_append_drop]
  · rw [List.length_append, List.length_take, length_utf8, length_utf8, utf8ByteSize_ofList,
      utf8ByteSize_ofList, Nat.min_eq_left hcolumn]
  · rcases habove.eq_nil_or with rfl | ⟨front, rfl⟩
    · exact .inl rfl
    · refine .inr ⟨utf8 (String.ofList front), ?_⟩
      rw [String.ofList_append, utf8_append]
      rfl
  · exact fun hmem => hfeed (List.mem_of_mem_take hmem)
  · have hafter : 10 ∉ (utf8 (String.ofList body)).drop column := fun hmem =>
      hfeed (List.mem_of_mem_drop hmem)
    cases behind with
    | nil =>
      have hempty : utf8 (String.ofList (List.take 1 [])) = [] := rfl
      rw [hempty, List.append_nil]
      exact .inl ⟨hafter, rfl⟩
    | cons c rest =>
      obtain rfl : c = '\n' := hbehind c rfl
      have hfeed' : utf8 (String.ofList (List.take 1 ('\n' :: rest))) = [10] := by
        rw [utf8, String.toList_ofList]
        rfl
      rw [hfeed']
      exact .inr ⟨_, rfl, hafter⟩

/-- The line of a place, by the bytes. -/
theorem holds_of_line {source : String} {above body behind : List Char} {column : Nat}
    (hsource : source.toList = above ++ (body ++ behind)) (habove : WholeLines above)
    (hbody : '\n' ∉ body) (hbehind : ∀ c ∈ behind.head?, c = '\n')
    (hcolumn : column ≤ byteLength body) :
    Holds ⟨1 + above.count '\n', body ++ behind.take 1, column⟩ source
      (byteLength above + column) := by
  have hcut := lineCut_of_line hsource habove hbody hbehind hcolumn
  have hlength : column ≤ (utf8 (String.ofList body)).length := by
    rwa [length_utf8, utf8ByteSize_ofList]
  refine ⟨?_, ⟨_, _, _, _, hcut, ?_, ?_⟩, ?_, ?_⟩
  · rw [hcut.take_eq, List.count_append, List.count_eq_zero.2 hcut.unbroken, count_utf8,
      String.toList_ofList, Nat.add_zero]
  · rw [String.ofList_append, utf8_append, ← List.append_assoc, List.take_append_drop]
  · rw [List.length_take, Nat.min_eq_left hlength]
  · rw [byteLength_append]
    exact Nat.le_trans hcolumn (Nat.le_add_right _ _)
  · obtain ⟨later, hlater, hhead⟩ := exists_lines_of_line hbody hbehind
    obtain ⟨earlier, hlines, hcount, hsum⟩ := habove.exists_lines hlater
    rw [← hsource, String.ofList_toList] at hlines
    exact ⟨earlier, later, hlines, by rw [hcount, Nat.add_comm], hhead, by rw [hsum]⟩

/-- No place behind the end of a text is found. -/
theorem findFrom_eq_none {cs : List Char} {offset : Nat} (h : byteLength cs < offset)
    (number : Nat) : findFrom number cs offset = none := by
  obtain ⟨above, last, rfl, habove, hlast⟩ := exists_wholeLines cs
  rw [byteLength_append] at h
  obtain ⟨column, rfl⟩ := Nat.exists_eq_add_of_lt h
  rw [show byteLength above + byteLength last + column + 1 =
    byteLength above + (byteLength last + column + 1) by omega, findFrom_append habove,
    findFrom_of_last hlast, if_neg (by omega)]

/-- Every place in a source is found, in the line that holds it. -/
theorem find?_holds {source : String} {offset : UInt32}
    (h : offset.toNat ≤ source.utf8ByteSize) :
    ∃ line, find? source offset = some line ∧ line.Holds source offset.toNat := by
  rw [← byteLength_toList] at h
  obtain ⟨above, body, behind, column, hsource, habove, hbody, hbehind, hoffset, hcolumn⟩ :=
    exists_line h
  have hfind := findFrom_of_line habove hbody hbehind hcolumn 1
  rw [← hsource, ← hoffset] at hfind
  refine ⟨_, hfind, ?_⟩
  rw [hoffset]
  exact holds_of_line hsource habove hbody hbehind hcolumn

theorem find?_eq_none_iff {source : String} {offset : UInt32} :
    find? source offset = none ↔ source.utf8ByteSize < offset.toNat := by
  constructor
  · intro hnone
    refine Nat.lt_of_not_le fun hle => ?_
    obtain ⟨line, hfind, -⟩ := find?_holds hle
    rw [hnone] at hfind
    cases hfind
  · intro hlt
    rw [← byteLength_toList] at hlt
    exact findFrom_eq_none hlt 1

/-- Only places in the source are in a line. -/
theorem Holds.offset_le {line : Line} {source : String} {offset : Nat}
    (h : line.Holds source offset) : offset ≤ source.utf8ByteSize := by
  obtain ⟨above, before, after, below, hcut, -⟩ := h.exists_cut
  have hlength : ((above ++ before) ++ (after ++ below)).length =
      (above ++ before).length + (after ++ below).length := List.length_append
  rw [hcut.length_eq, ← hcut.split, length_utf8] at hlength
  omega

theorem find?_eq_some_iff {source : String} {offset : UInt32} {line : Line} :
    find? source offset = some line ↔ line.Holds source offset.toNat := by
  constructor
  · intro hfind
    have hle : offset.toNat ≤ source.utf8ByteSize := by
      refine Nat.le_of_not_lt fun hlt => ?_
      rw [find?_eq_none_iff.2 hlt] at hfind
      cases hfind
    obtain ⟨line', hfind', hholds⟩ := find?_holds hle
    rw [hfind] at hfind'
    obtain rfl := Option.some.inj hfind'
    exact hholds
  · intro hholds
    obtain ⟨line', hfind', hholds'⟩ := find?_holds hholds.offset_le
    rw [hfind', hholds.unique hholds']

/-- **The search for a line is exact.** A place is found unless it is behind the end of the source,
and what is found is the one line that holds it. -/
theorem find_exact (source : String) (offset : UInt32) :
    (find? source offset = none ↔ source.utf8ByteSize < offset.toNat) ∧
      ∀ line, find? source offset = some line ↔ line.Holds source offset.toNat :=
  ⟨find?_eq_none_iff, fun _ => find?_eq_some_iff⟩

example : (List.map (find? "é\n\nab\n") [1, 2, 3, 5, 7, 8]) =
    [some ⟨1, ['é', '\n'], 1⟩, some ⟨1, ['é', '\n'], 2⟩, some ⟨2, ['\n'], 0⟩,
      some ⟨3, ['a', 'b', '\n'], 1⟩, some ⟨4, [], 0⟩, none] := by
  decide +kernel

end Line

end FrontEnd
