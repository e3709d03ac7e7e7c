import FrontEnd.CommandLine.Run

/-!
# Lines of text and lines of bytes

A run reads lines of bytes and makes a text of each of them. The byte of a line feed spells nothing
but a line feed in UTF-8, so these are the lines of the text that all the bytes spell.

* `Lines` — the lines of a text.
* `utf8` — the bytes that spell a text.

Principal results: `decode_eq_ok_iff` (what bytes spell) and `decode_byteLines` (the lines of bytes
spell the lines of the text).
-/

namespace FrontEnd

/-- The lines of a text, each through its line feed. The last one may lack it, but is not empty. -/
inductive Lines : String → List String → Prop where
  | none : Lines "" []
  | last {line : String} (hne : line ≠ "") (hline : '\n' ∉ line.toList) : Lines line [line]
  | feed {line rest : String} {lines : List String} (hline : '\n' ∉ line.toList)
    (h : Lines rest lines) : Lines (line ++ "\n" ++ rest) ((line ++ "\n") :: lines)

namespace Lines

/-- A character in front of a text makes a line of its own, or the first line longer. -/
theorem exists_cons {text : String} {lines : List String} (h : Lines text lines) (c : Char) :
    ∃ lines', Lines (String.ofList [c] ++ text) lines' := by
  by_cases hc : c = '\n'
  · subst hc
    have hempty : '\n' ∉ "".toList := List.not_mem_nil
    exact ⟨_, .feed hempty h⟩
  · have hmem {line : String} (hline : '\n' ∉ line.toList) :
        '\n' ∉ (String.ofList [c] ++ line).toList := by
      rw [String.toList_append, String.toList_ofList, List.mem_append, List.mem_singleton]
      rintro (rfl | hin)
      · exact hc rfl
      · exact hline hin
    have hne (line : String) : String.ofList [c] ++ line ≠ "" := by
      intro hempty
      have htoList := congrArg String.toList hempty
      rw [String.toList_append, String.toList_ofList] at htoList
      cases htoList
    cases h with
    | none => exact ⟨_, .last (hne "") (hmem List.not_mem_nil)⟩
    | last _ hline => exact ⟨_, .last (hne _) (hmem hline)⟩
    | feed hline h =>
      rw [← String.append_assoc, ← String.append_assoc]
      exact ⟨_, .feed (hmem hline) h⟩

/-- Every text has lines. -/
theorem exists_lines (text : String) : ∃ lines, Lines text lines := by
  rw [← String.ofList_toList (s := text)]
  induction text.toList with
  | nil => exact ⟨[], .none⟩
  | cons c cs ih =>
    obtain ⟨lines, h⟩ := ih
    rw [← List.singleton_append, String.ofList_append]
    exact h.exists_cons c

end Lines

/-! ## Bytes -/

def utf8 (text : String) : List UInt8 := text.toList.flatMap String.utf8EncodeChar

theorem utf8_append (a b : String) : utf8 (a ++ b) = utf8 a ++ utf8 b := by
  rw [utf8, String.toList_append, List.flatMap_append]
  rfl

theorem toByteArray_utf8 (text : String) : (utf8 text).toByteArray = text.toByteArray := by
  rw [← String.utf8Encode_toList]
  rfl

theorem utf8_eq_nil {text : String} : utf8 text = [] ↔ text = "" := by
  constructor
  · intro h
    rw [← String.toByteArray_inj, ← toByteArray_utf8, h]
    rfl
  · rintro rfl
    rfl

/-- The byte of a line feed spells nothing else. -/
theorem feed_not_mem_utf8EncodeChar {c : Char} (h : c ≠ '\n') :
    (10 : UInt8) ∉ String.utf8EncodeChar c := by
  have hbyte {n : Nat} (hn : n % 256 ≠ 10) : (10 : UInt8) ≠ UInt8.ofNat n := by
    intro heq
    have hval := congrArg UInt8.toNat heq
    rw [UInt8.toNat_ofNat'] at hval
    exact hn hval.symm
  have hval : c.val.toNat ≠ 10 := fun hval => h (Char.ext (UInt32.toNat_inj.1 hval))
  unfold String.utf8EncodeChar
  dsimp only
  split
  · rw [List.mem_singleton]
    exact hbyte (by omega)
  -- the bytes of the other characters are 128 and above
  all_goals
    repeat' split
    all_goals simp only [List.mem_cons, List.not_mem_nil, or_false, not_or]
  · exact ⟨hbyte (by omega), hbyte (by omega)⟩
  · exact ⟨hbyte (by omega), hbyte (by omega), hbyte (by omega)⟩
  · exact ⟨hbyte (by omega), hbyte (by omega), hbyte (by omega), hbyte (by omega)⟩

theorem feed_not_mem_utf8 {line : String} (h : '\n' ∉ line.toList) : (10 : UInt8) ∉ utf8 line := by
  rw [utf8, List.mem_flatMap]
  rintro ⟨c, hc, hmem⟩
  refine feed_not_mem_utf8EncodeChar ?_ hmem
  rintro rfl
  exact h hc

namespace CommandLine

/-- Bytes spell a text if they are its bytes. -/
theorem decode_eq_ok_iff {bytes : List UInt8} {text : String} :
    decode bytes = .ok text ↔ bytes = utf8 text := by
  have hbytes : bytes = utf8 text ↔ bytes.toByteArray = text.toByteArray := by
    rw [← toByteArray_utf8]
    refine ⟨congrArg List.toByteArray, fun h => ?_⟩
    rw [← List.toList_data_toByteArray (l := bytes), h, List.toList_data_toByteArray]
  rw [hbytes]
  unfold decode String.fromUTF8?
  by_cases hvalid : bytes.toByteArray.IsValidUTF8
  · simp only [dif_pos hvalid, Except.ok.injEq, ← String.toByteArray_inj]
    rfl
  · simp only [dif_neg hvalid, reduceCtorEq, false_iff]
    intro heq
    exact hvalid (heq ▸ text.isValidUTF8)

/-- A line grows up to its line feed. -/
theorem byteLines_go_append {bytes : List UInt8} (h : (10 : UInt8) ∉ bytes)
    (more line : List UInt8) :
    byteLines.go (bytes ++ more) line = byteLines.go more (bytes.reverse ++ line) := by
  induction bytes generalizing line with
  | nil => rfl
  | cons byte bytes ih =>
    rw [List.mem_cons, not_or] at h
    obtain ⟨hbyte, hbytes⟩ := h
    rw [List.cons_append, byteLines.go, if_neg (Ne.symm hbyte), ih hbytes, List.reverse_cons,
      List.append_assoc]
    rfl

/-- The lines of the bytes that spell a text spell the lines of the text. -/
theorem byteLines_utf8 {text : String} {lines : List String} (h : Lines text lines) :
    byteLines (utf8 text) = lines.map utf8 := by
  induction h with
  | none => rfl
  | @last line hne hline =>
    have hgo := byteLines_go_append (feed_not_mem_utf8 hline) [] []
    rw [List.append_nil, List.append_nil] at hgo
    rw [byteLines, hgo]
    cases hrev : (utf8 line).reverse with
    | nil => exact absurd (utf8_eq_nil.1 (List.reverse_eq_nil_iff.1 hrev)) hne
    | cons byte bytes =>
      rw [byteLines.go, ← hrev, List.reverse_reverse]
      · rfl
      · exact List.cons_ne_nil byte bytes
  | @feed line rest lines hline _ ih =>
    have hfeed : utf8 (line ++ "\n" ++ rest) = utf8 line ++ 10 :: utf8 rest := by
      rw [utf8_append, utf8_append, List.append_assoc]
      rfl
    rw [byteLines, hfeed, byteLines_go_append (feed_not_mem_utf8 hline), byteLines.go, if_pos rfl,
      List.append_nil, List.reverse_cons, List.reverse_reverse, List.map_cons, utf8_append, ← ih]
    rfl

/-- **The lines of an input** are those of the text that it spells. -/
theorem decode_byteLines {bytes : List UInt8} {text : String} (h : decode bytes = .ok text) :
    ∃ lines, Lines text lines ∧ (byteLines bytes).map decode = lines.map .ok := by
  obtain ⟨lines, hlines⟩ := Lines.exists_lines text
  obtain rfl := decode_eq_ok_iff.1 h
  refine ⟨lines, hlines, ?_⟩
  rw [byteLines_utf8 hlines, List.map_map]
  exact List.map_congr_left fun line _ => decode_eq_ok_iff.2 rfl

end CommandLine

end FrontEnd
