import FrontEnd.Proofs.Window

/-!
# A cursor anywhere in a source

A cursor can be moved by any number of bytes, into the middle of a character or past the end, and a
token that the source does not hold moves it as well. Its state still follows from its source and
from the number of bytes before it. At a boundary between characters it reads what a cursor at the
start of the text behind the boundary would read, only further on; past the end it reads the end of
input and stays; inside a character it reads nothing.

* `Lexer.read` — the loop that reads a token, with the cursor that it hands back in any case.
* `Lexer.Reachable` — the cursors that moving and reading lead to.

Principal results: `Lexer.advance_advance` (moves add up), `Lexer.read_of_none` and
`Lexer.read_of_some` (the loop reads what `Lexer.next?` says, and stays where that is nothing),
`Lexer.Reachable.eq_advance` (a cursor is its source and the count of bytes) and `Lexer.scan_shift`
(reading commutes with moving the text).
-/

namespace FrontEnd

/-- A count of bytes is a boundary of a source if the source splits there. -/
theorem isValid_iff_toList {source : String} {n : Nat} :
    String.Pos.Raw.IsValid source ⟨n⟩ ↔
      ∃ before after, source.toList = before ++ after ∧ byteLength before = n := by
  rw [String.Pos.Raw.isValid_iff_exists_append]
  constructor
  · rintro ⟨before, after, rfl, hn⟩
    refine ⟨before.toList, after.toList, String.toList_append, ?_⟩
    rw [byteLength_toList]
    exact (congrArg String.Pos.Raw.byteIdx hn).symm
  · rintro ⟨before, after, hsplit, rfl⟩
    refine ⟨.ofList before, .ofList after, ?_, ?_⟩
    · rw [← String.ofList_append, ← hsplit, String.ofList_toList]
    · rw [← utf8ByteSize_ofList]
      rfl

namespace Lexer

/-! ## Skipping bytes -/

@[simp] theorem skipBytes_zero (cs : List Char) : skipBytes 0 cs = (0, cs) := by
  simp [skipBytes]

@[simp] theorem skipBytes_nil (n : Nat) : skipBytes n [] = (0, []) := by
  cases n <;> rfl

theorem skipBytes_of_lt {n : Nat} {c : Char} (hpos : 0 < n) (h : n < c.utf8Size)
    (cs : List Char) : skipBytes n (c :: cs) = (c.utf8Size - n, cs) := by
  rw [skipBytes, if_pos h]
  exact Nat.ne_of_gt hpos

theorem skipBytes_of_le {n : Nat} {c : Char} (h : c.utf8Size ≤ n) (cs : List Char) :
    skipBytes n (c :: cs) = skipBytes (n - c.utf8Size) cs := by
  rw [skipBytes, if_neg (Nat.not_lt.2 h)]
  exact Nat.ne_of_gt (Nat.lt_of_lt_of_le c.utf8Size_pos h)

/-- Bytes can be skipped in two goes. -/
theorem skipBytes_add (m n : Nat) (cs : List Char) :
    skipBytes (m + n) cs =
      if n < (skipBytes m cs).1 then ((skipBytes m cs).1 - n, (skipBytes m cs).2)
      else skipBytes (n - (skipBytes m cs).1) (skipBytes m cs).2 := by
  induction cs generalizing m with
  | nil => simp
  | cons c cs ih =>
    rcases Nat.eq_zero_or_pos m with rfl | hpos
    · simp
    · rcases Nat.lt_or_ge m c.utf8Size with hlt | hge
      · rw [skipBytes_of_lt hpos hlt]
        rcases Nat.lt_or_ge (m + n) c.utf8Size with hlt' | hge'
        · rw [skipBytes_of_lt (by omega) hlt', if_pos (by omega), Nat.sub_add_eq]
        · rw [skipBytes_of_le hge', if_neg (by omega)]
          congr 1
          omega
      · rw [skipBytes_of_le hge, ← ih, skipBytes_of_le (by omega)]
        congr 1
        omega

/-- Skipping the bytes of whole characters skips these characters. -/
theorem skipBytes_append (before after : List Char) :
    skipBytes (byteLength before) (before ++ after) = (0, after) := by
  induction before with
  | nil => exact skipBytes_zero after
  | cons c before ih =>
    rw [byteLength_cons, List.cons_append, skipBytes_of_le (Nat.le_add_right _ _),
      Nat.add_sub_cancel_left, ih]

theorem skipBytes_of_length_le {n : Nat} {cs : List Char} (h : byteLength cs ≤ n) :
    skipBytes n cs = (0, []) := by
  have hall := skipBytes_append cs []
  rw [List.append_nil] at hall
  rw [← Nat.add_sub_cancel' h, skipBytes_add, hall, if_neg (Nat.not_lt_zero _), skipBytes_nil]

/-- A character is cut in two unless the skip ends at a boundary or goes past the end. -/
theorem skipBytes_fst_eq_zero_iff {n : Nat} {cs : List Char} :
    (skipBytes n cs).1 = 0 ↔
      byteLength cs ≤ n ∨ ∃ before after, cs = before ++ after ∧ byteLength before = n := by
  constructor
  · intro h
    induction cs generalizing n with
    | nil => exact .inl (Nat.zero_le n)
    | cons c cs ih =>
      rcases Nat.eq_zero_or_pos n with rfl | hpos
      · exact .inr ⟨[], c :: cs, rfl, rfl⟩
      · rcases Nat.lt_or_ge n c.utf8Size with hlt | hge
        · rw [skipBytes_of_lt hpos hlt] at h
          exact absurd h (Nat.sub_ne_zero_of_lt hlt)
        · rw [skipBytes_of_le hge] at h
          rw [byteLength_cons]
          rcases ih h with hle | ⟨before, after, rfl, hbefore⟩
          · exact .inl (by omega)
          · exact .inr ⟨c :: before, after, rfl, by rw [byteLength_cons]; omega⟩
  · rintro (hle | ⟨before, after, rfl, rfl⟩)
    · rw [skipBytes_of_length_le hle]
    · rw [skipBytes_append]

/-! ## Moving the cursor -/

theorem advance_of_lt {l : Lexer} {n : Nat} (h : n < l.cut) :
    l.advance n = { l with offset := l.offset + n, cut := l.cut - n } := if_pos h

theorem advance_of_le {l : Lexer} {n : Nat} (h : l.cut ≤ n) :
    l.advance n = ⟨l.file, l.offset + n, (skipBytes (n - l.cut) l.rest).1,
      (skipBytes (n - l.cut) l.rest).2⟩ := if_neg (Nat.not_lt.2 h)

@[simp] theorem advance_zero (l : Lexer) : l.advance 0 = l := by
  obtain ⟨file, offset, cut, rest⟩ := l
  rcases Nat.eq_zero_or_pos cut with rfl | hpos
  · simp only [advance_of_le, Nat.le_refl, Nat.sub_self, skipBytes_zero, Nat.add_zero]
  · rw [advance_of_lt hpos]
    rfl

/-- **Moves add up**, wherever the first of them leads. -/
theorem advance_advance (l : Lexer) (m n : Nat) : (l.advance m).advance n = l.advance (m + n) := by
  rcases Nat.lt_or_ge m l.cut with hlt | hge
  · rw [advance_of_lt hlt]
    rcases Nat.lt_or_ge (m + n) l.cut with hlt' | hge'
    · rw [advance_of_lt hlt', advance_of_lt (Nat.lt_sub_iff_add_lt'.2 hlt')]
      simp only [Nat.add_assoc, Nat.sub_add_eq]
    · rw [advance_of_le hge', advance_of_le (Nat.sub_le_iff_le_add'.2 hge')]
      have hskip : n - (l.cut - m) = m + n - l.cut := by omega
      simp only [Nat.add_assoc, hskip]
  · have hadd := skipBytes_add (m - l.cut) n l.rest
    have hskip : m - l.cut + n = m + n - l.cut := by omega
    rw [hskip] at hadd
    rw [advance_of_le hge, advance_of_le (l := l) (by omega), hadd]
    rcases Nat.lt_or_ge n (skipBytes (m - l.cut) l.rest).1 with hlt' | hge'
    · rw [advance_of_lt hlt', if_pos hlt', Nat.add_assoc]
    · rw [advance_of_le hge', if_neg (Nat.not_lt.2 hge'), Nat.add_assoc]

/-- The cursor at the start of a source, moved. -/
theorem advance_ofFile (file source : String) (n : Nat) :
    (ofFile file source).advance n =
      ⟨file, n, (skipBytes n source.toList).1, (skipBytes n source.toList).2⟩ := by
  rw [advance_of_le (Nat.zero_le n)]
  simp [ofFile]

theorem advance_append {l : Lexer} {before after : List Char} (hcut : l.cut = 0)
    (h : l.rest = before ++ after) :
    l.advance (byteLength before) = ⟨l.file, l.offset + byteLength before, 0, after⟩ := by
  rw [advance_of_le (by omega), hcut, Nat.sub_zero, h, skipBytes_append]

theorem exists_scan_eq_advance {l : Lexer} (hcut : l.cut = 0) : ∃ n, l.scan.2 = l.advance n := by
  obtain ⟨hfile, hcut', -, read, hrest, hoffset⟩ := l.scan_split
  refine ⟨byteLength read, ?_⟩
  rw [advance_append hcut hrest, ← hoffset, ← hfile, ← hcut, ← hcut']

/-! ## Reading further on -/

/-- Reading commutes with moving the text. -/
theorem scan_shift (l : Lexer) (bytes : Nat) :
    ({ l with offset := bytes + l.offset } : Lexer).scan =
      (l.scan.1.relocate (Position.shift bytes),
        { l.scan.2 with offset := bytes + l.scan.2.offset }) := by
  have hskip := l.skipBlanks_shift bytes
  cases h : l.skipBlanks.rest with
  | nil =>
    have hnil : ({ l with offset := bytes + l.offset } : Lexer).skipBlanks.rest = [] := by
      rw [hskip]
      exact h
    rw [scan_of_nil h, scan_of_nil hnil, hskip]
    simp only [position, Token.endOfInput, Token.relocate, Span.relocate, Position.shift_ofBytes]
  | cons c cs =>
    have hcons : ({ l with offset := bytes + l.offset } : Lexer).skipBlanks.rest = c :: cs := by
      rw [hskip]
      exact h
    rw [scan_of_cons h, scan_of_cons hcons, hskip]
    simp only [tokenOf, past, spanOf_shift, Token.relocate, Nat.add_assoc]

theorem stream_shift (l : Lexer) (bytes : Nat) :
    ({ l with offset := bytes + l.offset } : Lexer).stream =
      l.stream.relocate (Position.shift bytes) 0 := by
  rw [stream_eq, tokens_shift, stream_eq, TokenStream.relocate, Position.shift_ofBytes,
    Nat.add_assoc]
  rfl

/-! ## Reading step by step -/

/-- The text that is left at the cursor. Inside a character none can be sliced off. -/
def slice? (l : Lexer) : Option (List Char) := if l.cut = 0 then some l.rest else none

theorem slice?_eq_some_iff {l : Lexer} {text : List Char} :
    l.slice? = some text ↔ l.cut = 0 ∧ l.rest = text := by
  rw [slice?, Option.ite_none_right_eq_some, Option.some_inj]

theorem slice?_eq_none_iff {l : Lexer} : l.slice? = none ↔ l.next? = none := by
  simp [slice?, next?]

/-- Past its blanks, a cursor has less before it. -/
theorem advance_rest_lt {l : Lexer} {c : Char} {cs : List Char} (h : l.slice? = some (c :: cs)) :
    (l.advance (byteLength (c :: cs.takeWhile isBlank))).rest.length < l.rest.length := by
  obtain ⟨hcut, hrest⟩ := slice?_eq_some_iff.1 h
  have hsplit : l.rest = (c :: cs.takeWhile isBlank) ++ cs.dropWhile isBlank := by
    rw [hrest, List.cons_append, List.takeWhile_append_dropWhile]
  rw [advance_append hcut hsplit, hrest, List.length_cons]
  exact Nat.lt_succ_of_le (List.dropWhile_suffix isBlank).length_le

/-- Reads a token, as `scan` does it: blanks are moved over, and then the loop begins again. The
cursor is handed back wherever it is, be it that no text can be sliced off there. -/
def read (l : Lexer) : Option Token × Lexer :=
  match _h : l.slice? with
  | none => (none, l)
  | some [] => (some (.endOfInput l.position), l)
  | some (c :: cs) =>
    if isBlank c then read (l.advance (byteLength (c :: cs.takeWhile isBlank)))
    else
      let lexeme := Lexeme.first c cs
      let (token, l) := l.emit lexeme.kind (String.ofList lexeme.text)
      (some token, l)
termination_by l.rest.length
decreasing_by exact advance_rest_lt _h

/-- Where no token can be read, the cursor is handed back as it was. -/
theorem read_of_none {l : Lexer} (h : l.next? = none) : l.read = (none, l) := by
  have hnone := slice?_eq_none_iff.2 h
  unfold read
  split
  · rfl
  · simp_all
  · simp_all

theorem read_of_nil {l : Lexer} (h : l.slice? = some []) :
    l.read = (some (.endOfInput l.position), l) := by
  unfold read
  split <;> simp_all

theorem read_of_blank {l : Lexer} {c : Char} {cs : List Char} (h : l.slice? = some (c :: cs))
    (hblank : isBlank c = true) :
    l.read = (l.advance (byteLength (c :: cs.takeWhile isBlank))).read := by
  rw [read]
  split <;> simp_all

theorem read_of_lexeme {l : Lexer} {c : Char} {cs : List Char} (h : l.slice? = some (c :: cs))
    (hblank : isBlank c = false) :
    l.read = (some (l.tokenOf (.first c cs)), l.past (.first c cs)) := by
  obtain ⟨hcut, hrest⟩ := slice?_eq_some_iff.1 h
  have hemit : l.emit (Lexeme.first c cs).kind (String.ofList (Lexeme.first c cs).text) =
      (l.tokenOf (.first c cs), l.past (.first c cs)) := by
    have hsplit : l.rest = (Lexeme.first c cs).text ++ (Lexeme.first c cs).rest := by
      rw [hrest, Lexeme.first_text_append]
    simp only [emit, tokenOf, past, utf8ByteSize_ofList, advance_append hcut hsplit, hcut]
  unfold read
  split <;> simp_all

/-- The loop may as well begin past the blanks. -/
theorem read_skipBlanks {l : Lexer} (hcut : l.cut = 0) : l.read = l.skipBlanks.read := by
  have hstays : l.rest.takeWhile isBlank = [] → l.skipBlanks = l := by
    intro hnil
    have hrest := List.takeWhile_append_dropWhile (p := isBlank) (l := l.rest)
    rw [hnil, List.nil_append] at hrest
    rw [skipBlanks, hnil, hrest]
    rfl
  cases hrest : l.rest with
  | nil => rw [hstays (by rw [hrest]; rfl)]
  | cons c cs =>
    cases hblank : isBlank c with
    | false => rw [hstays (by rw [hrest, List.takeWhile_cons_of_neg (by simp [hblank])])]
    | true =>
      have htake : l.rest.takeWhile isBlank = c :: cs.takeWhile isBlank := by
        rw [hrest, List.takeWhile_cons_of_pos hblank]
      have hmove := advance_append hcut (List.takeWhile_append_dropWhile (p := isBlank)).symm
      rw [read_of_blank (slice?_eq_some_iff.2 ⟨hcut, hrest⟩) hblank, ← htake, hmove, skipBlanks,
        hcut]

/-- **Step by step, the loop reads what the cursor reads at once.** -/
theorem read_of_some {l m : Lexer} {t : Token} (h : l.next? = some (t, m)) :
    l.read = (some t, m) := by
  obtain ⟨hcut, hscan⟩ := Option.ite_none_right_eq_some.1 h
  have hcut' : l.skipBlanks.cut = 0 := hcut
  rw [read_skipBlanks hcut]
  cases hrest : l.skipBlanks.rest with
  | nil =>
    rw [scan_of_nil hrest] at hscan
    cases hscan
    exact read_of_nil (slice?_eq_some_iff.2 ⟨hcut', hrest⟩)
  | cons c cs =>
    rw [scan_of_cons hrest] at hscan
    cases hscan
    exact read_of_lexeme (slice?_eq_some_iff.2 ⟨hcut', hrest⟩) (isBlank_of_skipBlanks hrest)

/-! ## The cursors of a source -/

/-- The cursors that are reached from the start of the source called `file`, by any moves, by tokens
made up in any way, and by reading, where that can be done or not. -/
inductive Reachable (file source : String) : Lexer → Prop where
  | start : Reachable file source (ofFile file source)
  | advance {l : Lexer} (n : Nat) (h : Reachable file source l) :
      Reachable file source (l.advance n)
  | emit {l : Lexer} (kind : TokenKind) (text : String) (h : Reachable file source l) :
      Reachable file source (l.emit kind text).2
  | read {l : Lexer} (h : Reachable file source l) : Reachable file source l.read.2

theorem exists_read_eq_advance (l : Lexer) : ∃ n, l.read.2 = l.advance n := by
  cases h : l.next? with
  | none => exact ⟨0, by rw [read_of_none h, advance_zero]⟩
  | some pair =>
    obtain ⟨hcut, hscan⟩ := Option.ite_none_right_eq_some.1 h
    obtain ⟨n, hn⟩ := exists_scan_eq_advance hcut
    exact ⟨n, by rw [read_of_some h, ← hn, Option.some.inj hscan]⟩

namespace Reachable

variable {file source : String} {l : Lexer}

/-- **A cursor is its source and the count of bytes before it**, however it came there. -/
theorem eq_advance (h : l.Reachable file source) : l = (ofFile file source).advance l.offset := by
  suffices hmoved : ∃ n, l = (ofFile file source).advance n by
    obtain ⟨n, rfl⟩ := hmoved
    rw [advance_ofFile, advance_ofFile]
  induction h with
  | start => exact ⟨0, (advance_zero _).symm⟩
  | advance n _ ih | emit kind text _ ih =>
    obtain ⟨m, rfl⟩ := ih
    exact ⟨_, advance_advance _ m _⟩
  | @read l _ ih =>
    obtain ⟨m, rfl⟩ := ih
    obtain ⟨n, hn⟩ := exists_read_eq_advance ((ofFile file source).advance m)
    exact ⟨m + n, by rw [hn, advance_advance]⟩

theorem eq_of_append {before after : String} (h : l.Reachable file (before ++ after))
    (hoffset : l.offset = before.utf8ByteSize) :
    l = ⟨file, before.utf8ByteSize, 0, after.toList⟩ := by
  rw [h.eq_advance, advance_ofFile, hoffset, ← byteLength_toList, String.toList_append,
    skipBytes_append]

theorem eq_of_size_le (h : l.Reachable file source) (hsize : source.utf8ByteSize ≤ l.offset) :
    l = ⟨file, l.offset, 0, []⟩ := by
  rw [← byteLength_toList] at hsize
  have heq := h.eq_advance
  rwa [advance_ofFile, skipBytes_of_length_le hsize] at heq

/-- The cursor stands inside a character unless it is at a boundary or past the end. -/
theorem cut_eq_zero_iff (h : l.Reachable file source) :
    l.cut = 0 ↔ source.utf8ByteSize ≤ l.offset ∨ String.Pos.Raw.IsValid source ⟨l.offset⟩ := by
  have hcut : l.cut = (skipBytes l.offset source.toList).1 := by
    rw [h.eq_advance, advance_ofFile]
  rw [hcut, skipBytes_fst_eq_zero_iff, byteLength_toList, isValid_iff_toList]

end Reachable

end Lexer

end FrontEnd
