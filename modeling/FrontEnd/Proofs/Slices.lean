import FrontEnd.Proofs.LexicalGrammar
import FrontEnd.Proofs.Printing

/-!
# Parts of a source

A part of a source that begins where a token begins and ends where a token ends has the tokens in
between for its own: no lexeme could go on before the next one began, so none can go on where the
part ends. The same holds of a part that runs on to the end of the source.

* `Slice.chars` — the characters of a lexeme and of the blanks before it.
* `Token.Between` — where a token stands in a source, by the texts before and after it.

Principal results: `CutsInto.drop` and `CutsInto.take` (a text cut up, from a lexeme on and up to a
lexeme), `exists_between` (every token stands somewhere), `exists_part` and `exists_part_to_end`.
-/

namespace FrontEnd

def Slice.chars (x : Slice) : List Char := x.gap ++ x.text

def Slice.bare (x : Slice) : Token := ⟨x.kind, String.ofList x.text, .null⟩

theorem map_relocate_tokensAt (file : String) (offset : Nat) (xs : List Slice) :
    (tokensAt file offset xs).map (Token.relocate fun _ => .null) = xs.map Slice.bare := by
  induction xs generalizing offset with
  | nil => rfl
  | cons x xs ih =>
    rw [tokensAt, List.map_cons, List.map_cons, ih]
    rfl

namespace CutsInto

variable {cs : List Char} {x : Slice} {xs ys : List Slice} {trailing : List Char}

/-- What a text that is cut up begins with. -/
theorem uncons (h : CutsInto cs ⟨x :: xs, trailing⟩) :
    ∃ rest, cs = x.gap ++ (x.text ++ rest) ∧ (∀ c ∈ x.gap, isBlank c = true) ∧
      Lexical x.kind x.text ∧ (∀ d ∈ rest.head?, Lexeme.continues x.text d = false) ∧
      CutsInto rest ⟨xs, trailing⟩ := by
  generalize hz : (⟨x :: xs, trailing⟩ : Slicing) = z at h
  cases h with
  | blank => cases hz
  | lexeme hgap hlexical hends h =>
    cases hz
    exact ⟨_, rfl, hgap, hlexical, hends, h⟩

theorem blank_of_nil (h : CutsInto cs ⟨[], trailing⟩) : ∀ c ∈ cs, isBlank c = true := by
  cases h with
  | blank hgap => exact hgap

theorem eq_flatMap (h : CutsInto cs ⟨xs, trailing⟩) : cs = xs.flatMap Slice.chars ++ trailing := by
  induction xs generalizing cs with
  | nil =>
    cases h with
    | blank => rfl
  | cons x xs ih =>
    obtain ⟨rest, rfl, -, -, -, h⟩ := h.uncons
    rw [List.flatMap_cons, List.append_assoc, ← ih h, Slice.chars, List.append_assoc]

/-- A text cut up, from a lexeme on. -/
theorem drop (h : CutsInto cs ⟨xs ++ ys, trailing⟩) :
    CutsInto (ys.flatMap Slice.chars ++ trailing) ⟨ys, trailing⟩ := by
  induction xs generalizing cs with
  | nil =>
    have hys : CutsInto cs ⟨ys, trailing⟩ := h
    rwa [← hys.eq_flatMap]
  | cons x xs ih =>
    obtain ⟨_, -, -, -, -, h⟩ := h.uncons
    exact ih h

/-- A text cut up, up to a lexeme. -/
theorem take (h : CutsInto cs ⟨xs ++ ys, trailing⟩) :
    CutsInto (xs.flatMap Slice.chars) ⟨xs, []⟩ := by
  induction xs generalizing cs with
  | nil => exact .blank (List.forall_mem_nil _)
  | cons x xs ih =>
    obtain ⟨rest, -, hgap, hlexical, hends, h⟩ := h.uncons
    have hrest : rest = (xs ++ ys).flatMap Slice.chars ++ trailing := h.eq_flatMap
    rw [List.flatMap_append, List.append_assoc] at hrest
    rw [List.flatMap_cons, Slice.chars, List.append_assoc]
    refine .lexeme hgap hlexical (fun d hd => hends d ?_) (ih h)
    rw [hrest, List.head?_append, Option.mem_def.1 hd]
    rfl

/-- A text cut up, without the blanks before its first lexeme. -/
theorem dropGap (h : CutsInto cs ⟨x :: xs, trailing⟩) :
    CutsInto (x.text ++ (xs.flatMap Slice.chars ++ trailing))
      ⟨{ x with gap := [] } :: xs, trailing⟩ := by
  obtain ⟨rest, -, -, hlexical, hends, h⟩ := h.uncons
  rw [← h.eq_flatMap, ← List.nil_append (x.text ++ rest)]
  exact .lexeme (List.forall_mem_nil _) hlexical hends h

theorem lexed_eq (h : CutsInto cs ⟨xs, trailing⟩) : lexed cs = xs.map Slice.bare := by
  obtain ⟨x, hx, htokens⟩ := (Lexer.scans_tokens ⟨Lexer.defaultFile, 0, 0, cs⟩).cutsInto
  rw [lexed, ← htokens, map_relocate_tokensAt, h.unique hx]

end CutsInto

/-! ## Places of tokens -/

theorem length_tokensAt (file : String) (offset : Nat) (xs : List Slice) :
    (tokensAt file offset xs).length = xs.length := by
  induction xs generalizing offset with
  | nil => rfl
  | cons x xs ih => rw [tokensAt, List.length_cons, List.length_cons, ih]

theorem tokensAt_append (file : String) (offset : Nat) (xs ys : List Slice) :
    tokensAt file offset (xs ++ ys) =
      tokensAt file offset xs ++
        tokensAt file (offset + byteLength (xs.flatMap Slice.chars)) ys := by
  induction xs generalizing offset with
  | nil => rfl
  | cons x xs ih =>
    rw [List.cons_append, tokensAt, tokensAt, ih, List.cons_append, List.flatMap_cons, Slice.chars,
      byteLength_append, byteLength_append, Nat.add_assoc, Nat.add_assoc, Nat.add_assoc]

/-- The last token ends where the characters do. -/
theorem span_stop_getLast_tokensAt (file : String) (offset : Nat) (x : Slice) (xs : List Slice)
    (h : tokensAt file offset (x :: xs) ≠ []) :
    ((tokensAt file offset (x :: xs)).getLast h).span.stop =
      .ofBytes file (offset + byteLength ((x :: xs).flatMap Slice.chars)) := by
  have hchars : byteLength x.chars = byteLength x.gap + byteLength x.text :=
    byteLength_append x.gap x.text
  induction xs generalizing offset x with
  | nil =>
    rw [List.flatMap_cons, List.flatMap_nil, List.append_nil, hchars, ← Nat.add_assoc]
    rfl
  | cons y ys ih =>
    rw [List.flatMap_cons, byteLength_append, hchars, ← Nat.add_assoc, ← Nat.add_assoc,
      ← ih _ y (by simp [tokensAt]) (byteLength_append y.gap y.text)]
    rfl

/-! ## Parts -/

/-- Where some of the tokens of a source stand, the source is cut up into lexemes around them. -/
theorem exists_slices {source : String} {a m b : List Token} (h : tokensOf source = a ++ (m ++ b)) :
    ∃ xs ys zs trailing, CutsInto source.toList ⟨xs ++ (ys ++ zs), trailing⟩ ∧
      m = tokensAt Lexer.defaultFile (byteLength (xs.flatMap Slice.chars)) ys ∧
      xs.length = a.length ∧ zs.length = b.length := by
  obtain ⟨⟨slices, trailing⟩, hcut, htokens⟩ := tokensOf_cutsInto source
  obtain ⟨xs, ys, zs, rfl, hxs, hys⟩ : ∃ xs ys zs, slices = xs ++ (ys ++ zs) ∧
      xs.length = a.length ∧ ys.length = m.length := by
    have hlength := congrArg List.length (htokens.trans h)
    simp only [length_tokensAt, List.length_append] at hlength
    refine ⟨slices.take a.length, (slices.drop a.length).take m.length,
      (slices.drop a.length).drop m.length, ?_, ?_, ?_⟩
    · rw [List.take_append_drop, List.take_append_drop]
    · rw [List.length_take]
      omega
    · rw [List.length_take, List.length_drop]
      omega
  rw [tokensAt_append, tokensAt_append, Nat.zero_add] at htokens
  obtain ⟨-, hrest⟩ := List.append_inj (htokens.trans h) (by rw [length_tokensAt, hxs])
  obtain ⟨hm, hb⟩ := List.append_inj hrest (by rw [length_tokensAt, hys])
  exact ⟨xs, ys, zs, trailing, hcut, hm.symm, hxs, by rw [← hb, length_tokensAt]⟩

/-- The token stands in the source between the texts `before` and `after`, and does not go on into
the latter. -/
structure Token.Between (t : Token) (source : String) (before after : List Char) : Prop where
  split : source.toList = before ++ (t.text.toList ++ after)
  span_eq : t.span = .ofBytes Lexer.defaultFile
    (byteLength before, byteLength before + byteLength t.text.toList)
  lexical : Lexical t.kind t.text.toList
  ends : ∀ d ∈ after.head?, Lexeme.continues t.text.toList d = false

namespace Token.Between

variable {t : Token} {source : String} {before after : List Char}

theorem byteLength_le (h : t.Between source before after) :
    byteLength before + byteLength t.text.toList ≤ source.utf8ByteSize := by
  rw [← byteLength_toList, h.split, byteLength_append, byteLength_append, ← Nat.add_assoc]
  exact Nat.le_add_right _ _

theorem start_eq (h : t.Between source before after) (hsize : source.utf8ByteSize < UInt32.size) :
    t.start = byteLength before := by
  have hle := h.byteLength_le
  rw [Token.start, h.span_eq]
  exact Position.toNat_offset_ofBytes _ (by dsimp only; omega)

theorem stop_eq (h : t.Between source before after) (hsize : source.utf8ByteSize < UInt32.size) :
    t.stop = byteLength before + byteLength t.text.toList := by
  have hle := h.byteLength_le
  rw [Token.stop, h.span_eq]
  exact Position.toNat_offset_ofBytes _ (by dsimp only; omega)

end Token.Between

/-- Every token stands somewhere in its source. There are but blanks before the first token and
after the last. -/
theorem exists_between {source : String} {t : Token} {a b : List Token}
    (h : tokensOf source = a ++ t :: b) :
    ∃ before after, t.Between source before after ∧
      (a = [] → ∀ c ∈ before, isBlank c = true) ∧ (b = [] → ∀ c ∈ after, isBlank c = true) := by
  obtain ⟨xs, ys, zs, trailing, hcut, hys, hxs, hzs⟩ := exists_slices (m := [t]) h
  obtain ⟨y, rfl⟩ : ∃ y, ys = [y] := by
    apply List.length_eq_one_iff.1
    rw [← length_tokensAt, ← hys]
    rfl
  have hsource := hcut.eq_flatMap
  obtain ⟨rest, hrest, hgap, hlexical, hends, hafter⟩ := hcut.drop.uncons
  rw [List.flatMap_append, List.append_assoc, hrest, ← List.append_assoc] at hsource
  obtain rfl : t = _ := List.head_eq_of_cons_eq hys
  refine ⟨xs.flatMap Slice.chars ++ y.gap, rest, ⟨?_, ?_, ?_, ?_⟩, fun ha => ?_, fun hb => ?_⟩
  · rw [hsource, String.toList_ofList]
  · rw [String.toList_ofList, byteLength_append]
    rfl
  · rw [String.toList_ofList]
    exact hlexical
  · rw [String.toList_ofList]
    exact hends
  · obtain rfl : xs = [] := List.length_eq_zero_iff.1 (by rw [hxs, ha, List.length_nil])
    exact hgap
  · obtain rfl : zs = [] := List.length_eq_zero_iff.1 (by rw [hzs, hb, List.length_nil])
    exact hafter.blank_of_nil

/-- A part of a source that begins where a lexeme does, and is otherwise cut up as the source is. -/
theorem CutsInto.exists_stands {source : String} {before after : List Char} {x : Slice}
    {xs : List Slice} {trailing : List Char}
    (h : CutsInto ((x :: xs).flatMap Slice.chars ++ trailing) ⟨x :: xs, trailing⟩)
    (hsource : source.toList = before ++ (((x :: xs).flatMap Slice.chars ++ trailing) ++ after)) :
    ∃ piece, Stands source (byteLength (before ++ x.gap))
        (byteLength before + byteLength ((x :: xs).flatMap Slice.chars ++ trailing)) piece ∧
      lexed piece.toList = (x :: xs).map Slice.bare := by
  have hchars : (x :: xs).flatMap Slice.chars ++ trailing =
      x.gap ++ (x.text ++ (xs.flatMap Slice.chars ++ trailing)) := by
    rw [List.flatMap_cons, Slice.chars, List.append_assoc, List.append_assoc]
  have hsplit : source.toList = (before ++ x.gap) ++
      ((x.text ++ (xs.flatMap Slice.chars ++ trailing)) ++ after) := by
    rw [hsource, hchars]
    simp only [List.append_assoc]
  have hstop : byteLength (before ++ x.gap) +
      byteLength (x.text ++ (xs.flatMap Slice.chars ++ trailing)) =
      byteLength before + byteLength ((x :: xs).flatMap Slice.chars ++ trailing) := by
    rw [hchars, byteLength_append, byteLength_append x.gap, Nat.add_assoc]
  have hstands := Stands.of_append hsplit
  rw [hstop] at hstands
  refine ⟨_, hstands, ?_⟩
  rw [String.toList_ofList, h.dropGap.lexed_eq]
  rfl

section

variable {source : String} (hsize : source.utf8ByteSize < UInt32.size)

include hsize

/-- Tokens begin behind the blanks before the first of them, and end where their characters do. -/
theorem start_stop_tokensAt {before after : List Char} {x : Slice} {xs : List Slice}
    (hsource : source.toList = before ++ ((x :: xs).flatMap Slice.chars ++ after))
    (h : tokensAt Lexer.defaultFile (byteLength before) (x :: xs) ≠ []) :
    ((tokensAt Lexer.defaultFile (byteLength before) (x :: xs)).head h).start =
        byteLength (before ++ x.gap) ∧
      ((tokensAt Lexer.defaultFile (byteLength before) (x :: xs)).getLast h).stop =
        byteLength before + byteLength ((x :: xs).flatMap Slice.chars) := by
  have hlength := congrArg byteLength hsource
  have hgap : byteLength x.gap ≤ byteLength ((x :: xs).flatMap Slice.chars) := by
    rw [List.flatMap_cons, Slice.chars, List.append_assoc, byteLength_append]
    exact Nat.le_add_right _ _
  rw [byteLength_toList, byteLength_append, byteLength_append] at hlength
  rw [Token.stop, span_stop_getLast_tokensAt, byteLength_append]
  exact ⟨Position.toNat_offset_ofBytes _ (by omega), Position.toNat_offset_ofBytes _ (by omega)⟩

/-- **A part of a source** from the first to the last of some of its tokens has these tokens. -/
theorem exists_part {a m b : List Token} (h : tokensOf source = a ++ (m ++ b)) (hm : m ≠ []) :
    ∃ piece, Stands source (m.head hm).start (m.getLast hm).stop piece ∧
      lexed piece.toList = m.map (Token.relocate fun _ => .null) := by
  obtain ⟨xs, ys, zs, trailing, hcut, rfl, -, -⟩ := exists_slices h
  cases ys with
  | nil => exact absurd rfl hm
  | cons y ys =>
    have hsource := hcut.eq_flatMap
    rw [List.flatMap_append, List.flatMap_append, List.append_assoc, List.append_assoc] at hsource
    obtain ⟨hstart, hstop⟩ := start_stop_tokensAt hsize hsource hm
    have hpart := hcut.drop.take
    rw [← List.append_nil ((y :: ys).flatMap Slice.chars)] at hpart hsource
    obtain ⟨piece, hstands, hlexed⟩ := hpart.exists_stands hsource
    rw [List.append_nil, ← hstart, ← hstop] at hstands
    exact ⟨piece, hstands, hlexed.trans (map_relocate_tokensAt _ _ _).symm⟩

/-- **A part of a source that runs on to its end** has the tokens from its first one on. -/
theorem exists_part_to_end {a m : List Token} (h : tokensOf source = a ++ m) (hm : m ≠ []) :
    ∃ piece, Stands source (m.head hm).start source.utf8ByteSize piece ∧
      lexed piece.toList = m.map (Token.relocate fun _ => .null) := by
  rw [← List.append_nil m] at h
  obtain ⟨xs, ys, zs, trailing, hcut, rfl, -, hzs⟩ := exists_slices h
  obtain rfl := List.length_eq_zero_iff.1 hzs
  rw [List.append_nil] at hcut
  cases ys with
  | nil => exact absurd rfl hm
  | cons y ys =>
    have hsource := hcut.eq_flatMap
    rw [List.flatMap_append, List.append_assoc] at hsource
    obtain ⟨hstart, -⟩ := start_stop_tokensAt hsize hsource hm
    have hend : byteLength (xs.flatMap Slice.chars) +
        byteLength ((y :: ys).flatMap Slice.chars ++ trailing) = source.utf8ByteSize := by
      rw [← byteLength_append, ← hsource, byteLength_toList]
    rw [← List.append_nil ((y :: ys).flatMap Slice.chars ++ trailing)] at hsource
    obtain ⟨piece, hstands, hlexed⟩ := hcut.drop.exists_stands hsource
    rw [hend, ← hstart] at hstands
    exact ⟨piece, hstands, hlexed.trans (map_relocate_tokensAt _ _ _).symm⟩

end

end FrontEnd
