import FrontEnd.Proofs.Slices

/-!
# The seam of two sources

Two sources put together have the tokens of the one and then those of the other, unless the last
token of the first reaches up to the seam and takes in the character behind it. A blank on either
side of the seam keeps the two apart, so that a source can be read line by line.

* `TokenKind.takesIn` — whether a token of a kind takes in a character that follows it.
* `SplitsAtSeam` — two sources that have, put together, the tokens of the one and then those of the
  other.
* `Merges` — two sources of which a token runs over the seam.

Principal results: `Lexical.continues_iff` (what a token takes in is told by its kind),
`splitsAtSeam_of_blank_left` and `splitsAtSeam_of_blank_right` (blanks at the seam), and
`splitsAtSeam_iff`.
-/

namespace FrontEnd

/-! ## What tokens take in -/

namespace TokenKind

def isWord : TokenKind → Bool
  | identifier | functionWord | letWord | trueWord | falseWord | returnWord | ifWord | elseWord =>
    true
  | _ => false

theorem isWord_ofWord (w : String) : (ofWord w).isWord = true := by
  simp only [ofWord]
  split <;> rfl

/-- Whether a token of the kind takes in the character `d` that follows it: a word takes in letters
and underscores, an integer takes in digits, and `=` and `!` take in an equals sign. -/
def takesIn (kind : TokenKind) (d : Char) : Prop :=
  kind.isWord = true ∧ isWordChar d = true ∨ kind = .integer ∧ d.isDigit = true ∨
    (kind = .assign ∨ kind = .bang) ∧ d = '='

end TokenKind

/-- A lexeme goes on into what a token of its kind takes in. -/
theorem Lexical.continues_iff {kind : TokenKind} {text : List Char} (h : Lexical kind text)
    (d : Char) : Lexeme.continues text d = true ↔ kind.takesIn d := by
  cases h with
  | word hne hw =>
    obtain ⟨c, w, rfl⟩ := List.exists_cons_of_ne_nil hne
    have hword := TokenKind.isWord_ofWord (String.ofList (c :: w))
    rw [Lexeme.continues_word (hw c List.mem_cons_self)]
    generalize TokenKind.ofWord (String.ofList (c :: w)) = kind at hword
    cases kind <;> simp_all [TokenKind.takesIn, TokenKind.isWord]
  | integer hne hw =>
    obtain ⟨c, w, rfl⟩ := List.exists_cons_of_ne_nil hne
    rw [Lexeme.continues_digit (hw c List.mem_cons_self)]
    simp [TokenKind.takesIn, TokenKind.isWord]
  | symbol h =>
    simp only [symbols, List.mem_cons, Prod.mk.injEq, List.not_mem_nil, or_false] at h
    rcases h with ⟨rfl, rfl⟩ | ⟨rfl, rfl⟩ | ⟨rfl, rfl⟩ | ⟨rfl, rfl⟩ | ⟨rfl, rfl⟩ | ⟨rfl, rfl⟩ |
      ⟨rfl, rfl⟩ | ⟨rfl, rfl⟩ | ⟨rfl, rfl⟩ | ⟨rfl, rfl⟩ | ⟨rfl, rfl⟩ | ⟨rfl, rfl⟩ | ⟨rfl, rfl⟩ |
      ⟨rfl, rfl⟩ | ⟨rfl, rfl⟩ | ⟨rfl, rfl⟩ <;>
    simp [TokenKind.takesIn, TokenKind.isWord, Lexeme.continues, Lexeme.pairs, isWordChar]
  | @illegal c hblank hword hdigit hsymbol =>
    have hpairs : Lexeme.pairs c = false := by
      refine Bool.eq_false_iff.2 fun hc => ?_
      rcases Lexeme.eq_of_pairs hc with rfl | rfl
      · exact hsymbol (.assign, ['=']) (by decide) rfl
      · exact hsymbol (.bang, ['!']) (by decide) rfl
    simp [TokenKind.takesIn, TokenKind.isWord, Lexeme.continues, hpairs, hword, hdigit]

/-- No token takes in a blank. -/
theorem Lexeme.continues_blank {d : Char} (h : isBlank d = true) (text : List Char) :
    continues text d = false := by
  simp only [isBlank, Bool.or_eq_true, decide_eq_true_eq] at h
  cases text with
  | nil => rfl
  | cons c cs => rcases h with ((rfl | rfl) | rfl) | rfl <;> simp [continues, isWordChar]

/-! ## Blanks at the seam -/

/-- The tokens of the sources put together are those of the first and then those of the second,
further on. -/
def SplitsAtSeam (a b : String) : Prop :=
  tokensOf (a ++ b) =
    tokensOf a ++ (tokensOf b).map (Token.relocate (Position.shift a.utf8ByteSize))

theorem tokensOf_eq_nil_iff {source : String} :
    tokensOf source = [] ↔ ∀ c ∈ source.toList, isBlank c = true := by
  obtain ⟨⟨slices, trailing⟩, hcut, htokens⟩ := tokensOf_cutsInto source
  rw [← htokens]
  constructor
  · intro hnil
    obtain rfl : slices = [] := List.length_eq_zero_iff.1 (by rw [← length_tokensAt, hnil]; rfl)
    exact hcut.blank_of_nil
  · intro hblank
    rw [← hcut.unique (.blank hblank)]
    rfl

/-- A blank after the seam keeps the tokens apart. -/
theorem splitsAtSeam_of_blank_right {b : String} {d : Char} (hd : b.toList.head? = some d)
    (hblank : isBlank d = true) (a : String) : SplitsAtSeam a b := by
  apply tokensOf_append_of_seam
  intro t e _ he
  obtain rfl : d = e := Option.mem_unique hd he
  exact Lexeme.continues_blank hblank t.text.toList

/-- A blank before the seam keeps the tokens apart. -/
theorem splitsAtSeam_of_blank_left {a : String} {c : Char} (hc : a.toList.getLast? = some c)
    (hblank : isBlank c = true) (b : String) : SplitsAtSeam a b := by
  obtain ⟨cs, hcs⟩ := List.getLast?_eq_some_iff.1 hc
  obtain rfl : a = String.ofList cs ++ String.ofList [c] := by
    rw [← String.ofList_append, ← hcs, String.ofList_toList]
  -- the blank goes to the second source, which it stands in front of, and adds no token there
  have hnil : tokensOf (String.ofList [c]) = [] := by
    rw [tokensOf_eq_nil_iff, String.toList_ofList]
    exact List.forall_mem_singleton.2 hblank
  have hlone : SplitsAtSeam (String.ofList cs) (String.ofList [c]) :=
    splitsAtSeam_of_blank_right (by rw [String.toList_ofList]; rfl) hblank _
  have hmore : SplitsAtSeam (String.ofList cs) (String.ofList [c] ++ b) :=
    splitsAtSeam_of_blank_right
      (by rw [String.toList_append, String.toList_ofList]; rfl) hblank _
  have hbehind := tokensOf_append_of_nil hnil b
  rw [SplitsAtSeam, hnil, List.map_nil, List.append_nil] at hlone
  rw [SplitsAtSeam, String.append_assoc, hmore, hbehind, hlone, List.map_map]
  have hmoved : Position.shift (String.ofList cs).utf8ByteSize ∘
      Position.shift (String.ofList [c]).utf8ByteSize =
        Position.shift (String.ofList cs ++ String.ofList [c]).utf8ByteSize := by
    rw [Position.shift_comp, String.utf8ByteSize_append]
  rw [← hmoved]
  rfl

/-! ## Tokens at the seam -/

/-- A source that does not end with a blank ends with its last token. -/
theorem stop_getLast {source : String} (hsize : source.utf8ByteSize < UInt32.size) {t : Token}
    (ht : (tokensOf source).getLast? = some t)
    (hlast : ∀ c ∈ source.toList.getLast?, isBlank c = false) : t.stop = source.utf8ByteSize := by
  obtain ⟨ts, hts⟩ := List.getLast?_eq_some_iff.1 ht
  obtain ⟨before, after, hbetween, -, hafter⟩ := exists_between hts
  obtain rfl : after = [] := by
    refine List.getLast?_eq_none_iff.1 (Option.eq_none_iff_forall_ne_some.2 fun c hc => ?_)
    have hend : source.toList.getLast? = some c := by
      rw [hbetween.split, ← List.append_assoc, List.getLast?_append, hc]
      rfl
    have hblank := hafter rfl c (List.mem_of_getLast? hc)
    rw [hlast c hend] at hblank
    cases hblank
  rw [hbetween.stop_eq hsize, ← byteLength_append, ← byteLength_toList, hbetween.split,
    List.append_nil]

/-- A source that does not begin with a blank begins with its first token. -/
theorem start_head {source : String} (hsize : source.utf8ByteSize < UInt32.size) {u : Token}
    (hu : (tokensOf source).head? = some u)
    (hfirst : ∀ d ∈ source.toList.head?, isBlank d = false) : u.start = 0 := by
  obtain ⟨us, hus⟩ := List.head?_eq_some_iff.1 hu
  obtain ⟨before, after, hbetween, hbefore, -⟩ := exists_between (a := []) hus
  rw [hbetween.start_eq hsize]
  cases before with
  | nil => rfl
  | cons d ds =>
    have hblank := hbefore rfl d List.mem_cons_self
    rw [hfirst d (by rw [hbetween.split]; rfl)] at hblank
    cases hblank

/-- No token of a source takes in the character after it. -/
theorem not_takesIn {source : String} (hsize : source.utf8ByteSize < UInt32.size) {t : Token}
    (ht : t ∈ tokensOf source) {before after : List Char} (hsource : source.toList = before ++ after)
    (hstop : t.stop = byteLength before) : ∀ d ∈ after.head?, ¬ t.kind.takesIn d := by
  obtain ⟨ts, us, hts⟩ := List.append_of_mem ht
  obtain ⟨before', after', hbetween, -⟩ := exists_between hts
  have hsplit := hbetween.split.symm.trans hsource
  rw [hbetween.stop_eq hsize, ← byteLength_append] at hstop
  rw [← List.append_assoc] at hsplit
  obtain ⟨-, rfl⟩ := append_inj_byteLength hsplit hstop
  intro d hd htakes
  have hends := hbetween.ends d hd
  rw [(hbetween.lexical.continues_iff d).2 htakes] at hends
  cases hends

/-! ## The law of the seam -/

/-- The last token of `a` reaches up to its end, the first token of `b` begins where `b` does, and
the former takes in the character that the latter begins with. -/
def Merges (a b : String) : Prop :=
  ∃ t ∈ (tokensOf a).getLast?, ∃ u ∈ (tokensOf b).head?, ∃ d ∈ b.toList.head?,
    t.stop = a.utf8ByteSize ∧ u.start = 0 ∧ t.kind.takesIn d

section

variable {a b : String} (hsize : (a ++ b).utf8ByteSize < UInt32.size)

include hsize

theorem not_merges_of_splitsAtSeam (h : SplitsAtSeam a b) : ¬ Merges a b := by
  rintro ⟨t, ht, -, -, d, hd, hstop, -, htakes⟩
  have hmem : t ∈ tokensOf (a ++ b) := by
    rw [h]
    exact List.mem_append_left _ (List.mem_of_getLast? ht)
  rw [← byteLength_toList] at hstop
  exact not_takesIn hsize hmem String.toList_append hstop d hd htakes

theorem splitsAtSeam_of_not_merges (h : ¬ Merges a b) : SplitsAtSeam a b := by
  have hsizes := hsize
  rw [String.utf8ByteSize_append] at hsizes
  by_cases hleft : ∃ c ∈ a.toList.getLast?, isBlank c = true
  · obtain ⟨c, hc, hblank⟩ := hleft
    exact splitsAtSeam_of_blank_left hc hblank b
  by_cases hright : ∃ d ∈ b.toList.head?, isBlank d = true
  · obtain ⟨d, hd, hblank⟩ := hright
    exact splitsAtSeam_of_blank_right hd hblank a
  -- without blanks at the seam, tokens touch there, and only what they take in can merge them
  refine tokensOf_append_of_seam fun t d ht hd => Bool.eq_false_iff.2 fun hcontinues => h ?_
  simp only [not_exists, not_and, Bool.not_eq_true] at hleft hright
  cases hu : (tokensOf b).head? with
  | none =>
    have hblank := tokensOf_eq_nil_iff.1 (List.head?_eq_none_iff.1 hu) d (List.mem_of_mem_head? hd)
    rw [hright d hd] at hblank
    cases hblank
  | some u =>
    obtain ⟨ts, hts⟩ := List.getLast?_eq_some_iff.1 ht
    obtain ⟨before, after, hbetween, -⟩ := exists_between hts
    exact ⟨t, ht, u, hu, d, hd, stop_getLast (by omega) ht hleft, start_head (by omega) hu hright,
      (hbetween.lexical.continues_iff d).1 hcontinues⟩

end

/-- **The law of the seam.** Let two sources have less than four gibibytes together. Put together
they have the tokens of the one and then those of the other, further on, if and only if it is not so
that the last token of the one touches the first token of the other and takes in the character that
this one begins with. A blank on either side of the seam is enough for it. -/
theorem splitsAtSeam_iff {a b : String} (hsize : (a ++ b).utf8ByteSize < UInt32.size) :
    (SplitsAtSeam a b ↔ ¬ Merges a b) ∧
      ((∃ c ∈ a.toList.getLast?, isBlank c = true) ∨ (∃ d ∈ b.toList.head?, isBlank d = true) →
        SplitsAtSeam a b) := by
  refine ⟨⟨not_merges_of_splitsAtSeam hsize, splitsAtSeam_of_not_merges hsize⟩, ?_⟩
  rintro (⟨c, hc, hblank⟩ | ⟨d, hd, hblank⟩)
  · exact splitsAtSeam_of_blank_left hc hblank b
  · exact splitsAtSeam_of_blank_right hd hblank a

/-- An equals sign at the seam is taken in by an equals sign, but not by two of them. -/
theorem splitsAtSeam_iff_equals_signs :
    ("x ===" ++ "= y").utf8ByteSize < UInt32.size ∧ ¬ SplitsAtSeam "x ===" "= y" ∧
      ("x ==" ++ "= y").utf8ByteSize < UInt32.size ∧ SplitsAtSeam "x ==" "= y" := by
  have hodd : ("x ===" ++ "= y").utf8ByteSize < UInt32.size := by decide +kernel
  have heven : ("x ==" ++ "= y").utf8ByteSize < UInt32.size := by decide +kernel
  refine ⟨hodd, fun hsplits => (splitsAtSeam_iff hodd).1.1 hsplits ?_, heven,
    (splitsAtSeam_iff heven).1.2 ?_⟩
  · exact ⟨⟨.assign, "=", .ofBytes "shell" (4, 5)⟩, by decide +kernel,
      ⟨.assign, "=", .ofBytes "shell" (0, 1)⟩, by decide +kernel, '=', rfl, rfl, rfl,
      .inr (.inr ⟨.inl rfl, rfl⟩)⟩
  · rintro ⟨t, ht, -, -, d, -, -, -, htakes⟩
    have hlast : (tokensOf "x ==").getLast? =
        some ⟨.equal, "==", .ofBytes "shell" (2, 4)⟩ := by decide +kernel
    obtain rfl := Option.mem_unique ht hlast
    simp [TokenKind.takesIn, TokenKind.isWord] at htakes

end FrontEnd
