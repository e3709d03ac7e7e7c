import FrontEnd.Proofs.Relocation

/-!
# The tokens of a text

The tokens that a cursor has yet to read, as a list. The cursor reads blanks and lexemes in turn
until only blanks are left, and `Lexer.Scans` follows it: statements about the tokens of a text are
proved by induction on it.

* `Lexer.tokens` — the tokens before the end of input.
* `Lexeme.continues` — whether a lexeme would take in a character that follows it.
* `Position.shift` — a position that many bytes on; `Span.ofBytes` — a span by counts of bytes.

Principal results: `Lexer.stream_eq` (what the parser gets of a lexer), `Lexer.tokens_append` (the
tokens of two texts joined at a seam where no lexeme goes on), `Lexer.tokens_shift` (a text further
on has the same tokens further on) and `Lexer.Scans.places` (tokens do not overlap).
-/

namespace FrontEnd

/-! ## Lexemes and what follows them -/

/-- A run of characters is cut off at a character that does not belong to it. -/
theorem run_append (p : Char → Bool) (cs ds : List Char)
    (h : cs.dropWhile p ≠ [] ∨ ∀ d, ds.head? = some d → p d = false) :
    (cs ++ ds).takeWhile p = cs.takeWhile p ∧ (cs ++ ds).dropWhile p = cs.dropWhile p ++ ds := by
  induction cs with
  | nil =>
    cases ds with
    | nil => simp
    | cons d ds =>
      have hd : p d = false := by
        rcases h with h | h
        · exact absurd rfl h
        · exact h d rfl
      simp [hd]
  | cons c cs ih =>
    cases hc : p c with
    | false => simp [hc]
    | true =>
      rw [List.dropWhile_cons_of_pos hc] at h
      obtain ⟨htake, hdrop⟩ := ih h
      simp [hc, htake, hdrop]

/-- A run of characters ends where the next one does not belong to it. -/
theorem run_eq {α : Type} {p : α → Bool} {w ds : List α} (hw : ∀ c ∈ w, p c = true)
    (hds : ∀ d ∈ ds.head?, p d = false) :
    (w ++ ds).takeWhile p = w ∧ (w ++ ds).dropWhile p = ds := by
  rw [List.takeWhile_append_of_pos hw, List.dropWhile_append_of_pos hw]
  cases ds with
  | nil => simp
  | cons d ds =>
    have hd : p d = false := hds d rfl
    simp [hd]

/-- The first character behind a run does not belong to it. -/
theorem eq_false_of_head?_dropWhile {p : Char → Bool} {cs : List Char} {c : Char}
    (h : c ∈ (cs.dropWhile p).head?) : p c = false := by
  have hhead := List.head?_dropWhile_not p cs
  rwa [Option.mem_def.1 h] at hhead

theorem not_isBlank_of_isWordChar {c : Char} (h : isWordChar c = true) : isBlank c = false := by
  cases hb : isBlank c with
  | false => rfl
  | true =>
    simp only [isBlank, Bool.or_eq_true, decide_eq_true_eq] at hb
    rcases hb with ((rfl | rfl) | rfl) | rfl <;> cases h

theorem not_isBlank_of_isDigit {c : Char} (h : c.isDigit = true) : isBlank c = false := by
  cases hb : isBlank c with
  | false => rfl
  | true =>
    simp only [isBlank, Bool.or_eq_true, decide_eq_true_eq] at hb
    rcases hb with ((rfl | rfl) | rfl) | rfl <;> cases h

namespace Lexeme

/-- Whether an equals sign after `c` makes a longer operator. -/
def pairs (c : Char) : Bool := c = '=' || c = '!'

/-- Whether a lexeme of the given text takes in the character after it as well. -/
def continues (text : List Char) (c : Char) : Bool :=
  match text with
  | [] => false
  | d :: ds =>
    (isWordChar d && isWordChar c) || (d.isDigit && c.isDigit) || (pairs d && ds.isEmpty && c = '=')

theorem not_isDigit_of_isWordChar {c : Char} (h : isWordChar c = true) : c.isDigit = false := by
  cases hd : c.isDigit with
  | false => rfl
  | true =>
    obtain ⟨_, hle⟩ := Char.isDigit_iff_toNat.1 hd
    have hchoice : ((c.isUpper || c.isLower) || decide (c = '_')) = true := h
    simp only [Bool.or_eq_true] at hchoice
    rcases hchoice with (hupper | hlower) | hscore
    · have hge := UInt32.le_iff_toNat_le.1 (of_decide_eq_true hupper).1
      exact absurd (Nat.le_trans hge hle) (by decide)
    · have hge := UInt32.le_iff_toNat_le.1 (of_decide_eq_true (Bool.and_eq_true_iff.1 hlower).1)
      exact absurd (Nat.le_trans hge hle) (by decide)
    · rw [of_decide_eq_true hscore] at hd
      cases hd

theorem first_word {c : Char} (h : isWordChar c = true) (cs : List Char) :
    first c cs = ⟨.ofWord (String.ofList (c :: cs.takeWhile isWordChar)),
      c :: cs.takeWhile isWordChar, cs.dropWhile isWordChar⟩ := by
  simp only [first, h, if_true]

theorem first_digit {c : Char} (h : c.isDigit = true) (cs : List Char) :
    first c cs = ⟨.integer, c :: cs.takeWhile Char.isDigit, cs.dropWhile Char.isDigit⟩ := by
  have hword : isWordChar c = false := by
    cases hw : isWordChar c with
    | false => rfl
    | true => rw [not_isDigit_of_isWordChar hw] at h; cases h
  simp [first, h, hword]

theorem eq_of_pairs {c : Char} (h : pairs c = true) : c = '=' ∨ c = '!' := by
  simpa [pairs] using h

theorem continues_word {c : Char} (h : isWordChar c = true) (cs : List Char) (d : Char) :
    continues (c :: cs) d = isWordChar d := by
  have hp : pairs c = false := by
    cases hp : pairs c with
    | false => rfl
    | true => rcases eq_of_pairs hp with rfl | rfl <;> cases h
  simp [continues, h, hp, not_isDigit_of_isWordChar h]

theorem continues_digit {c : Char} (h : c.isDigit = true) (cs : List Char) (d : Char) :
    continues (c :: cs) d = d.isDigit := by
  have hp : pairs c = false := by
    cases hp : pairs c with
    | false => rfl
    | true => rcases eq_of_pairs hp with rfl | rfl <;> cases h
  have hword : isWordChar c = false := by
    cases hw : isWordChar c with
    | false => rfl
    | true => rw [not_isDigit_of_isWordChar hw] at h; cases h
  simp [continues, h, hp, hword]

theorem first_pair {c : Char} (h : pairs c = true) (cs : List Char) :
    first c ('=' :: cs) = ⟨if c = '=' then .equal else .notEqual, [c, '='], cs⟩ := by
  rcases eq_of_pairs h with rfl | rfl <;> rfl

theorem first_symbol {c : Char} (hword : isWordChar c = false) (hdigit : c.isDigit = false)
    {cs : List Char} (h : pairs c = true → cs.head? ≠ some '=') :
    first c cs = ⟨.ofSymbol c, [c], cs⟩ := by
  unfold first
  simp only [hword, hdigit, Bool.false_eq_true, if_false]
  split
  · exact absurd rfl (h rfl)
  · exact absurd rfl (h rfl)
  · rfl

/-- A lexeme of a text stays the same in a longer text, if it ends before the text does or does not
go on with what is added. -/
theorem first_append {c : Char} {cs ds : List Char}
    (h : (first c cs).rest ≠ [] ∨
      ∀ d, ds.head? = some d → continues (first c cs).text d = false) :
    first c (cs ++ ds) =
      ⟨(first c cs).kind, (first c cs).text, (first c cs).rest ++ ds⟩ := by
  cases hword : isWordChar c with
  | true =>
    rw [first_word hword, first_word hword]
    rw [first_word hword] at h
    have hrun := run_append isWordChar cs ds (h.imp_right fun h d hd => by
      simpa only [continues_word hword] using h d hd)
    rw [hrun.1, hrun.2]
  | false =>
    cases hdigit : c.isDigit with
    | true =>
      rw [first_digit hdigit, first_digit hdigit]
      rw [first_digit hdigit] at h
      have hrun := run_append Char.isDigit cs ds (h.imp_right fun h d hd => by
        simpa only [continues_digit hdigit] using h d hd)
      rw [hrun.1, hrun.2]
    | false =>
      by_cases hpair : pairs c = true ∧ cs.head? = some '='
      · obtain ⟨hp, hhead⟩ := hpair
        cases cs with
        | nil => cases hhead
        | cons d cs =>
          obtain rfl : d = '=' := by simpa using hhead
          rw [List.cons_append, first_pair hp, first_pair hp]
      · have hsym : first c cs = ⟨.ofSymbol c, [c], cs⟩ :=
          first_symbol hword hdigit fun hp hhead => hpair ⟨hp, hhead⟩
        rw [hsym] at h ⊢
        refine first_symbol hword hdigit fun hp hhead => ?_
        cases cs with
        | cons d cs => exact hpair ⟨hp, hhead⟩
        | nil =>
          have hc := h.resolve_left (fun hne => hne rfl) '=' hhead
          simp [continues, hp] at hc

theorem first_kind_ne_eof (c : Char) (cs : List Char) : (first c cs).kind ≠ .eof := by
  unfold first
  split
  · simp only [TokenKind.ofWord]
    split <;> simp
  · split
    · simp
    · split
      · simp
      · simp
      · simp only [TokenKind.ofSymbol]
        split <;> simp

theorem eq_semicolon_of_ofSymbol {c : Char} (h : TokenKind.ofSymbol c = .semicolon) : c = ';' := by
  unfold TokenKind.ofSymbol at h
  split at h <;> first | rfl | cases h

/-- Whatever comes after a semicolon begins a new lexeme. -/
theorem continues_of_semicolon {c : Char} {cs : List Char}
    (h : (first c cs).kind = .semicolon) (d : Char) : continues (first c cs).text d = false := by
  unfold first at h ⊢
  split at h
  · simp only [TokenKind.ofWord] at h
    split at h <;> cases h
  · split at h
    · cases h
    · split at h
      · cases h
      · cases h
      · obtain rfl := eq_semicolon_of_ofSymbol h
        simp [continues, isWordChar, pairs]

end Lexeme

/-! ## The run of a cursor -/

namespace Lexer

def tokens (l : Lexer) : List Token := (l.collect #[]).1.toList

/-- The token of a lexeme that the cursor stands at. -/
def tokenOf (l : Lexer) (x : Lexeme) : Token :=
  ⟨x.kind, String.ofList x.text, l.spanOf (byteLength x.text)⟩

def past (l : Lexer) (x : Lexeme) : Lexer :=
  { l with offset := l.offset + byteLength x.text, rest := x.rest }

theorem scan_of_nil {l : Lexer} (h : l.skipBlanks.rest = []) :
    l.scan = (.endOfInput l.skipBlanks.position, l.skipBlanks) := by
  simp only [scan, h]

theorem scan_of_cons {l : Lexer} {c : Char} {cs : List Char} (h : l.skipBlanks.rest = c :: cs) :
    l.scan = (l.skipBlanks.tokenOf (.first c cs), l.skipBlanks.past (.first c cs)) := by
  simp only [scan, h, tokenOf, past]

theorem byteLength_skipBlanks (l : Lexer) :
    l.skipBlanks.offset + byteLength l.skipBlanks.rest = l.offset + byteLength l.rest := by
  rw [skipBlanks, Nat.add_assoc, ← byteLength_append, List.takeWhile_append_dropWhile]

theorem byteLength_past {l : Lexer} {c : Char} {cs : List Char} (h : l.rest = c :: cs) :
    (l.past (.first c cs)).offset + byteLength (l.past (.first c cs)).rest =
      l.offset + byteLength l.rest := by
  rw [h, past, Nat.add_assoc, ← byteLength_append, Lexeme.first_text_append]

/-- The tokens that a cursor reads one after another. -/
inductive Scans : Lexer → List Token → Prop where
  | done {l : Lexer} (h : l.skipBlanks.rest = []) : Scans l []
  | token {l : Lexer} {c : Char} {cs : List Char} {ts : List Token}
    (h : l.skipBlanks.rest = c :: cs) (hs : Scans (l.skipBlanks.past (.first c cs)) ts) :
    Scans l (l.skipBlanks.tokenOf (.first c cs) :: ts)

theorem collect_of_nil {l : Lexer} (h : l.skipBlanks.rest = []) (read : Array Token) :
    l.collect read = (read, l.skipBlanks) := by
  rw [collect, scan_of_nil h]
  exact dif_pos rfl

theorem collect_of_cons {l : Lexer} {c : Char} {cs : List Char}
    (h : l.skipBlanks.rest = c :: cs) (read : Array Token) :
    l.collect read =
      (l.skipBlanks.past (.first c cs)).collect
        (read.push (l.skipBlanks.tokenOf (.first c cs))) := by
  rw [collect, scan_of_cons h]
  exact dif_neg (Lexeme.first_kind_ne_eof c cs)

theorem collect_scans (l : Lexer) (read : Array Token) :
    ∃ ts m, Scans l ts ∧ l.collect read = (read ++ ts.toArray, m) ∧ m.file = l.file ∧
      m.offset = l.offset + byteLength l.rest := by
  induction hn : l.rest.length using Nat.strongRecOn generalizing l read with
  | ind n ih =>
    cases h : l.skipBlanks.rest with
    | nil =>
      have hend := l.byteLength_skipBlanks
      rw [h, byteLength_nil, Nat.add_zero] at hend
      refine ⟨[], l.skipBlanks, .done h, ?_, rfl, hend⟩
      rw [collect_of_nil h]
      simp
    | cons c cs =>
      have hle : l.skipBlanks.rest.length ≤ l.rest.length :=
        (List.dropWhile_suffix isBlank).length_le
      have hrest := Lexeme.first_rest_length_le c cs
      rw [h, List.length_cons] at hle
      obtain ⟨ts, m, hs, hcollect, hfile, hoffset⟩ :=
        ih (Lexeme.first c cs).rest.length (by omega) (l.skipBlanks.past (.first c cs))
          (read.push (l.skipBlanks.tokenOf (.first c cs))) rfl
      refine ⟨_, m, .token h hs, ?_, hfile, ?_⟩
      · rw [collect_of_cons h, hcollect]
        simp
      · rw [hoffset, byteLength_past h, byteLength_skipBlanks]

theorem Scans.unique {l : Lexer} {ts us : List Token} (h : Scans l ts) (h' : Scans l us) :
    ts = us := by
  induction h generalizing us with
  | done h =>
    cases h' with
    | done _ => rfl
    | token hcons _ =>
      rw [h] at hcons
      cases hcons
  | token h _ ih =>
    cases h' with
    | done hnil =>
      rw [h] at hnil
      cases hnil
    | token hcons hs =>
      rw [h] at hcons
      cases hcons
      rw [ih hs]

theorem scans_tokens (l : Lexer) : Scans l l.tokens := by
  obtain ⟨ts, m, hs, hcollect, _⟩ := l.collect_scans #[]
  rw [tokens, hcollect]
  simpa using hs

theorem Scans.tokens_eq {l : Lexer} {ts : List Token} (h : Scans l ts) : l.tokens = ts :=
  l.scans_tokens.unique h

theorem stream_eq (l : Lexer) :
    l.stream = ⟨l.tokens, .ofBytes l.file (l.offset + byteLength l.rest), 0⟩ := by
  obtain ⟨ts, m, hs, hcollect, hfile, hoffset⟩ := l.collect_scans #[]
  simp only [stream, tokens, hcollect, position, hfile, hoffset]

theorem Scans.kind_ne_eof {l : Lexer} {ts : List Token} (h : Scans l ts) {t : Token}
    (ht : t ∈ ts) : t.kind ≠ .eof := by
  induction h with
  | done => cases ht
  | token h _ ih =>
    rcases List.mem_cons.1 ht with rfl | ht
    · exact Lexeme.first_kind_ne_eof _ _
    · exact ih ht

theorem isBlank_of_skipBlanks {l : Lexer} {c : Char} {cs : List Char}
    (h : l.skipBlanks.rest = c :: cs) : isBlank c = false := by
  have hhead : c ∈ l.skipBlanks.rest.head? := by
    rw [h]
    rfl
  exact eq_false_of_head?_dropWhile hhead

/-- Every token is the first lexeme of some text. -/
theorem Scans.lexeme {l : Lexer} {ts : List Token} (h : Scans l ts) {t : Token} (ht : t ∈ ts) :
    ∃ c cs, isBlank c = false ∧ t.kind = (Lexeme.first c cs).kind ∧
      t.text = String.ofList (Lexeme.first c cs).text := by
  induction h with
  | done => cases ht
  | @token l c cs ts h _ ih =>
    rcases List.mem_cons.1 ht with rfl | ht
    · exact ⟨c, cs, isBlank_of_skipBlanks h, rfl, rfl⟩
    · exact ih ht

/-! ## Joining texts -/

theorem skipBlanks_append {l : Lexer} {c : Char} {cs : List Char} (ds : List Char)
    (h : l.skipBlanks.rest = c :: cs) :
    ({ l with rest := l.rest ++ ds } : Lexer).skipBlanks =
      { l.skipBlanks with rest := c :: cs ++ ds } := by
  have hrun := run_append isBlank l.rest ds
    (.inl (by
      show l.skipBlanks.rest ≠ []
      rw [h]
      exact List.cons_ne_nil _ _))
  have hdrop : l.rest.dropWhile isBlank = c :: cs := h
  simp only [skipBlanks, hrun.1, hrun.2, hdrop]

theorem skipBlanks_append_of_nil {l : Lexer} {ds : List Char} (h : l.skipBlanks.rest = []) :
    ({ l with rest := l.rest ++ ds } : Lexer).skipBlanks =
      ({ l with offset := l.offset + byteLength l.rest, rest := ds } : Lexer).skipBlanks := by
  have hall : ∀ c ∈ l.rest, isBlank c = true := by
    have hdrop : l.rest.dropWhile isBlank = [] := h
    have htake := List.takeWhile_append_dropWhile (p := isBlank) (l := l.rest)
    rw [hdrop, List.append_nil] at htake
    rw [← htake]
    exact List.all_eq_true.1 List.all_takeWhile
  simp only [skipBlanks, List.takeWhile_append_of_pos hall, List.dropWhile_append_of_pos hall,
    byteLength_append, Nat.add_assoc]

theorem Scans.of_skipBlanks_eq {l m : Lexer} {ts : List Token} (h : Scans l ts)
    (heq : m.skipBlanks = l.skipBlanks) : Scans m ts := by
  cases h with
  | done h => exact .done (by rw [heq, h])
  | token h hs =>
    rw [← heq] at h hs ⊢
    exact .token h hs

theorem Scans.rest_ne_nil {l : Lexer} {t : Token} {ts : List Token} (h : Scans l (t :: ts)) :
    l.rest ≠ [] := by
  cases h with
  | token h _ =>
    intro hnil
    rw [skipBlanks, hnil] at h
    cases h

/-- Where the last lexeme of a text does not go on into the next text, the tokens of the joined
texts are those of the first and then those of the second. -/
theorem Scans.append {l : Lexer} {ts us : List Token} {ds : List Char} (h : Scans l ts)
    (hseam : ∀ t d, ts.getLast? = some t → ds.head? = some d →
      Lexeme.continues t.text.toList d = false)
    (hus : Scans { l with offset := l.offset + byteLength l.rest, rest := ds } us) :
    Scans { l with rest := l.rest ++ ds } (ts ++ us) := by
  induction h with
  | done h => exact hus.of_skipBlanks_eq (skipBlanks_append_of_nil h)
  | @token l c cs ts h hs ih =>
    have hskip := skipBlanks_append ds h
    have hfirst : Lexeme.first c (cs ++ ds) = ⟨(Lexeme.first c cs).kind, (Lexeme.first c cs).text,
        (Lexeme.first c cs).rest ++ ds⟩ := by
      apply Lexeme.first_append
      cases ts with
      | nil =>
        right
        intro d hd
        have hlast := hseam (l.skipBlanks.tokenOf (.first c cs)) d rfl hd
        rwa [tokenOf, String.toList_ofList] at hlast
      | cons t ts => exact .inl hs.rest_ne_nil
    have hend : (l.skipBlanks.past (.first c cs)).offset +
        byteLength (l.skipBlanks.past (.first c cs)).rest = l.offset + byteLength l.rest := by
      rw [byteLength_past h, byteLength_skipBlanks]
    have hrest := ih
      (fun t d ht hd => by
        refine hseam t d ?_ hd
        cases ts with
        | nil => cases ht
        | cons u us => rwa [List.getLast?_cons_cons])
      (by rw [hend]; exact hus)
    have hhead : ({ l with rest := l.rest ++ ds } : Lexer).skipBlanks.rest = c :: (cs ++ ds) := by
      rw [hskip]
      rfl
    have htoken := Scans.token hhead (by rw [hskip, hfirst]; exact hrest)
    rw [hskip, hfirst] at htoken
    exact htoken

/-- The tokens of two texts joined at a seam where no lexeme goes on. -/
theorem tokens_append (l : Lexer) (ds : List Char)
    (hseam : ∀ t d, l.tokens.getLast? = some t → ds.head? = some d →
      Lexeme.continues t.text.toList d = false) :
    ({ l with rest := l.rest ++ ds } : Lexer).tokens =
      l.tokens ++
        ({ l with offset := l.offset + byteLength l.rest, rest := ds } : Lexer).tokens :=
  (l.scans_tokens.append hseam (scans_tokens _)).tokens_eq

end Lexer

/-! ## Texts further on -/

def Position.shift (bytes : Nat) (p : Position) : Position := ⟨p.offset + bytes.toUInt32, p.file⟩

theorem Position.shift_ofBytes (bytes n : Nat) (file : String) :
    (Position.ofBytes file n).shift bytes = .ofBytes file (bytes + n) := by
  simp only [shift, ofBytes, Nat.toUInt32_eq, UInt32.ofNat_add, UInt32.add_comm]

theorem Position.shift_comp (m n : Nat) : shift m ∘ shift n = shift (m + n) := by
  funext p
  simp only [Function.comp_apply, shift, Nat.toUInt32_eq, UInt32.ofNat_add]
  rw [UInt32.add_assoc, UInt32.add_comm (UInt32.ofNat n)]

/-- Offsets below four gibibytes are kept whole. -/
theorem Position.toNat_offset_ofBytes (file : String) {n : Nat} (h : n < UInt32.size) :
    (Position.ofBytes file n).offset.toNat = n := by
  show (n.toUInt32).toNat = n
  rw [Nat.toUInt32_eq]
  exact UInt32.toNat_ofNat_of_lt' h

def Span.ofBytes (file : String) (bytes : Nat × Nat) : Span :=
  ⟨.ofBytes file bytes.1, .ofBytes file bytes.2⟩

namespace Lexer

theorem spanOf_shift (l : Lexer) (bytes width : Nat) :
    ({ l with offset := bytes + l.offset } : Lexer).spanOf width =
      (l.spanOf width).relocate (Position.shift bytes) := by
  simp only [spanOf, Span.relocate, Position.shift_ofBytes, Nat.add_assoc]

theorem skipBlanks_shift (l : Lexer) (bytes : Nat) :
    ({ l with offset := bytes + l.offset } : Lexer).skipBlanks =
      { l.skipBlanks with offset := bytes + l.skipBlanks.offset } := by
  simp only [skipBlanks, Nat.add_assoc]

theorem Scans.shift {l : Lexer} {ts : List Token} (h : Scans l ts) (bytes : Nat) :
    Scans { l with offset := bytes + l.offset }
      (ts.map (Token.relocate (Position.shift bytes))) := by
  induction h with
  | @done l h =>
    exact .done (by rw [skipBlanks_shift]; exact h)
  | @token l c cs ts h hs ih =>
    have hhead : ({ l with offset := bytes + l.offset } : Lexer).skipBlanks.rest = c :: cs := by
      rw [skipBlanks_shift]
      exact h
    have htoken := Scans.token hhead
      (by rw [skipBlanks_shift]; simpa only [past, Nat.add_assoc] using ih)
    rw [skipBlanks_shift] at htoken
    simpa only [tokenOf, spanOf_shift, List.map_cons, Token.relocate] using htoken

/-- A text that stands further on has the same tokens, further on. -/
theorem tokens_shift (l : Lexer) (bytes : Nat) :
    ({ l with offset := bytes + l.offset } : Lexer).tokens =
      l.tokens.map (Token.relocate (Position.shift bytes)) :=
  (l.scans_tokens.shift bytes).tokens_eq

/-! ## Tokens in order -/

/-- Counted in bytes without a limit, tokens have a width, lie in the source and do not overlap. -/
theorem Scans.places {l : Lexer} {ts : List Token} (h : Scans l ts) :
    ∃ ps : List (Nat × Nat), ts.map Token.span = ps.map (Span.ofBytes l.file) ∧
      (∀ p ∈ ps, l.offset ≤ p.1 ∧ p.1 < p.2 ∧ p.2 ≤ l.offset + byteLength l.rest) ∧
      ps.Pairwise fun p q => p.2 ≤ q.1 := by
  induction h with
  | done => exact ⟨[], rfl, fun p hp => (nomatch hp), .nil⟩
  | @token l c cs ts h hs ih =>
    obtain ⟨ps, hspans, hbounds, hpairs⟩ := ih
    have hskip := l.byteLength_skipBlanks
    have hpast := byteLength_past h
    have hwidth : 0 < byteLength (Lexeme.first c cs).text := by
      refine Nat.pos_of_ne_zero fun hzero => ?_
      exact Lexeme.first_text_ne_nil c cs (byteLength_eq_zero.1 hzero)
    have hoffset : (l.skipBlanks.past (.first c cs)).offset =
        l.skipBlanks.offset + byteLength (Lexeme.first c cs).text := rfl
    have hle : l.offset ≤ l.skipBlanks.offset := Nat.le_add_right _ _
    refine ⟨(l.skipBlanks.offset, l.skipBlanks.offset + byteLength (Lexeme.first c cs).text) :: ps,
      ?_, List.forall_mem_cons.2 ⟨by dsimp only; omega, fun p hp => ?_⟩,
      List.pairwise_cons.2 ⟨fun p hp => ?_, hpairs⟩⟩
    · rw [List.map_cons, List.map_cons, hspans]
      rfl
    · have := hbounds p hp
      omega
    · have := hbounds p hp
      dsimp only
      omega

/-- In a source of less than four gibibytes offsets are those counts of bytes. -/
theorem Scans.placed {l : Lexer} {ts : List Token} (h : Scans l ts)
    (hsize : l.offset + byteLength l.rest < UInt32.size) :
    (∀ t ∈ ts, t.span.start.offset.toNat < t.span.stop.offset.toNat ∧
        t.span.stop.offset.toNat ≤ l.offset + byteLength l.rest) ∧
      ts.Pairwise fun t u => t.span.stop.offset.toNat ≤ u.span.start.offset.toNat := by
  obtain ⟨ps, hspans, hbounds, hpairs⟩ := h.places
  have hoffsets : ∀ p ∈ ps, (Span.ofBytes l.file p).start.offset.toNat = p.1 ∧
      (Span.ofBytes l.file p).stop.offset.toNat = p.2 := by
    intro p hp
    have := hbounds p hp
    exact ⟨Position.toNat_offset_ofBytes _ (by omega), Position.toNat_offset_ofBytes _ (by omega)⟩
  constructor
  · intro t ht
    have hmem := List.mem_map_of_mem (f := Token.span) ht
    rw [hspans] at hmem
    obtain ⟨p, hp, hspan⟩ := List.mem_map.1 hmem
    rw [← hspan, (hoffsets p hp).1, (hoffsets p hp).2]
    exact (hbounds p hp).2
  · suffices hmap : (ts.map Token.span).Pairwise fun x y =>
        x.stop.offset.toNat ≤ y.start.offset.toNat from List.pairwise_map.1 hmap
    rw [hspans, List.pairwise_map]
    refine hpairs.imp_of_mem fun hp hq h => ?_
    rwa [(hoffsets _ hp).2, (hoffsets _ hq).1]

/-- Tokens start one after another, in a source of less than four gibibytes. -/
theorem tokens_ordered (l : Lexer) (hsize : l.offset + byteLength l.rest < UInt32.size) :
    l.tokens.Pairwise fun t u => t.span.start.offset.toNat < u.span.start.offset.toNat := by
  obtain ⟨hbounds, hpairs⟩ := l.scans_tokens.placed hsize
  refine hpairs.imp_of_mem fun ht _ h => ?_
  have := hbounds _ ht
  omega

end Lexer

/-! ## The tokens of a source -/

theorem stream_ofFile (file source : String) :
    (Lexer.ofFile file source).stream =
      ⟨(Lexer.ofFile file source).tokens, .ofBytes file source.utf8ByteSize, 0⟩ := by
  rw [Lexer.stream_eq, Lexer.ofFile, Nat.zero_add, byteLength_toList]

theorem stream_kind_ne_eof (file source : String) :
    ∀ t ∈ (Lexer.ofFile file source).stream.pending, t.kind ≠ .eof := by
  rw [stream_ofFile]
  exact fun t ht => (Lexer.scans_tokens _).kind_ne_eof ht

theorem parseFile_span (file source : String) :
    (parseFile file source).1.span = ⟨.ofBytes file 0, .ofBytes file source.utf8ByteSize⟩ := by
  have hspan :=
    Parser.parseProgram_span (p := Parser.ofFile file source) (stream_kind_ne_eof file source)
  rw [Parser.ofFile, Parser.ofLexer, stream_ofFile] at hspan
  rw [parseFile, Parser.ofFile, Parser.ofLexer, stream_ofFile]
  exact hspan

/-! ## Sources without a name -/

def tokensOf (source : String) : List Token := (Lexer.ofSource source).tokens

def streamOf (source : String) : TokenStream := (Lexer.ofSource source).stream

theorem streamOf_eq (source : String) :
    streamOf source =
      ⟨tokensOf source, .ofBytes Lexer.defaultFile source.utf8ByteSize, 0⟩ :=
  stream_ofFile Lexer.defaultFile source

/-- What is cut from a source: its tokens, and the end of input. -/
theorem tokenize_eq (source : String) :
    tokenize source =
      tokensOf source ++ [.endOfInput (.ofBytes Lexer.defaultFile source.utf8ByteSize)] := by
  obtain ⟨ts, m, _, hcollect, hfile, hoffset⟩ := (Lexer.ofSource source).collect_scans #[]
  simp only [tokenize, tokensOf, Lexer.tokens, hcollect, Lexer.position, hfile, hoffset]
  rw [Lexer.ofSource, Lexer.ofFile, Nat.zero_add, byteLength_toList]

/-- Where no lexeme goes on over the seam, the tokens of two sources joined are those of the first
and then those of the second, further on. -/
theorem tokensOf_append_of_seam {a b : String}
    (hseam : ∀ t d, (tokensOf a).getLast? = some t → b.toList.head? = some d →
      Lexeme.continues t.text.toList d = false) :
    tokensOf (a ++ b) =
      tokensOf a ++ (tokensOf b).map (Token.relocate (Position.shift a.utf8ByteSize)) := by
  have hjoin := (Lexer.ofSource a).tokens_append b.toList hseam
  have hmove := (Lexer.ofSource b).tokens_shift a.utf8ByteSize
  simp only [Lexer.ofSource, Lexer.ofFile, Nat.zero_add, Nat.add_zero, byteLength_toList]
    at hjoin hmove
  rw [hmove, ← String.toList_append] at hjoin
  exact hjoin

/-- A source that has no tokens only moves those of what follows it. -/
theorem tokensOf_append_of_nil {a : String} (h : tokensOf a = []) (b : String) :
    tokensOf (a ++ b) = (tokensOf b).map (Token.relocate (Position.shift a.utf8ByteSize)) := by
  rw [tokensOf_append_of_seam, h, List.nil_append]
  intro t d ht
  rw [h] at ht
  cases ht

theorem parse_statements (source : String) :
    (parse source).1.statements =
      statementsOf ((streamOf source).rounds .default maxNesting) :=
  parseFile_statements Lexer.defaultFile source

theorem parse_diagnostics (source : String) :
    (parse source).2 = diagnosticsOf ((streamOf source).rounds .default maxNesting) :=
  parseFile_diagnostics Lexer.defaultFile source

end FrontEnd
