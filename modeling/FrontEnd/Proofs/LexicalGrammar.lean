import FrontEnd.Proofs.Tokenization

/-!
# The lexical grammar

A text is blanks and lexemes in turn, and no lexeme would take in the character after it. A text can
be cut up in one way only, whatever characters it holds, and that is how the lexer cuts it: every
token stands in the source where its span says, and only blanks stand between them.

* `symbols`, `Lexical` — what a lexeme of each kind may be.
* `CutsInto` — the grammar: a text cut up into lexemes, with the blanks before and after them.
* `Stands` — what stands in a source between two places.
* `Lexer.Pulls` — tokens read one at a time, each of which can be read.

Principal results: `Lexical.first` and `Lexeme.first_lexical` (the longest lexeme of a text is the
one that the grammar admits), `tokenize_unique_slicing` (the tokens of a source are those of the one
way to cut it up) and `tokenize_lossless` (tokens and the blanks between them are the source, byte
for byte).
-/

namespace FrontEnd

/-! ## Lexemes -/

/-- The operators and delimiters. -/
def symbols : List (TokenKind × List Char) :=
  [(.equal, ['=', '=']), (.notEqual, ['!', '=']), (.assign, ['=']), (.bang, ['!']), (.plus, ['+']),
    (.minus, ['-']), (.star, ['*']), (.slash, ['/']), (.less, ['<']), (.greater, ['>']),
    (.comma, [',']), (.semicolon, [';']), (.openParen, ['(']), (.closeParen, [')']),
    (.openBrace, ['\x7b']), (.closeBrace, ['\x7d'])]

/-- What a lexeme of each kind may be. A character that belongs to no other lexeme and is no blank
is an illegal one of its own. -/
inductive Lexical : TokenKind → List Char → Prop where
  | word {w : List Char} (hne : w ≠ []) (hw : ∀ c ∈ w, isWordChar c = true) :
    Lexical (.ofWord (String.ofList w)) w
  | integer {w : List Char} (hne : w ≠ []) (hw : ∀ c ∈ w, c.isDigit = true) : Lexical .integer w
  | symbol {kind : TokenKind} {text : List Char} (h : (kind, text) ∈ symbols) : Lexical kind text
  | illegal {c : Char} (hblank : isBlank c = false) (hword : isWordChar c = false)
    (hdigit : c.isDigit = false) (hsymbol : ∀ symbol ∈ symbols, symbol.2 ≠ [c]) :
    Lexical .illegal [c]

/-- A character that is no operator or delimiter of its own is illegal. -/
theorem ofSymbol_cases (c : Char) :
    (TokenKind.ofSymbol c, [c]) ∈ symbols ∨
      TokenKind.ofSymbol c = .illegal ∧ ∀ symbol ∈ symbols, symbol.2 ≠ [c] := by
  unfold TokenKind.ofSymbol
  split
  case h_15 =>
    right
    refine ⟨rfl, ?_⟩
    simp_all [symbols, eq_comm]
  all_goals
    left
    decide

theorem Lexical.ne_nil {kind : TokenKind} {text : List Char} (h : Lexical kind text) :
    text ≠ [] := by
  cases h with
  | word hne _ => exact hne
  | integer hne _ => exact hne
  | symbol h =>
    rintro rfl
    revert h
    cases kind <;> decide
  | illegal => exact List.cons_ne_nil _ _

/-- **A lexeme that does not go on is the longest one at its place.** -/
theorem Lexical.first {kind : TokenKind} {text rest : List Char} (h : Lexical kind text)
    (hends : ∀ d ∈ rest.head?, Lexeme.continues text d = false) :
    ∃ c cs, text ++ rest = c :: cs ∧ isBlank c = false ∧
      Lexeme.first c cs = ⟨kind, text, rest⟩ := by
  cases h with
  | word hne hw =>
    obtain ⟨c, w, rfl⟩ := List.exists_cons_of_ne_nil hne
    have hc := hw c List.mem_cons_self
    have hrun := run_eq (fun d hd => hw d (List.mem_cons_of_mem c hd)) fun d hd => by
      rw [← Lexeme.continues_word hc w d]
      exact hends d hd
    refine ⟨c, w ++ rest, rfl, not_isBlank_of_isWordChar hc, ?_⟩
    rw [Lexeme.first_word hc, hrun.1, hrun.2]
  | integer hne hw =>
    obtain ⟨c, w, rfl⟩ := List.exists_cons_of_ne_nil hne
    have hc := hw c List.mem_cons_self
    have hrun := run_eq (fun d hd => hw d (List.mem_cons_of_mem c hd)) fun d hd => by
      rw [← Lexeme.continues_digit hc w d]
      exact hends d hd
    refine ⟨c, w ++ rest, rfl, not_isBlank_of_isDigit hc, ?_⟩
    rw [Lexeme.first_digit hc, hrun.1, hrun.2]
  | symbol h =>
    have hpair : ∀ c, text = [c] → Lexeme.pairs c = true → rest.head? ≠ some '=' := by
      rintro c rfl hc hhead
      have hgoes := hends '=' hhead
      simp [Lexeme.continues, hc] at hgoes
    simp only [symbols, List.mem_cons, Prod.mk.injEq, List.not_mem_nil, or_false] at h
    rcases h with ⟨rfl, rfl⟩ | ⟨rfl, rfl⟩ | h
    · exact ⟨'=', '=' :: rest, rfl, rfl, rfl⟩
    · exact ⟨'!', '=' :: rest, rfl, rfl, rfl⟩
    · rcases h with ⟨rfl, rfl⟩ | ⟨rfl, rfl⟩ | ⟨rfl, rfl⟩ | ⟨rfl, rfl⟩ | ⟨rfl, rfl⟩ | ⟨rfl, rfl⟩ |
        ⟨rfl, rfl⟩ | ⟨rfl, rfl⟩ | ⟨rfl, rfl⟩ | ⟨rfl, rfl⟩ | ⟨rfl, rfl⟩ | ⟨rfl, rfl⟩ | ⟨rfl, rfl⟩ |
        ⟨rfl, rfl⟩ <;>
      exact ⟨_, rest, rfl, rfl, Lexeme.first_symbol rfl rfl (hpair _ rfl)⟩
  | @illegal c hblank hword hdigit hsymbol =>
    refine ⟨c, rest, rfl, hblank, ?_⟩
    rcases ofSymbol_cases c with hmem | ⟨hkind, _⟩
    · exact absurd rfl (hsymbol _ hmem)
    · rw [Lexeme.first_symbol hword hdigit, hkind]
      intro hc
      rcases Lexeme.eq_of_pairs hc with rfl | rfl
      · exact absurd rfl (hsymbol (.assign, ['=']) (by decide))
      · exact absurd rfl (hsymbol (.bang, ['!']) (by decide))

/-- **The longest lexeme at the head of a text is one, and does not go on.** -/
theorem Lexeme.first_lexical {c : Char} (hblank : isBlank c = false) (cs : List Char) :
    Lexical (first c cs).kind (first c cs).text ∧
      ∀ d ∈ (first c cs).rest.head?, continues (first c cs).text d = false := by
  have hrun : ∀ p : Char → Bool, p c = true → ∀ d ∈ c :: cs.takeWhile p, p d = true := by
    intro p hc d hd
    rcases List.mem_cons.1 hd with rfl | hd
    · exact hc
    · exact List.all_eq_true.1 List.all_takeWhile d hd
  cases hword : isWordChar c with
  | true =>
    rw [first_word hword]
    refine ⟨.word (List.cons_ne_nil _ _) (hrun _ hword), fun d hd => ?_⟩
    rw [continues_word hword]
    exact eq_false_of_head?_dropWhile hd
  | false =>
    cases hdigit : c.isDigit with
    | true =>
      rw [first_digit hdigit]
      refine ⟨.integer (List.cons_ne_nil _ _) (hrun _ hdigit), fun d hd => ?_⟩
      rw [continues_digit hdigit]
      exact eq_false_of_head?_dropWhile hd
    | false =>
      by_cases hpair : pairs c = true ∧ cs.head? = some '='
      · obtain ⟨hp, hhead⟩ := hpair
        obtain ⟨ds, rfl⟩ : ∃ ds, cs = '=' :: ds := List.head?_eq_some_iff.1 hhead
        rw [first_pair hp]
        have hends : ∀ d ∈ ds.head?, continues [c, '='] d = false := by
          intro d _
          simp [continues, hword, hdigit]
        rcases eq_of_pairs hp with rfl | rfl
        · exact ⟨show Lexical .equal ['=', '='] from .symbol (by decide), hends⟩
        · exact ⟨show Lexical .notEqual ['!', '='] from .symbol (by decide), hends⟩
      · rw [first_symbol hword hdigit fun hp hhead => hpair ⟨hp, hhead⟩]
        constructor
        · rcases ofSymbol_cases c with hmem | ⟨hkind, hsymbol⟩
          · exact .symbol hmem
          · rw [hkind]
            exact .illegal hblank hword hdigit hsymbol
        · intro d hd
          have hd' : pairs c = true → d ≠ '=' := by
            rintro hp rfl
            exact hpair ⟨hp, hd⟩
          cases hp : pairs c with
          | false => simp [continues, hword, hdigit, hp]
          | true => simp [continues, hword, hdigit, hp, hd' hp]

/-! ## Texts cut up -/

/-- A lexeme with the blanks before it. -/
structure Slice where
  gap : List Char
  kind : TokenKind
  text : List Char
  deriving DecidableEq, Repr

/-- Lexemes with the blanks before them, and the blanks after the last. -/
structure Slicing where
  slices : List Slice
  trailing : List Char
  deriving DecidableEq, Repr

/-- The ways to cut up a text: blanks and lexemes in turn, and every lexeme ends where the next
character does not belong to it. -/
inductive CutsInto : List Char → Slicing → Prop where
  | blank {gap : List Char} (hgap : ∀ c ∈ gap, isBlank c = true) : CutsInto gap ⟨[], gap⟩
  | lexeme {gap text rest : List Char} {kind : TokenKind} {x : Slicing}
    (hgap : ∀ c ∈ gap, isBlank c = true) (hlexical : Lexical kind text)
    (hends : ∀ d ∈ rest.head?, Lexeme.continues text d = false) (h : CutsInto rest x) :
    CutsInto (gap ++ (text ++ rest)) ⟨⟨gap, kind, text⟩ :: x.slices, x.trailing⟩

namespace CutsInto

variable {cs : List Char} {x y : Slicing}

/-- How a text is cut up where it begins. -/
theorem head {gap text rest : List Char} {kind : TokenKind} (hgap : ∀ c ∈ gap, isBlank c = true)
    (hlexical : Lexical kind text)
    (hends : ∀ d ∈ rest.head?, Lexeme.continues text d = false) :
    (gap ++ (text ++ rest)).takeWhile isBlank = gap ∧
      ∃ c ds, (gap ++ (text ++ rest)).dropWhile isBlank = c :: ds ∧ isBlank c = false ∧
        Lexeme.first c ds = ⟨kind, text, rest⟩ := by
  obtain ⟨c, ds, hcons, hblank, hfirst⟩ := hlexical.first hends
  have hhead : ∀ d ∈ (text ++ rest).head?, isBlank d = false := by
    intro d hd
    rw [hcons] at hd
    cases hd
    exact hblank
  have hrun := run_eq hgap hhead
  exact ⟨hrun.1, c, ds, by rw [hrun.2, hcons], hblank, hfirst⟩

/-- There is at most one way to cut up a text. -/
theorem unique (h : CutsInto cs x) (h' : CutsInto cs y) : y = x := by
  have hdrop : ∀ gap : List Char, (∀ c ∈ gap, isBlank c = true) → gap.dropWhile isBlank = [] := by
    intro gap hgap
    have hrun : (gap ++ []).dropWhile isBlank = [] := (run_eq hgap (by
      intro d hd
      cases hd)).2
    rwa [List.append_nil] at hrun
  induction h generalizing y with
  | @blank gap hgap =>
    generalize hcs : gap = cs at h'
    cases h' with
    | blank => rfl
    | lexeme hgap' hlexical hends _ =>
      obtain ⟨_, _, _, hcons, _⟩ := head hgap' hlexical hends
      rw [← hcs, hdrop gap hgap] at hcons
      cases hcons
  | @lexeme gap text rest kind x hgap hlexical hends h ih =>
    obtain ⟨htake, c, ds, hcons, hblank, hfirst⟩ := head hgap hlexical hends
    generalize hcs : gap ++ (text ++ rest) = cs at h'
    rw [hcs] at htake hcons
    cases h' with
    | blank hgap' =>
      rw [hdrop _ hgap'] at hcons
      cases hcons
    | lexeme hgap' hlexical' hends' h' =>
      obtain ⟨htake', _, _, hcons', _, hfirst'⟩ := head hgap' hlexical' hends'
      rw [hcons] at hcons'
      cases hcons'
      rw [hfirst, Lexeme.mk.injEq] at hfirst'
      obtain ⟨rfl, rfl, rfl⟩ := hfirst'
      rw [ih h', ← htake', htake]

end CutsInto

/-- The tokens of lexemes that begin, blanks included, at byte `offset` of the source `file`. -/
def tokensAt (file : String) (offset : Nat) : List Slice → List Token
  | [] => []
  | x :: xs =>
    let start := offset + byteLength x.gap
    let stop := start + byteLength x.text
    ⟨x.kind, String.ofList x.text, ⟨.ofBytes file start, .ofBytes file stop⟩⟩ ::
      tokensAt file stop xs

/-- A cursor cuts up the text that is left. -/
theorem Lexer.Scans.cutsInto {l : Lexer} {ts : List Token} (h : Scans l ts) :
    ∃ x, CutsInto l.rest x ∧ tokensAt l.file l.offset x.slices = ts := by
  have hblank : ∀ cs : List Char, ∀ c ∈ cs.takeWhile isBlank, isBlank c = true :=
    fun cs => List.all_eq_true.1 List.all_takeWhile
  induction h with
  | @done l h =>
    have htake := List.takeWhile_append_dropWhile (p := isBlank) (l := l.rest)
    rw [show l.rest.dropWhile isBlank = [] from h, List.append_nil] at htake
    refine ⟨⟨[], l.rest⟩, .blank ?_, rfl⟩
    rw [← htake]
    exact hblank l.rest
  | @token l c cs ts h hs ih =>
    obtain ⟨x, hx, htokens⟩ := ih
    obtain ⟨hlexical, hends⟩ := Lexeme.first_lexical (isBlank_of_skipBlanks h) cs
    refine ⟨⟨⟨l.rest.takeWhile isBlank, (Lexeme.first c cs).kind, (Lexeme.first c cs).text⟩ ::
        x.slices, x.trailing⟩, ?_, congrArg (l.skipBlanks.tokenOf (.first c cs) :: ·) htokens⟩
    have hcut := CutsInto.lexeme (hblank l.rest) hlexical hends hx
    rw [Lexeme.first_text_append, ← show l.rest.dropWhile isBlank = c :: cs from h,
      List.takeWhile_append_dropWhile] at hcut
    exact hcut

theorem tokensOf_cutsInto (source : String) :
    ∃ x, CutsInto source.toList x ∧ tokensAt Lexer.defaultFile 0 x.slices = tokensOf source :=
  (Lexer.scans_tokens (Lexer.ofSource source)).cutsInto

/-- **A source can be cut up in one way, and the tokens are what it is cut up into.** -/
theorem tokenize_unique_slicing (source : String) :
    ∃ x, CutsInto source.toList x ∧ (∀ y, CutsInto source.toList y → y = x) ∧
      tokenize source = tokensAt Lexer.defaultFile 0 x.slices ++
        [.endOfInput (.ofBytes Lexer.defaultFile source.utf8ByteSize)] := by
  obtain ⟨x, hx, htokens⟩ := tokensOf_cutsInto source
  exact ⟨x, hx, fun y hy => hx.unique hy, by rw [tokenize_eq, htokens]⟩

/-! ## Texts put together again -/

def Token.start (t : Token) : Nat := t.span.start.offset.toNat

def Token.stop (t : Token) : Nat := t.span.stop.offset.toNat

/-- From byte `start` up to byte `stop`, both of them at the boundary of a character, the source
holds the text `piece`. -/
structure Stands (source : String) (start stop : Nat) (piece : String) : Prop where
  le : start ≤ stop
  start_isValid : String.Pos.Raw.IsValid source ⟨start⟩
  stop_isValid : String.Pos.Raw.IsValid source ⟨stop⟩
  extract_eq : source.toByteArray.extract start stop = piece.toByteArray

/-- What stands between the tokens: the stretches up to the first, between neighbours, and after the
last, from byte `start` up to byte `stop`. -/
def gapsBetween (start stop : Nat) : List Token → List (Nat × Nat)
  | [] => [(start, stop)]
  | t :: ts => (start, t.start) :: gapsBetween t.stop stop ts

/-- What stands between the tokens and the tokens' texts, put together from byte `start` on. -/
def reassembled (source : String) (start : Nat) : List Token → ByteArray
  | [] => source.toByteArray.extract start source.utf8ByteSize
  | t :: ts =>
    source.toByteArray.extract start t.start ++ t.text.toByteArray ++ reassembled source t.stop ts

/-- A part of a source stands where the parts before it end. -/
theorem Stands.of_append {source : String} {before piece after : List Char}
    (h : source.toList = before ++ (piece ++ after)) :
    Stands source (byteLength before) (byteLength before + byteLength piece)
      (String.ofList piece) := by
  have hsource : source = String.ofList before ++ (String.ofList piece ++ String.ofList after) := by
    rw [← String.ofList_append, ← String.ofList_append, ← h, String.ofList_toList]
  have hend : ∀ cs : List Char, (String.ofList cs).rawEndPos = ⟨byteLength cs⟩ := by
    intro cs
    rw [← utf8ByteSize_ofList]
    rfl
  refine ⟨Nat.le_add_right _ _, ?_, ?_, ?_⟩
  · exact String.Pos.Raw.isValid_iff_exists_append.2 ⟨_, _, hsource, (hend before).symm⟩
  · refine String.Pos.Raw.isValid_iff_exists_append.2
      ⟨String.ofList (before ++ piece), String.ofList after, ?_, ?_⟩
    · rw [hsource, String.ofList_append, String.append_assoc]
    · rw [hend, byteLength_append]
  · rw [hsource, String.toByteArray_append, String.toByteArray_append, ← utf8ByteSize_ofList,
      ← utf8ByteSize_ofList, ← String.size_toByteArray, ← String.size_toByteArray,
      ByteArray.extract_append, Nat.sub_self, Nat.add_sub_cancel_left,
      ByteArray.extract_append_eq_left rfl, ByteArray.extract_eq_empty_iff.2 (by omega),
      ByteArray.empty_append]

/-- That the tokens of the text `cs`, which stands in a source from byte `start` on, leave out
nothing but blanks. -/
structure Lossless (source : String) (start : Nat) (cs : List Char) (ts : List Token) : Prop where
  stands : ∀ t ∈ ts, t.text ≠ "" ∧ Stands source t.start t.stop t.text
  gaps : ∀ gap ∈ gapsBetween start source.utf8ByteSize ts,
    ∃ blanks, Stands source gap.1 gap.2 blanks ∧ ∀ c ∈ blanks.toList, isBlank c = true
  reassembled_eq : reassembled source start ts = (String.ofList cs).toByteArray

theorem CutsInto.lossless {cs : List Char} {x : Slicing} (h : CutsInto cs x) {source : String}
    (hsize : source.utf8ByteSize < UInt32.size) (file : String) {before : List Char}
    (hsource : source.toList = before ++ cs) :
    Lossless source (byteLength before) cs (tokensAt file (byteLength before) x.slices) := by
  induction h generalizing before with
  | @blank gap hgap =>
    have hsource' : source.toList = before ++ (gap ++ []) := by rw [List.append_nil, hsource]
    have hstands := Stands.of_append hsource'
    rw [← byteLength_append, ← hsource, byteLength_toList] at hstands
    refine ⟨fun t ht => (nomatch ht), fun g hg => ?_, hstands.extract_eq⟩
    obtain rfl := List.mem_singleton.1 hg
    exact ⟨_, hstands, by rwa [String.toList_ofList]⟩
  | @lexeme gap text rest kind x hgap hlexical hends h ih =>
    have hsplit : source.toList = (before ++ gap) ++ (text ++ rest) := by
      rw [hsource, List.append_assoc]
    have hgapStands := Stands.of_append hsource
    have htextStands := Stands.of_append hsplit
    have hrest := @ih ((before ++ gap) ++ text) (by simp only [hsource, List.append_assoc])
    rw [byteLength_append] at htextStands
    rw [byteLength_append, byteLength_append] at hrest
    let start := byteLength before + byteLength gap
    let stop := start + byteLength text
    let t : Token := ⟨kind, String.ofList text, ⟨.ofBytes file start, .ofBytes file stop⟩⟩
    have hstop : stop ≤ source.utf8ByteSize := htextStands.stop_isValid.le_rawEndPos
    have hstart : start ≤ stop := htextStands.le
    have htstart : t.start = start := Position.toNat_offset_ofBytes file (by omega)
    have htstop : t.stop = stop := Position.toNat_offset_ofBytes file (by omega)
    have htokens : tokensAt file (byteLength before) (⟨gap, kind, text⟩ :: x.slices) =
        t :: tokensAt file stop x.slices := rfl
    rw [htokens]
    constructor
    · intro u hu
      rcases List.mem_cons.1 hu with rfl | hu
      · rw [htstart, htstop]
        refine ⟨fun hempty => hlexical.ne_nil ?_, htextStands⟩
        rw [← String.toList_ofList (l := text), show String.ofList text = "" from hempty]
        rfl
      · exact hrest.stands u hu
    · intro g hg
      rw [gapsBetween, htstart, htstop] at hg
      rcases List.mem_cons.1 hg with rfl | hg
      · exact ⟨_, hgapStands, by rwa [String.toList_ofList]⟩
      · exact hrest.gaps g hg
    · rw [reassembled, htstart, htstop, hrest.reassembled_eq, hgapStands.extract_eq,
        String.ofList_append, String.ofList_append, String.toByteArray_append,
        String.toByteArray_append, ByteArray.append_assoc]

/-! ## Tokens read one at a time -/

namespace Lexer

/-- The cursor reads the tokens one at a time, and stands within no character when it is asked for
one. -/
inductive Pulls : Lexer → List Token → Lexer → Prop where
  | nil (l : Lexer) : Pulls l [] l
  | cons {l m n : Lexer} {t : Token} {ts : List Token} (h : l.next? = some (t, m))
    (hs : Pulls m ts n) : Pulls l (t :: ts) n

/-- A cursor at the boundary of a character reads on to the end of input. -/
theorem Scans.pulls {l : Lexer} {ts : List Token} (h : Scans l ts) (hcut : l.cut = 0) :
    ∃ m, Pulls l (ts ++ [.endOfInput (.ofBytes l.file (l.offset + byteLength l.rest))]) m := by
  have hnext : ∀ l : Lexer, l.cut = 0 → l.next? = some l.scan := fun l hl => if_pos hl
  induction h with
  | @done l h =>
    have hend := l.byteLength_skipBlanks
    rw [h, byteLength_nil, Nat.add_zero] at hend
    refine ⟨l.skipBlanks, .cons ?_ (.nil _)⟩
    rw [hnext l hcut, scan_of_nil h, position, hend]
    rfl
  | @token l c cs ts h hs ih =>
    obtain ⟨m, hm⟩ := ih hcut
    rw [byteLength_past h, byteLength_skipBlanks] at hm
    exact ⟨m, .cons (by rw [hnext l hcut, scan_of_cons h]) hm⟩

end Lexer

/-- **No byte of a source is lost.** Every source of less than four gibibytes is read token by token
up to one end of input. Every token stands in the source where its span says, only blanks stand
between the tokens, and tokens and blanks together are the source. -/
theorem tokenize_lossless (source : String) (hsize : source.utf8ByteSize < UInt32.size) :
    (∃ l, (Lexer.ofSource source).Pulls (tokenize source) l) ∧
      ∃ ts last, tokenize source = ts ++ [last] ∧
        last.kind = .eof ∧ last.text = "" ∧
        last.start = source.utf8ByteSize ∧ last.stop = source.utf8ByteSize ∧
        (∀ t ∈ ts, t.kind ≠ .eof ∧ t.text ≠ "" ∧ Stands source t.start t.stop t.text) ∧
        (∀ gap ∈ gapsBetween 0 source.utf8ByteSize ts,
          ∃ blanks, Stands source gap.1 gap.2 blanks ∧ ∀ c ∈ blanks.toList, isBlank c = true) ∧
        reassembled source 0 ts = source.toByteArray := by
  have hscans := Lexer.scans_tokens (Lexer.ofSource source)
  have heof := Position.toNat_offset_ofBytes Lexer.defaultFile hsize
  obtain ⟨x, hx, htokens⟩ := tokensOf_cutsInto source
  obtain ⟨hstands, hgaps, hreassembled⟩ :=
    hx.lossless hsize Lexer.defaultFile (List.nil_append source.toList).symm
  rw [byteLength_nil, htokens] at hstands hgaps hreassembled
  rw [String.ofList_toList] at hreassembled
  constructor
  · obtain ⟨l, hl⟩ := hscans.pulls rfl
    refine ⟨l, ?_⟩
    rw [Lexer.ofSource, Lexer.ofFile, Nat.zero_add, byteLength_toList] at hl
    rw [tokenize_eq]
    exact hl
  · refine ⟨tokensOf source, _, tokenize_eq source, rfl, rfl, heof, heof, ?_, hgaps, hreassembled⟩
    exact fun t ht => ⟨hscans.kind_ne_eof ht, hstands t ht⟩

/-- A source that begins with a character of two bytes, which is an illegal token of its own. -/
theorem tokenize_lossless_accented :
    "é ==\t1 ".utf8ByteSize < UInt32.size ∧
      ∃ ts, tokenize "é ==\t1 " = ts ++ [.endOfInput (.ofBytes "shell" 8)] ∧
        ts.map (fun t => (t.kind, t.start, t.stop)) =
          [(.illegal, 0, 2), (.equal, 3, 5), (.integer, 6, 7)] ∧
        gapsBetween 0 8 ts = [(0, 0), (2, 3), (5, 6), (7, 8)] ∧
        reassembled "é ==\t1 " 0 ts = "é ==\t1 ".toByteArray := by
  have hsize : "é ==\t1 ".utf8ByteSize < UInt32.size := by decide +kernel
  obtain ⟨-, ts, last, htokens, -, -, -, -, -, -, hreassembled⟩ := tokenize_lossless _ hsize
  have hts : ts = (tokenize "é ==\t1 ").dropLast := by rw [htokens, List.dropLast_concat]
  have hlast : (tokenize "é ==\t1 ").getLast? = some (.endOfInput (.ofBytes "shell" 8)) := by
    decide +kernel
  rw [htokens, List.getLast?_concat] at hlast
  obtain rfl := Option.some.inj hlast
  refine ⟨hsize, ts, htokens, ?_, ?_, hreassembled⟩
  · rw [hts]
    decide +kernel
  · rw [hts]
    decide +kernel

end FrontEnd
