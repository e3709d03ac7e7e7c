import Mathlib.Data.List.Basic
import FrontEnd.Proofs.Conservation
import FrontEnd.Proofs.Slices
import FrontEnd.Proofs.Spelling

/-!
# Semicolons between statements are optional

A source in which everything can be parsed is a row of clauses, each with a semicolon after it or
without one. Where a clause ends is told by the token after it, and every clause ends before a
semicolon. So a semicolon may be put behind any clause that has none, and the rest of the row is
read as before. Statements that are written out with a semicolon behind each of them make such a
row as well, whatever they would run into without it.

* `Sentence` — a clause with its semicolon; `Sentence.Valid` is the grammar.
* `Row` — sentences, each of which ends where the next one begins.
* `Passage` — a sentence with the characters that it stands in; `Passages` cuts a source into them.
* `Stmt.closedText` — the text of a statement, with a semicolon at its end in any case.

Principal results: `exists_row` and `Row.rounds` (a clean source is a row of sentences, and the
other way round), `Row.close` (semicolons may be added), `parse_closedText` (statements written out)
and `parse_semicolons_optional`.
-/

namespace FrontEnd

open TokenStream

/-! ## Sentences in a row -/

/-- A clause, the semicolon after it if there is one, and the token that its statement ends with. -/
structure Sentence where
  clause : Clause
  semicolon : Option Token
  last : Token

/-- The kind of the first token, or of the end of input if there is none. -/
def firstKind (ts : List Token) : TokenKind := ts.head?.elim .eof Token.kind

namespace Sentence

def statement (x : Sentence) : Stmt := x.clause.statement x.last

def tokens (x : Sentence) : List Token := x.clause.tokens ++ x.semicolon.toList

/-- The grammar of sentences. -/
structure Valid (x : Sentence) : Prop where
  clause : x.clause.Valid
  fits : x.clause.Fits maxNesting
  kind_eq : ∀ t ∈ x.semicolon, t.kind = .semicolon

/-- The sentence with a semicolon, if it is to have one. -/
def close (x : Sentence) (mark : Bool) : Sentence :=
  if mark then { x with semicolon := some (.unplaced .semicolon ";") } else x

end Sentence

/-- Sentences in a row: the clause of each ends before its semicolon or before the next sentence. -/
inductive Row : List Sentence → Prop where
  | nil : Row []
  | cons {x : Sentence} {xs : List Sentence} (hx : x.Valid)
    (hends : x.clause.EndsBefore (firstKind (x.semicolon.toList ++ xs.flatMap Sentence.tokens)))
    (h : Row xs) : Row (x :: xs)

theorem TokenStream.current_kind (s : TokenStream) : s.current.kind = firstKind s.pending := by
  cases h : s.pending with
  | nil =>
    rw [current_of_nil h]
    rfl
  | cons t ts =>
    rw [current_of_cons h]
    rfl

theorem firstKind_append {ts : List Token} (h : ts ≠ []) (us : List Token) :
    firstKind (ts ++ us) = firstKind ts := by
  obtain ⟨t, ts, rfl⟩ := List.exists_cons_of_ne_nil h
  rfl

/-- Every clause ends before a semicolon. -/
theorem Clause.endsBefore_semicolon (c : Clause) : c.EndsBefore .semicolon := by
  unfold EndsBefore
  split
  · exact .inl rfl
  · decide

/-- What a clause's statement ends with shows in its place only. -/
theorem Clause.statement_null (c : Clause) (last last' : Token) :
    (c.statement last).relocate (fun _ => .null) = (c.statement last').relocate fun _ => .null := by
  cases c <;> rfl

namespace Sentence

variable {x : Sentence} {xs : List Sentence}

theorem Valid.kind_ne_eof (h : x.Valid) : ∀ t ∈ x.tokens, t.kind ≠ .eof := by
  intro t ht
  rcases List.mem_append.1 ht with ht | ht
  · exact (h.clause.kind_ne t ht).2
  · rw [h.kind_eq t (Option.mem_toList.1 ht)]
    decide

theorem Valid.firstKind_tokens (h : x.Valid) (ts : List Token) :
    firstKind (x.tokens ++ ts) = firstKind x.clause.tokens := by
  rw [tokens, List.append_assoc, firstKind_append h.clause.tokens_ne_nil]

theorem Valid.firstKind_ne_semicolon (h : x.Valid) : firstKind x.clause.tokens ≠ .semicolon := by
  obtain ⟨t, ts, hts⟩ := List.exists_cons_of_ne_nil h.clause.tokens_ne_nil
  have hkind := (h.clause.kind_ne t (by rw [hts]; exact List.mem_cons_self)).1
  rw [hts]
  exact hkind

end Sentence

namespace Row

variable {x : Sentence} {xs : List Sentence}

theorem valid (h : Row xs) : ∀ x ∈ xs, x.Valid := by
  induction h with
  | nil => exact List.forall_mem_nil _
  | cons hx _ _ ih => exact List.forall_mem_cons.2 ⟨hx, ih⟩

theorem kind_ne_eof (h : Row xs) : ∀ t ∈ xs.flatMap Sentence.tokens, t.kind ≠ .eof := by
  intro t ht
  obtain ⟨x, hx, ht⟩ := List.mem_flatMap.1 ht
  exact (h.valid x hx).kind_ne_eof t ht

/-- The semicolon of a sentence is all that belongs to it of the tokens after its clause. -/
theorem afterStatement_eq (hx : x.Valid) (h : Row xs) :
    afterStatement (x.semicolon.toList ++ xs.flatMap Sentence.tokens) =
      xs.flatMap Sentence.tokens := by
  cases hsemicolon : x.semicolon with
  | some t => exact if_pos (hx.kind_eq t hsemicolon)
  | none =>
    cases h with
    | nil => rfl
    | @cons y ys hy _ _ =>
      have hfirst := hy.firstKind_ne_semicolon
      rw [← hy.firstKind_tokens (ys.flatMap Sentence.tokens), ← List.flatMap_cons] at hfirst
      show afterStatement ((y :: ys).flatMap Sentence.tokens) = _
      cases hts : (y :: ys).flatMap Sentence.tokens with
      | nil => rfl
      | cons t ts =>
        rw [hts] at hfirst
        exact if_neg hfirst

/-- A row of sentences is read sentence by sentence. -/
theorem rounds (h : Row xs) {s : TokenStream}
    (hs : s.pending = xs.flatMap Sentence.tokens) :
    diagnosticsOf (s.rounds .default maxNesting) = [] ∧
      (statementsOf (s.rounds .default maxNesting)).map (Stmt.relocate fun _ => .null) =
        xs.map fun x => x.statement.relocate fun _ => .null := by
  induction h generalizing s with
  | nil =>
    rw [rounds_of_atEnd (atEnd_of_nil hs)]
    exact ⟨rfl, rfl⟩
  | @cons x xs hx hends h ih =>
    rw [List.flatMap_cons, Sentence.tokens, List.append_assoc] at hs
    have hrest : (s.skip x.clause.tokens.length).pending =
        x.semicolon.toList ++ xs.flatMap Sentence.tokens := by
      rw [skip_pending, hs, List.drop_left]
    have hahead : x.clause.Ahead s := by
      refine ⟨hx.clause, ⟨_, hs.symm⟩, ?_⟩
      rw [current_kind, hrest]
      exact hends
    have heof : ∀ t ∈ s.pending, t.kind ≠ .eof := by
      have hall := (cons hx hends h).kind_ne_eof
      rwa [List.flatMap_cons, Sentence.tokens, List.append_assoc, ← hs] at hall
    have hnext : (x.clause.rest s).next.pending = xs.flatMap Sentence.tokens := by
      rw [hahead.pending_rest hs fun t ht => heof t (hs ▸ List.mem_append_right _ ht),
        afterStatement_eq hx h]
    obtain ⟨hdiagnostics, hstatements⟩ := ih hnext
    rw [hahead.rounds_eq hx.fits]
    refine ⟨hdiagnostics, ?_⟩
    rw [statementsOf_ok, List.map_cons, List.map_cons, hstatements]
    exact congrArg (· :: _) (x.clause.statement_null _ _)

end Row

/-- If every attempt finds a statement, the tokens are a row of sentences. -/
theorem exists_row {s : TokenStream} (heof : ∀ t ∈ s.pending, t.kind ≠ .eof)
    (hclean : diagnosticsOf (s.rounds .default maxNesting) = []) :
    ∃ xs, Row xs ∧ s.pending = xs.flatMap Sentence.tokens ∧
      xs.map Sentence.statement = statementsOf (s.rounds .default maxNesting) := by
  refine clean_induction heof hclean ?nil ?cons
  case nil => exact fun s hs => ⟨[], .nil, hs, rfl⟩
  case cons =>
    rintro s r c semicolon last statements hahead hfits hkind hpending ⟨xs, hxs, hrest, hmap⟩
    rw [hrest] at hpending
    refine ⟨⟨c, semicolon, last⟩ :: xs, .cons ⟨hahead.valid, hfits, hkind⟩ ?_ hxs, ?_, ?_⟩
    · have hends := hahead.ends
      rwa [current_kind, skip_pending, hpending, List.drop_left] at hends
    · rw [hpending, List.flatMap_cons, Sentence.tokens, List.append_assoc]
    · rw [List.map_cons, hmap]
      rfl

/-! ## More semicolons -/

namespace Sentence

variable {x : Sentence}

@[simp] theorem close_clause (x : Sentence) (mark : Bool) : (x.close mark).clause = x.clause := by
  cases mark <;> rfl

@[simp] theorem close_statement (x : Sentence) (mark : Bool) :
    (x.close mark).statement = x.statement := by
  cases mark <;> rfl

theorem Valid.close (h : x.Valid) (mark : Bool) : (x.close mark).Valid := by
  cases mark with
  | false => exact h
  | true =>
    refine ⟨h.clause, h.fits, ?_⟩
    rintro _ ⟨⟩
    rfl

end Sentence

namespace Row

variable {α : Type} {f : α → Sentence} {as : List α}

/-- Whatever semicolons are added, the next sentence begins with the same kind of token. -/
theorem firstKind_close (h : Row (as.map f)) (mark : α → Bool) :
    firstKind (as.flatMap fun a => ((f a).close (mark a)).tokens) =
      firstKind (as.flatMap fun a => (f a).tokens) := by
  cases as with
  | nil => rfl
  | cons a as =>
    cases h with
    | cons ha _ _ =>
      rw [List.flatMap_cons, List.flatMap_cons, ha.firstKind_tokens,
        (ha.close (mark a)).firstKind_tokens, Sentence.close_clause]

/-- **Sentences may be given semicolons.** -/
theorem close (h : Row (as.map f)) (mark : α → Bool) :
    Row (as.map fun a => (f a).close (mark a)) := by
  induction as with
  | nil => exact .nil
  | cons a as ih =>
    cases h with
    | cons ha hends h =>
      refine .cons (ha.close (mark a)) ?_ (ih h)
      have hnext := h.firstKind_close mark
      rw [List.flatMap_map] at hends ⊢
      show ((f a).close (mark a)).clause.EndsBefore
        (firstKind (((f a).close (mark a)).semicolon.toList ++ _))
      cases mark a with
      | true => exact (f a).clause.endsBefore_semicolon
      | false =>
        show (f a).clause.EndsBefore (firstKind ((f a).semicolon.toList ++ _))
        cases hsemicolon : (f a).semicolon with
        | some t =>
          rw [hsemicolon] at hends
          exact hends
        | none =>
          rw [hsemicolon] at hends
          exact hnext ▸ hends

end Row

/-- A source whose tokens are a row of sentences is parsed to their statements. -/
theorem Row.parse {xs : List Sentence} (h : Row xs) {source : String}
    (hlexed : lexed source.toList =
      (xs.flatMap Sentence.tokens).map (Token.relocate fun _ => .null)) :
    (FrontEnd.parse source).2 = [] ∧
      (FrontEnd.parse source).1.statements.map (Stmt.relocate fun _ => .null) =
        xs.map fun x => x.statement.relocate fun _ => .null := by
  let row : TokenStream := ⟨xs.flatMap Sentence.tokens, .null, 0⟩
  have hstream : (streamOf source).relocate (fun _ => .null) 0 =
      row.relocate (fun _ => .null) 0 := by
    rw [streamOf_eq, TokenStream.relocate, TokenStream.relocate, tokensOf,
      Lexer.map_relocate_tokens, ← hlexed]
    rfl
  have hrounds := congrArg (TokenStream.rounds .default maxNesting) hstream
  rw [rounds_relocate, rounds_relocate] at hrounds
  obtain ⟨hdiagnostics, hstatements⟩ := h.rounds (s := row) rfl
  constructor
  · rw [parse_diagnostics, ← List.map_eq_nil_iff (f := Diagnostic.relocate fun _ => .null),
      ← diagnosticsOf_relocate, hrounds, diagnosticsOf_relocate, hdiagnostics]
    rfl
  · rw [parse_statements, ← statementsOf_relocate, hrounds, statementsOf_relocate, hstatements]

/-! ## Sentences in a source -/

theorem Lexeme.continues_semicolon (text : List Char) : continues text ';' = false := by
  cases text with
  | nil => rfl
  | cons c cs => simp [continues, isWordChar]

/-- What stands behind some lexemes may be replaced by what begins like it, or by a semicolon. -/
theorem CutsInto.replace {cs : List Char} {xs ys : List Slice} {trailing : List Char}
    (h : CutsInto cs ⟨xs ++ ys, trailing⟩) {ds : List Char} {zs : List Slice}
    {trailing' : List Char} (hds : CutsInto ds ⟨zs, trailing'⟩)
    (hhead : ∀ d ∈ ds.head?, d ∈ (ys.flatMap Slice.chars ++ trailing).head? ∨ d = ';') :
    CutsInto (xs.flatMap Slice.chars ++ ds) ⟨xs ++ zs, trailing'⟩ := by
  induction xs generalizing cs with
  | nil => exact hds
  | cons x xs ih =>
    obtain ⟨rest, -, hgap, hlexical, hends, h⟩ := h.uncons
    have hrest : rest = (xs ++ ys).flatMap Slice.chars ++ trailing := h.eq_flatMap
    rw [List.flatMap_cons, Slice.chars, List.append_assoc, List.append_assoc]
    refine .lexeme hgap hlexical (fun d hd => ?_) (ih h)
    rw [hrest, List.flatMap_append, List.append_assoc, List.head?_append] at hends
    rw [List.head?_append] at hd
    cases hfirst : (xs.flatMap Slice.chars).head? with
    | some e =>
      rw [hfirst] at hends hd
      exact hends d hd
    | none =>
      rw [hfirst] at hends hd
      rcases hhead d hd with hd | rfl
      · exact hends d hd
      · exact Lexeme.continues_semicolon x.text

/-- A sentence with its lexemes and the blanks before each of them. -/
structure Passage extends Sentence where
  slices : List Slice

/-- The characters of a passage: what stands behind the passage before it, up to the end of its own
last token. -/
def Passage.text (x : Passage) : List Char := x.slices.flatMap Slice.chars

/-- The passages and the blanks behind the last are the source, and the lexemes of each passage are
the tokens of its sentence. -/
structure Passages (source : String) (xs : List Passage) (trailing : List Char) : Prop where
  cuts : CutsInto source.toList ⟨xs.flatMap Passage.slices, trailing⟩
  tokens_eq : tokensOf source = xs.flatMap fun x => x.tokens
  valid : ∀ x ∈ xs, x.Valid
  bare_eq : ∀ x ∈ xs, x.slices.map Slice.bare = x.tokens.map (Token.relocate fun _ => .null)

/-- The characters of passages, with a semicolon right behind every one that is marked. -/
def semicolonsAfter (marked : List (Passage × Bool)) : List Char :=
  marked.flatMap fun m => m.1.text ++ if m.2 then [';'] else []

/-- A row of tokens is cut into passages as it is cut into sentences. -/
theorem exists_passages {file : String} {xs : List Sentence} {offset : Nat} {slices : List Slice}
    (h : tokensAt file offset slices = xs.flatMap Sentence.tokens) :
    ∃ ps : List Passage, ps.map Passage.toSentence = xs ∧ slices = ps.flatMap Passage.slices ∧
      ∀ p ∈ ps, p.slices.map Slice.bare = p.tokens.map (Token.relocate fun _ => .null) := by
  induction xs generalizing offset slices with
  | nil =>
    have hlength := length_tokensAt file offset slices
    rw [h] at hlength
    exact ⟨[], rfl, List.length_eq_zero_iff.1 hlength.symm, List.forall_mem_nil _⟩
  | cons x xs ih =>
    have hle : x.tokens.length ≤ slices.length := by
      rw [← length_tokensAt file offset, h, List.flatMap_cons, List.length_append]
      exact Nat.le_add_right _ _
    have hlength : (slices.take x.tokens.length).length = x.tokens.length :=
      List.length_take_of_le hle
    rw [← List.take_append_drop x.tokens.length slices, tokensAt_append, List.flatMap_cons] at h
    obtain ⟨hx, hxs⟩ := List.append_inj h (by rw [length_tokensAt, hlength])
    obtain ⟨ps, hmap, hslices, hbare⟩ := ih hxs
    refine ⟨⟨x, slices.take x.tokens.length⟩ :: ps, ?_, ?_, List.forall_mem_cons.2 ⟨?_, hbare⟩⟩
    · rw [List.map_cons, hmap]
    · rw [List.flatMap_cons, ← hslices, List.take_append_drop]
    · rw [← map_relocate_tokensAt file offset, hx]

section

variable {marked : List (Passage × Bool)} {cs trailing : List Char}

/-- The lexemes of passages, with a semicolon behind every one that is marked. -/
def slicesAfter (marked : List (Passage × Bool)) : List Slice :=
  marked.flatMap fun m => m.1.slices ++ if m.2 then [⟨[], .semicolon, [';']⟩] else []

theorem head?_semicolonsAfter (marked : List (Passage × Bool)) (trailing : List Char) :
    ∀ d ∈ (semicolonsAfter marked ++ trailing).head?,
      d ∈ ((marked.flatMap fun m => m.1.slices).flatMap Slice.chars ++ trailing).head? ∨
        d = ';' := by
  induction marked with
  | nil => exact fun d hd => .inl hd
  | cons m marked ih =>
    intro d hd
    rw [semicolonsAfter, List.flatMap_cons, List.append_assoc, List.append_assoc,
      List.head?_append] at hd
    rw [List.flatMap_cons, List.flatMap_append, List.append_assoc, List.head?_append]
    cases hfirst : m.1.text.head? with
    | some e =>
      rw [hfirst] at hd
      left
      rw [← Passage.text, hfirst]
      exact hd
    | none =>
      rw [hfirst] at hd
      rw [← Passage.text, hfirst]
      cases hmark : m.2 with
      | true =>
        rw [hmark] at hd
        right
        exact (Option.some.inj hd).symm
      | false =>
        rw [hmark] at hd
        exact ih d hd

/-- Semicolons right behind passages are lexemes of their own, and leave the others as they were. -/
theorem CutsInto.semicolonsAfter (h : CutsInto cs ⟨marked.flatMap fun m => m.1.slices, trailing⟩) :
    CutsInto (FrontEnd.semicolonsAfter marked ++ trailing) ⟨slicesAfter marked, trailing⟩ := by
  induction marked generalizing cs with
  | nil =>
    have hcs : cs = trailing := h.eq_flatMap
    exact hcs ▸ h
  | cons m marked ih =>
    rw [List.flatMap_cons] at h
    have hrest := ih h.drop
    have hhead := head?_semicolonsAfter marked trailing
    rw [FrontEnd.semicolonsAfter, slicesAfter, List.flatMap_cons, List.flatMap_cons,
      List.append_assoc, List.append_assoc, List.append_assoc]
    cases m.2 with
    | false => exact h.replace hrest hhead
    | true =>
      have hlexical : Lexical .semicolon [';'] := .symbol (by decide)
      have hends : ∀ d, Lexeme.continues [';'] d = false := by
        simp [Lexeme.continues, isWordChar, Lexeme.pairs]
      have hsemicolon := CutsInto.lexeme (List.forall_mem_nil _) hlexical (fun d _ => hends d) hrest
      exact h.replace hsemicolon fun d hd => .inr (Option.some.inj hd).symm

/-- What passages with more semicolons are cut into. -/
theorem lexed_semicolonsAfter
    (h : CutsInto cs ⟨marked.flatMap fun m => m.1.slices, trailing⟩)
    (hbare : ∀ m ∈ marked, m.1.slices.map Slice.bare =
      m.1.tokens.map (Token.relocate fun _ => .null))
    (hopen : ∀ m ∈ marked, m.2 = true → m.1.semicolon = none) :
    lexed (semicolonsAfter marked ++ trailing) =
      (marked.flatMap fun m => (m.1.close m.2).tokens).map (Token.relocate fun _ => .null) := by
  rw [h.semicolonsAfter.lexed_eq, slicesAfter, List.map_flatMap, List.map_flatMap]
  refine List.flatMap_congr fun m hm => ?_
  rw [List.map_append, hbare m hm]
  cases hmark : m.2 with
  | false => exact List.append_nil _
  | true =>
    rw [Sentence.close, if_pos rfl, Sentence.tokens, Sentence.tokens, hopen m hm hmark,
      List.map_append, List.map_append, List.append_assoc]
    rfl

end

/-! ## Statements written out with semicolons -/

/-- The text of a statement, with a semicolon at its end in any case. -/
def Stmt.closedText (statement : Stmt) : String :=
  match statement with
  | .expression .. => statement.text ++ ";"
  | _ => statement.text

/-- The sentence that the text of a statement with its semicolon is. -/
def Stmt.closed (statement : Stmt) : Sentence :=
  let semicolon := Token.unplaced .semicolon ";"
  match statement with
  | .binding _ name value _ =>
    ⟨.binding (.unplaced .letWord "let") (.unplaced .identifier name.value) (.unplaced .assign "=")
      value.printed, semicolon, semicolon⟩
  | .result _ value _ =>
    ⟨.result (.unplaced .returnWord "return") (value.map Expr.printed), semicolon, semicolon⟩
  | .expression _ value _ => ⟨.expression value.printed, semicolon, semicolon⟩

namespace Stmt

variable {statement : Stmt}

theorem closed_valid (h : statement.WellFormed)
    (hneed : ∀ e ∈ statement.value?, e.printedNeed ≤ maxNesting) : statement.closed.Valid := by
  have hderives : ∀ {e : Expr}, e.WellFormed → Derives .equality e.printed.tokens e.printed :=
    fun he => (Expr.derives_printed he).loosen (by decide)
  refine ⟨?_, ?_, ?_⟩
  · cases statement with
    | binding token name value span => exact .binding rfl rfl rfl (hderives h.2.2.2)
    | result token value span =>
      refine .result rfl fun x hx => ?_
      obtain ⟨e, he, rfl⟩ := Option.map_eq_some_iff.1 hx
      exact hderives (h.2.2 e he)
    | expression token value span => exact .expression (hderives h)
  · intro x hx
    obtain ⟨e, he, rfl⟩ : ∃ e, statement.value? = some e ∧ e.printed = x := by
      cases statement with
      | binding | expression => exact ⟨_, rfl, Option.some.inj hx⟩
      | result token value span => exact Option.map_eq_some_iff.1 hx
    rw [e.need_printed]
    exact hneed e he
  · cases statement <;>
    · rintro _ ⟨⟩
      rfl

/-- The sentence is read as the statement that it was written out from. -/
theorem bare_closed (h : statement.WellFormed) :
    statement.closed.statement.bare = statement.bare := by
  cases statement with
  | binding token name value span =>
    obtain ⟨hkind, htext, hname, hvalue⟩ := h
    simp only [closed, Sentence.statement, Clause.statement, Expr.tree_printed hvalue, bare,
      relocate, Expr.relocate_relocate, Function.comp_def, Token.relocate, Identifier.relocate,
      Identifier.ofToken, hkind, htext, hname.kind_eq, hname.text_eq]
    rfl
  | result token value span =>
    obtain ⟨hkind, htext, hvalue⟩ := h
    cases value with
    | none =>
      simp only [closed, Sentence.statement, Clause.statement, bare, relocate, Token.relocate,
        hkind, htext]
      rfl
    | some value =>
      simp only [closed, Sentence.statement, Clause.statement, Option.map_some,
        Expr.tree_printed (hvalue value rfl), bare, relocate, Expr.relocate_relocate,
        Function.comp_def, Token.relocate, hkind, htext]
      rfl
  | expression token value span =>
    simp only [closed, Sentence.statement, Clause.statement, Expr.tree_printed h, bare, relocate,
      Expr.relocate_relocate, Function.comp_def]
    rfl

/-- Behind its semicolon the text of a statement is cut off from whatever follows. -/
theorem lexed_closedText (h : statement.WellFormed) (ds : List Char) :
    lexed (statement.closedText.toList ++ ds) = statement.closed.tokens ++ lexed ds := by
  cases statement with
  | binding token name value span =>
    show lexed ((binding token name value span).text.toList ++ ds) = _
    rw [lexed_text h fun _ _ => rfl]
    simp [printed, closed, Sentence.tokens, Clause.tokens, Clause.lead, Clause.value?]
  | result token value span =>
    show lexed ((result token value span).text.toList ++ ds) = _
    rw [lexed_text h fun _ _ => rfl]
    cases value <;>
      simp [printed, closed, Sentence.tokens, Clause.tokens, Clause.lead, Clause.value?]
  | expression token value span =>
    have hsemicolon : ∀ d ∈ (';' :: ds).head?,
        goesOnInto (.expression token value span) d = false := by
      rintro _ ⟨⟩
      cases value <;> rfl
    rw [closedText, String.toList_append, List.append_assoc]
    show lexed (_ ++ ';' :: ds) = _
    rw [lexed_text h hsemicolon, lexed_semicolon]
    simp [printed, closed, Sentence.tokens, Clause.tokens, Clause.lead, Clause.value?]

end Stmt

/-- Sentences that all have their semicolons stand in a row. -/
theorem Row.of_closed {statements : List Stmt} (hwf : ∀ s ∈ statements, s.WellFormed)
    (hneed : ∀ s ∈ statements, ∀ e ∈ s.value?, e.printedNeed ≤ maxNesting) :
    Row (statements.map Stmt.closed) := by
  induction statements with
  | nil => exact .nil
  | cons statement statements ih =>
    obtain ⟨hhead, htail⟩ := List.forall_mem_cons.1 hwf
    obtain ⟨hfirst, hrest⟩ := List.forall_mem_cons.1 hneed
    refine .cons (Stmt.closed_valid hhead hfirst) ?_ (ih htail hrest)
    cases statement <;> exact Clause.endsBefore_semicolon _

/-- **Statements come back from their text**, whatever they are, if each of them is closed with a
semicolon. -/
theorem parse_closedText {statements : List Stmt} (hwf : ∀ s ∈ statements, s.WellFormed)
    (hneed : ∀ s ∈ statements, ∀ e ∈ s.value?, e.printedNeed ≤ maxNesting) :
    (parse (String.join (statements.map Stmt.closedText))).2 = [] ∧
      (parse (String.join (statements.map Stmt.closedText))).1.statements.map Stmt.bare =
        statements.map Stmt.bare := by
  have hlexed : ∀ statements : List Stmt, (∀ s ∈ statements, s.WellFormed) →
      lexed (String.join (statements.map Stmt.closedText)).toList =
        (statements.map Stmt.closed).flatMap Sentence.tokens := by
    intro statements hwf
    rw [String.toList_join]
    induction statements with
    | nil => exact lexed_nil
    | cons statement statements ih =>
      obtain ⟨hhead, htail⟩ := List.forall_mem_cons.1 hwf
      rw [List.map_cons, List.map_cons, List.flatMap_cons, Stmt.lexed_closedText hhead, ih htail]
      rfl
  have hnull : ∀ cs : List Char, lexed cs = (lexed cs).map (Token.relocate fun _ => .null) := by
    intro cs
    rw [lexed, List.map_map]
    rfl
  obtain ⟨hclean, hsame⟩ := (Row.of_closed hwf hneed).parse
    ((hnull _).trans (congrArg _ (hlexed statements hwf)))
  refine ⟨hclean, ?_⟩
  have hbare := congrArg (List.map Stmt.bare) hsame
  simp only [List.map_map, Function.comp_def, Stmt.bare_relocate] at hbare
  rw [hbare]
  exact List.map_congr_left fun statement hmem => Stmt.bare_closed (hwf statement hmem)

/-! ## Semicolons that are added to a source -/

/-- Every clean source is a row of passages. -/
theorem exists_passages_of_clean {source : String} (hclean : (parse source).2 = []) :
    ∃ xs trailing, Passages source xs trailing ∧ Row (xs.map Passage.toSentence) ∧
      xs.map (fun x => x.statement) = (parse source).1.statements := by
  have heof : ∀ t ∈ (streamOf source).pending, t.kind ≠ .eof := by
    rw [streamOf_eq]
    exact fun t ht => (Lexer.scans_tokens _).kind_ne_eof ht
  rw [parse_diagnostics] at hclean
  obtain ⟨xs, hxs, hpending, hstatements⟩ := exists_row heof hclean
  obtain ⟨⟨slices, trailing⟩, hcut, htokens⟩ := tokensOf_cutsInto source
  have hsource : tokensOf source = xs.flatMap Sentence.tokens := by
    rw [← hpending, streamOf_eq]
  obtain ⟨ps, rfl, rfl, hbare⟩ := exists_passages (htokens.trans hsource)
  refine ⟨ps, trailing, ⟨hcut, ?_, ?_, hbare⟩, hxs, ?_⟩
  · rw [hsource, List.flatMap_map]
  · exact fun p hp => hxs.valid _ (List.mem_map_of_mem hp)
  · rw [parse_statements, ← hstatements, List.map_map]
    rfl

/-- A clean source is parsed alike with more semicolons. -/
theorem Passages.parse_semicolonsAfter {source : String} {marked : List (Passage × Bool)}
    {trailing : List Char} (h : Passages source (marked.map Prod.fst) trailing)
    (hrow : Row ((marked.map Prod.fst).map Passage.toSentence))
    (hopen : ∀ m ∈ marked, m.2 = true → m.1.semicolon = none) :
    (parse (String.ofList (semicolonsAfter marked ++ trailing))).2 = [] ∧
      (parse (String.ofList (semicolonsAfter marked ++ trailing))).1.statements.map
          (Stmt.relocate fun _ => .null) =
        marked.map fun m => m.1.statement.relocate fun _ => .null := by
  have hcuts := h.cuts
  rw [List.flatMap_map] at hcuts
  have hlexed := lexed_semicolonsAfter hcuts
    (fun m hm => h.bare_eq m.1 (List.mem_map_of_mem hm)) hopen
  rw [List.map_map] at hrow
  have hclosed := hrow.close Prod.snd
  obtain ⟨hclean, hsame⟩ := hclosed.parse (by
    rw [String.toList_ofList, hlexed, List.flatMap_map]
    rfl)
  refine ⟨hclean, hsame.trans ?_⟩
  simp only [List.map_map, Function.comp_def, Sentence.close_statement]

/-- **Semicolons between statements are optional.** A clean source is a row of passages, one for
each statement. If semicolons are put right behind some of those that have none, it is still clean
and has the same statements, up to their places. And the statements of any source come back if they
are written out with a semicolon behind each, as long as none of their expressions nests, in
parentheses, deeper than it may. -/
theorem parse_semicolons_optional {source : String} (hclean : (parse source).2 = []) :
    (∃ xs trailing, Passages source xs trailing ∧
      xs.map (fun x => x.statement) = (parse source).1.statements ∧
      ∀ marked : List (Passage × Bool), marked.map Prod.fst = xs →
        (∀ m ∈ marked, m.2 = true → m.1.semicolon = none) →
        (parse (String.ofList (semicolonsAfter marked ++ trailing))).2 = [] ∧
          (parse (String.ofList (semicolonsAfter marked ++ trailing))).1.statements.map
              (Stmt.relocate fun _ => .null) =
            (parse source).1.statements.map (Stmt.relocate fun _ => .null)) ∧
      ((∀ s ∈ (parse source).1.statements, ∀ e ∈ s.value?, e.printedNeed ≤ maxNesting) →
        (parse (String.join ((parse source).1.statements.map Stmt.closedText))).2 = [] ∧
          (parse (String.join
              ((parse source).1.statements.map Stmt.closedText))).1.statements.map Stmt.bare =
            (parse source).1.statements.map Stmt.bare) := by
  obtain ⟨xs, trailing, hpassages, hrow, hstatements⟩ := exists_passages_of_clean hclean
  refine ⟨⟨xs, trailing, hpassages, hstatements, ?_⟩, ?_⟩
  · rintro marked rfl hopen
    obtain ⟨hclean', hsame⟩ := hpassages.parse_semicolonsAfter hrow hopen
    refine ⟨hclean', hsame.trans ?_⟩
    rw [← hstatements, List.map_map, List.map_map]
    rfl
  · exact parse_closedText (parseFile_wellFormed _ _)

/-- Two names, the second of them in parentheses, and a result without a value. One after the other
they are written as `xyreturn;`, which is a name and a semicolon. -/
theorem parse_semicolons_optional_two_names :
    let source := "x (y) return"
    let close (x : Passage) := (x, x.semicolon.isNone)
    (parse source).2 = [] ∧
      (∃ xs trailing, Passages source xs trailing ∧ xs.length = 3 ∧
        (parse (String.ofList (semicolonsAfter (xs.map close) ++ trailing))).2 = [] ∧
        (parse (String.ofList (semicolonsAfter (xs.map close) ++ trailing))).1.statements.map
          Stmt.text = ["x", "y", "return;"]) ∧
      (parse source).1.text = "xyreturn;" ∧
      (parse "x;y;return;").2 = [] ∧
        (parse "x;y;return;").1.statements.map Stmt.bare =
          (parse source).1.statements.map Stmt.bare := by
  intro source close
  have hclean : (parse source).2 = [] := by decide +kernel
  have htexts : (parse source).1.statements.map Stmt.text = ["x", "y", "return;"] := by
    decide +kernel
  obtain ⟨⟨xs, trailing, hpassages, hstatements, hinsert⟩, hwritten⟩ :=
    parse_semicolons_optional hclean
  obtain ⟨hclean', hsame⟩ := hinsert (xs.map close)
    (by rw [List.map_map]; exact List.map_id xs)
    (by
      intro m hm hmark
      obtain ⟨x, -, rfl⟩ := List.mem_map.1 hm
      exact Option.isNone_iff_eq_none.1 hmark)
  refine ⟨hclean, ⟨xs, trailing, hpassages, ?_, hclean', ?_⟩, by decide +kernel, ?_⟩
  · have hlength := congrArg List.length htexts
    rw [← hstatements, List.length_map, List.length_map] at hlength
    exact hlength
  · have htext := congrArg (List.map Stmt.text) hsame
    simp only [List.map_map, Function.comp_def, Stmt.relocate_text] at htext
    rw [htext, htexts]
  · have hjoin : String.join ((parse source).1.statements.map Stmt.closedText) = "x;y;return;" := by
      decide +kernel
    rw [← hjoin]
    exact hwritten (by decide +kernel)

end FrontEnd
