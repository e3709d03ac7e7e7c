import FrontEnd.Proofs.Printing
import FrontEnd.Proofs.StatementGrammar

/-!
# Parsing undoes printing

A program that is written out and parsed again comes back as it was, up to places, if its statements
keep apart in the text and no expression takes more levels of nesting, with its parentheses, than
there are.

* `Stmt.bare` — a statement without its places, and a bare expression without its first token.
* `Separable` — statements of which none goes on into the next.
* `Stmt.printed` — the tokens of a statement's text.
* `attempts` — the attempts at the statements of a text.

Principal results: `Stmt.lexed_text` (the tokens of a statement's text), `round_printed` (what an
attempt at them comes to) and `parse_text_iff` (when a program survives being written out).
-/

namespace FrontEnd

open TokenStream

/-! ## Statements up to places -/

/-- The statement at no place. That an expression statement begins with another token once it has
its parentheses does not count either. -/
def Stmt.bare (statement : Stmt) : Stmt :=
  match statement.relocate fun _ => .null with
  | .expression _ value span => .expression default value span
  | statement => statement

def Stmt.value? : Stmt → Option Expr
  | .binding _ _ value _ => some value
  | .result _ value _ => value
  | .expression _ value _ => some value

namespace Stmt

theorem bare_relocate (f : Position → Position) (statement : Stmt) :
    (statement.relocate f).bare = statement.bare := by
  rw [bare, relocate_relocate, bare]
  rfl

theorem text_bare (statement : Stmt) : statement.bare.text = statement.text := by
  rw [← relocate_text (fun _ => .null) statement, bare]
  cases statement <;> rfl

end Stmt

/-! ## The text of a statement -/

/-- The tokens of a statement's text. -/
def Stmt.printed : Stmt → List Token
  | .binding _ name value _ =>
    .unplaced .letWord "let" :: .unplaced .identifier name.value :: .unplaced .assign "=" ::
      (value.printed.tokens ++ [.unplaced .semicolon ";"])
  | .result _ (some value) _ =>
    .unplaced .returnWord "return" :: (value.printed.tokens ++ [.unplaced .semicolon ";"])
  | .result _ none _ => [.unplaced .returnWord "return", .unplaced .semicolon ";"]
  | .expression _ value _ => value.printed.tokens

/-- Whether the last lexeme of a statement's text would take in the character `c` after it. -/
def Stmt.goesOnInto (statement : Stmt) (c : Char) : Bool :=
  match statement with
  | .binding _ _ _ _ => false
  | .result _ _ _ => false
  | .expression _ value _ => value.goesOnInto c

namespace Stmt

theorem exists_head {statement : Stmt} (h : statement.WellFormed) :
    ∃ c cs, statement.text.toList = c :: cs ∧ startsExpr c = true := by
  cases statement with
  | binding token name value span =>
    refine ⟨'l', ("et" ++ " " ++ name.text ++ " = " ++ value.text ++ ";").toList, ?_, rfl⟩
    simp [text, h.2.1, String.toList_append]
  | result token value span =>
    cases value with
    | none => exact ⟨'r', "eturn;".toList, by simp [text, h.2.1], rfl⟩
    | some value =>
      refine ⟨'r', ("eturn" ++ " " ++ value.text ++ ";").toList, ?_, rfl⟩
      simp [text, h.2.1, String.toList_append]
  | expression token value span => exact Expr.exists_head h

/-- The text of a statement is cut into its tokens, in front of any text that the last lexeme does
not go on into. -/
theorem lexed_text {statement : Stmt} (h : statement.WellFormed) {ds : List Char}
    (hds : ∀ d ∈ ds.head?, statement.goesOnInto d = false) :
    lexed (statement.text.toList ++ ds) = statement.printed ++ lexed ds := by
  have hsemi : ∀ e : Expr, ∀ d ∈ (';' :: ds).head?, e.goesOnInto d = false := by
    intro e d hd
    cases hd
    cases e <;> rfl
  have hblank : ∀ cs, ∀ d ∈ (' ' :: cs : List Char).head?, isWordChar d = false := by
    intro cs d hd
    cases hd
    rfl
  cases statement with
  | binding token name value span =>
    obtain ⟨_, htext, hname, hvalue⟩ := h
    have hchars : (binding token name value span).text.toList ++ ds =
        "let".toList ++ ' ' :: (name.value.toList ++ ' ' :: '=' :: ' ' ::
          (value.text.toList ++ ';' :: ds)) := by
      simp [text, Identifier.text, htext, String.toList_append]
    have hassign : ∀ cs, lexed ('=' :: ' ' :: cs) = .unplaced .assign "=" :: lexed cs := by
      intro cs
      rw [lexed_symbol rfl rfl rfl (by simp), lexed_blank rfl]
      rfl
    rw [hchars, lexed_word (by decide) (List.all_eq_true.1 rfl) (hblank _), lexed_blank rfl,
      lexed_word hname.ne_nil hname.word (hblank _), lexed_blank rfl, hassign,
      Expr.lexed_text hvalue (hsemi value), lexed_semicolon, String.ofList_toList,
      String.ofList_toList, hname.not_reserved]
    simp [printed, Token.unplaced, TokenKind.ofWord]
  | result token value span =>
    obtain ⟨_, htext, hvalue⟩ := h
    cases value with
    | none =>
      have hchars : (result token none span).text.toList ++ ds = "return".toList ++ ';' :: ds := by
        simp [text, htext]
      have hend : ∀ d ∈ (';' :: ds).head?, isWordChar d = false := by
        intro d hd
        cases hd
        rfl
      rw [hchars, lexed_word (by decide) (List.all_eq_true.1 rfl) hend, lexed_semicolon,
        String.ofList_toList]
      rfl
    | some value =>
      have hchars : (result token (some value) span).text.toList ++ ds =
          "return".toList ++ ' ' :: (value.text.toList ++ ';' :: ds) := by
        simp [text, htext, String.toList_append]
      rw [hchars, lexed_word (by decide) (List.all_eq_true.1 rfl) (hblank _), lexed_blank rfl,
        Expr.lexed_text (hvalue value rfl) (hsemi value), lexed_semicolon, String.ofList_toList]
      simp [printed, Token.unplaced, TokenKind.ofWord]
  | expression token value span => exact Expr.lexed_text h hds

end Stmt

/-! ## Attempts at a statement's text -/

/-- Whether the tokens after a statement neither go on with its expression nor end it. -/
def Fresh (ts : List Token) : Prop :=
  ∀ t ∈ ts.head?, ¬ BindingPower.lowest < Tables.default.power t.kind ∧ t.kind ≠ .semicolon

/-- Statements begin with words, numbers and parentheses, which end the statement before them. -/
theorem lexed_fresh {ds : List Char} (hds : ∀ d ∈ ds.head?, startsExpr d = true) :
    Fresh (lexed ds) := by
  intro t ht
  cases ds with
  | nil =>
    rw [lexed_nil] at ht
    cases ht
  | cons c cs =>
    have hc : startsExpr c = true := hds c rfl
    simp only [startsExpr, Bool.or_eq_true, decide_eq_true_eq] at hc
    rcases hc with (hword | hdigit) | rfl
    · rw [lexed_first (not_isBlank_of_isWordChar hword), Lexeme.first_word hword] at ht
      cases ht
      simp only [TokenKind.ofWord]
      split <;> decide
    · rw [lexed_first (not_isBlank_of_isDigit hdigit), Lexeme.first_digit hdigit] at ht
      cases ht
      refine ⟨of_decide_eq_true rfl, ?_⟩
      intro h
      cases h
    · rw [lexed_openParen] at ht
      cases ht
      refine ⟨of_decide_eq_true rfl, ?_⟩
      intro h
      cases h

/-- An expression's phrase is read where a semicolon or a new statement comes after it. -/
theorem reads_printed {e : Expr} (h : e.WellFormed) {ts : List Token} (stop : Position) (n : Nat)
    (hts : ∀ t ∈ ts.head?, ¬ BindingPower.lowest < Tables.default.power t.kind) :
    Reads ⟨e.printed.tokens ++ ts, stop, n⟩ .lowest e.printed.tokens e.printed := by
  refine ⟨(Expr.derives_printed h).loosen (by decide), ⟨ts, rfl⟩, ?_⟩
  have hpending : ((⟨e.printed.tokens ++ ts, stop, n⟩ : TokenStream).skip
      e.printed.tokens.length).pending = ts := List.drop_left
  cases ts with
  | nil =>
    rw [current_of_nil hpending]
    exact of_decide_eq_true rfl
  | cons t ts =>
    rw [current_of_cons hpending]
    exact hts t rfl

theorem afterStatement_of_fresh {ts : List Token} (h : Fresh ts) : afterStatement ts = ts := by
  cases ts with
  | nil => rfl
  | cons t ts => exact if_neg (h t rfl).2

/-- What an attempt comes to if all that it takes is the expression `e`: the statement made of it if
it nests no deeper than it may, and a failure otherwise. -/
theorem round_of_value (make : Expr → TokenStream → Stmt) {e : Expr} (h : e.WellFormed)
    {ts : List Token}
    (hts : ∀ t ∈ ts.head?, ¬ BindingPower.lowest < Tables.default.power t.kind)
    {s : TokenStream} {stop : Position} {n : Nat}
    (hparse : parseStmt .default maxNesting s =
      (parseExpr .default maxNesting .lowest ⟨e.printed.tokens ++ ts, stop, n⟩).andThen
        fun value r => .found (make value (r.skipPeek .semicolon)) (r.skipPeek .semicolon)) :
    (e.printedNeed ≤ maxNesting → ∃ r m, s.round .default maxNesting =
      (.ok (make (e.relocate fun _ => .null) r), ⟨afterStatement ts, stop, m⟩)) ∧
      ∀ statement, (s.round .default maxNesting).1 = .ok statement →
        e.printedNeed ≤ maxNesting := by
  have hreads := reads_printed h stop n hts
  rw [← e.need_printed]
  constructor
  · intro hneed
    have hpos := List.length_pos_iff.2 e.printed.tokens_ne_nil
    rw [parseExpr_complete hreads hneed, Outcome.andThen_found, Expr.tree_printed h] at hparse
    obtain ⟨m, hm⟩ := next_skipPeek_semicolon
      ((⟨e.printed.tokens ++ ts, stop, n⟩ : TokenStream).skip (e.printed.tokens.length - 1))
    have hround := round_of_found hparse
    rw [hm, next_skip, Nat.sub_add_cancel hpos, skip_pending, List.drop_left] at hround
    exact ⟨_, m, hround⟩
  · intro statement hround
    cases hvalue : parseExpr .default maxNesting .lowest ⟨e.printed.tokens ++ ts, stop, n⟩ with
    | found e' r =>
      obtain ⟨u, y, hy, hneed, _⟩ := parseExpr_sound maxNesting hvalue
      obtain ⟨_, rfl⟩ := hreads.unique hy
      exact hneed
    | failed d r =>
      rw [hvalue, Outcome.andThen_failed] at hparse
      rw [round_of_failed hparse] at hround
      cases hround

/-- The kinds of token that the text of an expression begins with. -/
theorem kind_printed {e : Expr} (h : e.WellFormed) (ts : List Token) (stop : Position) (n : Nat) :
    (TokenStream.current ⟨e.printed.tokens ++ ts, stop, n⟩).kind ∈
      [TokenKind.identifier, .integer, .trueWord, .falseWord, .openParen] := by
  cases e with
  | identifier | integer | unary | binary => exact of_decide_eq_true rfl
  | boolean token value span =>
    rcases h with ⟨hkind, _⟩ | ⟨hkind, _⟩
    · rw [Expr.printed, hkind]
      exact of_decide_eq_true rfl
    · rw [Expr.printed, hkind]
      exact of_decide_eq_true rfl

theorem ne_of_mem_kinds {kinds : List TokenKind} {kind kind' : TokenKind} (h : kind ∈ kinds)
    (h' : kind' ∉ kinds) : kind ≠ kind' := by
  rintro rfl
  exact h' h

/-- What an attempt at the text of a statement comes to: the statement, if its expression nests no
deeper than it may, and a failure otherwise. -/
theorem round_printed {statement : Stmt} (h : statement.WellFormed) {ts : List Token}
    (hts : Fresh ts) (stop : Position) (n : Nat) :
    ((∀ e ∈ statement.value?, e.printedNeed ≤ maxNesting) → ∃ statement' m,
      TokenStream.round .default maxNesting ⟨statement.printed ++ ts, stop, n⟩ =
        (.ok statement', ⟨ts, stop, m⟩) ∧ statement'.bare = statement.bare) ∧
      ∀ statement', (TokenStream.round .default maxNesting
        ⟨statement.printed ++ ts, stop, n⟩).1 = .ok statement' →
          ∀ e ∈ statement.value?, e.printedNeed ≤ maxNesting := by
  have hsemi : ∀ t ∈ (Token.unplaced .semicolon ";" :: ts).head?,
      ¬ BindingPower.lowest < Tables.default.power t.kind := by
    intro t ht
    cases ht
    decide
  cases statement with
  | binding token name value span =>
    obtain ⟨hkind, htext, hname, hvalue⟩ := h
    have hprinted : (Stmt.binding token name value span).printed ++ ts =
        .unplaced .letWord "let" :: .unplaced .identifier name.value :: .unplaced .assign "=" ::
          (value.printed.tokens ++ .unplaced .semicolon ";" :: ts) := by
      simp [Stmt.printed]
    rw [hprinted]
    obtain ⟨hfound, hneed⟩ := round_of_value
      (fun value r => .binding (.unplaced .letWord "let")
        (.ofToken (.unplaced .identifier name.value)) value ⟨.null, r.current.span.stop⟩)
      hvalue hsemi
      (parseStmt_binding (s := ⟨.unplaced .letWord "let" :: .unplaced .identifier name.value ::
        .unplaced .assign "=" :: (value.printed.tokens ++ .unplaced .semicolon ";" :: ts), stop, n⟩)
        rfl rfl rfl)
    constructor
    · intro hle
      obtain ⟨r, m, hround⟩ := hfound (hle value rfl)
      refine ⟨_, m, hround, ?_⟩
      simp only [Stmt.bare, Stmt.relocate, Expr.relocate_relocate, Function.comp_def,
        Token.relocate, Identifier.relocate, Identifier.ofToken, hkind, htext, hname.kind_eq,
        hname.text_eq]
      rfl
    · intro statement' hround e he
      cases he
      exact hneed statement' hround
  | result token value span =>
    obtain ⟨hkind, htext, hvalue⟩ := h
    cases value with
    | none =>
      refine ⟨fun _ => ⟨.result (.unplaced .returnWord "return") none .null, n + 2, rfl, ?_⟩, ?_⟩
      · simp only [Stmt.bare, Stmt.relocate, Token.relocate, hkind, htext]
        rfl
      · intro _ _ e he
        cases he
    | some value =>
      have hprinted : (Stmt.result token (some value) span).printed ++ ts =
          .unplaced .returnWord "return" ::
            (value.printed.tokens ++ .unplaced .semicolon ";" :: ts) := by
        simp [Stmt.printed]
      rw [hprinted]
      have hstart := kind_printed (hvalue value rfl) (.unplaced .semicolon ";" :: ts) stop (n + 1)
      obtain ⟨hfound, hneed⟩ := round_of_value
        (fun value r => .result (.unplaced .returnWord "return") (some value)
          ⟨.null, r.current.span.stop⟩)
        (hvalue value rfl) hsemi
        (parseStmt_result (s := ⟨.unplaced .returnWord "return" ::
          (value.printed.tokens ++ .unplaced .semicolon ";" :: ts), stop, n⟩) rfl
          (ne_of_mem_kinds hstart (by decide)) (ne_of_mem_kinds hstart (by decide)))
      constructor
      · intro hle
        obtain ⟨r, m, hround⟩ := hfound (hle value rfl)
        refine ⟨_, m, hround, ?_⟩
        simp only [Stmt.bare, Stmt.relocate, Expr.relocate_relocate, Function.comp_def,
          Token.relocate, hkind, htext, Option.map_some]
        rfl
      · intro statement' hround e he
        cases he
        exact hneed statement' hround
  | expression token value span =>
    have hstart := kind_printed h ts stop n
    let first := TokenStream.current ⟨value.printed.tokens ++ ts, stop, n⟩
    have hrule : Tables.default.statementRule first.kind = .expression := by
      simp only [List.mem_cons, List.not_mem_nil, or_false] at hstart
      rcases hstart with h | h | h | h | h <;>
      · rw [show first.kind = _ from h]
        rfl
    obtain ⟨hfound, hneed⟩ := round_of_value
      (fun value _ => .expression first value ⟨first.span.start, value.span.stop⟩)
      h (fun t ht => (hts t ht).1) (parseStmt_expression hrule)
    rw [afterStatement_of_fresh hts] at hfound
    constructor
    · intro hle
      obtain ⟨r, m, hround⟩ := hfound (hle value rfl)
      refine ⟨_, m, hround, ?_⟩
      simp only [Stmt.bare, Stmt.relocate, Expr.relocate_relocate, Function.comp_def]
      rfl
    · intro statement' hround e he
      cases he
      exact hneed statement' hround

/-! ## The text of a program -/

def textOf (statements : List Stmt) : List Char := statements.flatMap fun s => s.text.toList

/-- No statement goes on into the one after it. -/
def Separable : List Stmt → Prop
  | [] => True
  | [_] => True
  | statement :: following :: rest =>
    (∀ c ∈ following.text.toList.head?, statement.goesOnInto c = false) ∧
      Separable (following :: rest)

theorem textOf_cons (statement : Stmt) (statements : List Stmt) :
    textOf (statement :: statements) = statement.text.toList ++ textOf statements :=
  List.flatMap_cons

theorem Program.toList_text (program : Program) :
    program.text.toList = textOf program.statements := by
  have hjoin : ∀ (ss : List Stmt) (s : String),
      ((ss.map Stmt.text).foldl (· ++ ·) s).toList = s.toList ++ textOf ss := by
    intro ss
    induction ss with
    | nil =>
      intro s
      simp [textOf]
    | cons statement ss ih =>
      intro s
      rw [List.map_cons, List.foldl_cons, ih, String.toList_append, List.append_assoc, textOf_cons]
  exact hjoin program.statements ""

theorem head?_textOf {statement : Stmt} (h : statement.WellFormed) (statements : List Stmt) :
    (textOf (statement :: statements)).head? = statement.text.toList.head? := by
  obtain ⟨c, cs, hcs, _⟩ := Stmt.exists_head h
  rw [textOf_cons, hcs]
  rfl

/-- The text of well-formed statements begins like a statement. -/
theorem startsExpr_textOf {statements : List Stmt} (h : ∀ s ∈ statements, s.WellFormed) :
    ∀ d ∈ (textOf statements).head?, startsExpr d = true := by
  intro d hd
  cases statements with
  | nil => cases hd
  | cons statement statements =>
    have hwf := h statement List.mem_cons_self
    obtain ⟨c, cs, hcs, hc⟩ := Stmt.exists_head hwf
    rw [head?_textOf hwf, hcs] at hd
    cases hd
    exact hc

theorem Separable.goesOnInto {statement : Stmt} {statements : List Stmt}
    (h : Separable (statement :: statements)) (hwf : ∀ s ∈ statements, s.WellFormed) :
    ∀ d ∈ (textOf statements).head?, statement.goesOnInto d = false := by
  cases statements with
  | nil =>
    intro d hd
    cases hd
  | cons following rest =>
    rw [head?_textOf (hwf following List.mem_cons_self)]
    exact h.1

theorem Separable.tail {statement : Stmt} {statements : List Stmt}
    (h : Separable (statement :: statements)) : Separable statements := by
  cases statements with
  | nil => trivial
  | cons following rest => exact h.2

/-- The attempts at the statements of a text, whose tokens are taken without their places, when `n`
tokens have been passed before it. -/
def attempts (cs : List Char) (n : Nat) : List (Except Diagnostic Stmt) :=
  TokenStream.rounds .default maxNesting ⟨lexed cs, .null, n⟩

theorem attempts_of_nil {cs : List Char} (h : lexed cs = []) (n : Nat) : attempts cs n = [] := by
  rw [attempts, h]
  exact rounds_of_atEnd (atEnd_of_nil rfl)

theorem attempts_of_ne_nil {cs : List Char} (h : lexed cs ≠ []) (n : Nat) :
    attempts cs n =
      (TokenStream.round .default maxNesting ⟨lexed cs, .null, n⟩).1 ::
        (TokenStream.round .default maxNesting ⟨lexed cs, .null, n⟩).2.rounds .default
          maxNesting := by
  obtain ⟨t, ts, ht⟩ := List.exists_cons_of_ne_nil h
  have hmem : t ∈ lexed cs := by
    rw [ht]
    exact List.mem_cons_self
  obtain ⟨token, htoken, rfl⟩ := List.mem_map.1 hmem
  have hkind : token.kind ≠ .eof := (Lexer.scans_tokens _).kind_ne_eof htoken
  apply rounds_of_not_atEnd
  rw [atEnd, current_of_cons ht]
  exact decide_eq_false hkind

theorem Stmt.printed_ne_nil (statement : Stmt) : statement.printed ≠ [] := by
  cases statement with
  | binding => exact List.cons_ne_nil _ _
  | result _ value _ => cases value <;> exact List.cons_ne_nil _ _
  | expression _ value _ => exact value.printed.tokens_ne_nil

/-- What the attempts at the text of separable statements come to: the statements themselves, and
no diagnostic only if no expression nests deeper than it may. -/
theorem rounds_printed {statements : List Stmt} (hwf : ∀ s ∈ statements, s.WellFormed)
    (hsep : Separable statements) (n : Nat) :
    ((∀ s ∈ statements, ∀ e ∈ s.value?, e.printedNeed ≤ maxNesting) →
      diagnosticsOf (attempts (textOf statements) n) = [] ∧
        (statementsOf (attempts (textOf statements) n)).map Stmt.bare = statements.map Stmt.bare) ∧
      (diagnosticsOf (attempts (textOf statements) n) = [] →
        ∀ s ∈ statements, ∀ e ∈ s.value?, e.printedNeed ≤ maxNesting) := by
  induction statements generalizing n with
  | nil =>
    have hnil : attempts (textOf []) n = [] := attempts_of_nil lexed_nil n
    rw [hnil]
    exact ⟨fun _ => ⟨rfl, rfl⟩, fun _ s hs => nomatch hs⟩
  | cons statement statements ih =>
    have hhead := hwf statement List.mem_cons_self
    have htail : ∀ s ∈ statements, s.WellFormed := fun s hs => hwf s (List.mem_cons_of_mem _ hs)
    have hlexed : lexed (textOf (statement :: statements)) =
        statement.printed ++ lexed (textOf statements) := by
      rw [textOf_cons, Stmt.lexed_text hhead (hsep.goesOnInto htail)]
    have hne : lexed (textOf (statement :: statements)) ≠ [] := by
      rw [hlexed]
      exact List.append_ne_nil_of_left_ne_nil statement.printed_ne_nil _
    rw [attempts_of_ne_nil hne n, hlexed]
    obtain ⟨hfound, hneed⟩ := round_printed hhead
      (lexed_fresh (startsExpr_textOf htail)) .null n
    constructor
    · intro hle
      obtain ⟨statement', m, hround, hbare⟩ := hfound (hle statement List.mem_cons_self)
      obtain ⟨hdiag, hstmt⟩ :=
        (ih htail hsep.tail m).1 fun s hs => hle s (List.mem_cons_of_mem _ hs)
      rw [attempts] at hdiag hstmt
      rw [hround, diagnosticsOf_ok, statementsOf_ok, List.map_cons, List.map_cons, hbare, hstmt]
      exact ⟨hdiag, rfl⟩
    · intro hdiag
      cases hitem : (TokenStream.round .default maxNesting
          ⟨statement.printed ++ lexed (textOf statements), .null, n⟩).1 with
      | error d =>
        rw [hitem] at hdiag
        cases hdiag
      | ok statement' =>
        have hle := hneed statement' hitem
        obtain ⟨_, m, hround, _⟩ := hfound hle
        rw [hround, diagnosticsOf_ok] at hdiag
        intro s hs
        rcases List.mem_cons.1 hs with rfl | hs
        · exact hle
        · exact (ih htail hsep.tail m).2 hdiag s hs

/-- What a source comes to can be told from its tokens without their places. -/
theorem parse_lexed (source : String) :
    diagnosticsOf (attempts source.toList 0) =
        (parse source).2.map (Diagnostic.relocate fun _ => .null) ∧
      (statementsOf (attempts source.toList 0)).map Stmt.bare =
        (parse source).1.statements.map Stmt.bare := by
  have hstream : (⟨lexed source.toList, .null, 0⟩ : TokenStream) =
      (streamOf source).relocate (fun _ => .null) 0 := by
    rw [streamOf_eq, TokenStream.relocate, tokensOf, Lexer.map_relocate_tokens]
    rfl
  rw [attempts, hstream, rounds_relocate, diagnosticsOf_relocate, statementsOf_relocate,
    ← parse_diagnostics, ← parse_statements, List.map_map]
  refine ⟨rfl, List.map_congr_left ?_⟩
  intro statement _
  exact statement.bare_relocate _

/-- **Parsing undoes printing.** Well-formed statements that keep apart come back from their text as
they were, up to places, if and only if none of their expressions nests, in parentheses, deeper than
it may. -/
theorem parse_text_iff (program : Program) (hwf : ∀ s ∈ program.statements, s.WellFormed)
    (hsep : Separable program.statements) :
    ((parse program.text).2 = [] ∧
      (parse program.text).1.statements.map Stmt.bare = program.statements.map Stmt.bare) ↔
        ∀ s ∈ program.statements, ∀ e ∈ s.value?, e.printedNeed ≤ maxNesting := by
  obtain ⟨hdiag, hstmt⟩ := parse_lexed program.text
  obtain ⟨hfound, hneed⟩ := rounds_printed hwf hsep 0
  rw [← program.toList_text, hdiag, hstmt, List.map_eq_nil_iff] at hfound
  rw [← program.toList_text, hdiag, List.map_eq_nil_iff] at hneed
  exact ⟨fun h => hneed h.1, hfound⟩

/-- `let y = (-x);1x` is parsed to the three statements that it was written out from. -/
theorem parse_text_three_statements :
    let x : Expr := .identifier (.ofToken (.unplaced .identifier "x"))
    let y : Identifier := .ofToken (.unplaced .identifier "y")
    let one : Token := .unplaced .integer "1"
    let program : Program :=
      ⟨[.binding (.unplaced .letWord "let") y
          (.unary (.unplaced .minus "-") "-" x .null) .null,
        .expression one (.integer one 1 .null) .null,
        .expression one x .null], .null⟩
    program.text = "let y = (-x);1x" ∧ (parse program.text).2 = [] ∧
      (parse program.text).1.statements.map Stmt.bare = program.statements.map Stmt.bare := by
  intro x y one program
  have hxword : ∀ c ∈ "x".toList, isWordChar c = true := List.all_eq_true.1 rfl
  have hyword : ∀ c ∈ "y".toList, isWordChar c = true := List.all_eq_true.1 rfl
  have hdigit : ∀ c ∈ "1".toList, c.isDigit = true := List.all_eq_true.1 rfl
  have hx : x.WellFormed := ⟨rfl, rfl, by decide, hxword, rfl⟩
  have hy : y.WellFormed := ⟨rfl, rfl, by decide, hyword, rfl⟩
  have hwf : ∀ s ∈ program.statements, s.WellFormed := by
    refine List.forall_mem_cons.2 ⟨⟨rfl, rfl, hy, rfl, List.mem_cons_self, hx⟩, ?_⟩
    refine List.forall_mem_cons.2 ⟨⟨rfl, by decide, hdigit, by decide +kernel⟩, ?_⟩
    exact List.forall_mem_cons.2 ⟨hx, fun _ h => nomatch h⟩
  have hsep : Separable program.statements := by
    refine ⟨?_, ?_, trivial⟩
    · intro c _
      rfl
    · intro c hc
      have hhead : "x".toList.head? = some c := hc
      obtain rfl : 'x' = c := Option.some.inj hhead
      rfl
  have hneed : ∀ s ∈ program.statements, ∀ e ∈ s.value?, e.printedNeed ≤ maxNesting := by
    decide
  exact ⟨by decide +kernel, (parse_text_iff program hwf hsep).2 hneed⟩

end FrontEnd
