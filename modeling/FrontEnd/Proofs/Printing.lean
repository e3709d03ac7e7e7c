import FrontEnd.Proofs.ExpressionGrammar
import FrontEnd.Proofs.Tokenization

/-!
# Trees written out

The text of a tree is cut into the tokens that the tree was made from, with a pair of parentheses
around every operator and its operands. The tokens of a text are taken without their places here,
since a text does not tell where it will stand.

* `lexed` — the tokens of a text, without their places.
* `Expr.WellFormed`, `Stmt.WellFormed` — trees whose tokens can be written as they are.
* `Expr.printed` — the phrase that the text of an expression is.
* `Expr.goesOnInto` — whether an expression's last lexeme would take in the next character.

Principal results: `Expr.lexed_text` (the tokens of an expression's text), `Expr.derives_printed`
(they form a phrase) and `Expr.tree_printed` (whose syntax tree is the expression).
-/

namespace FrontEnd

/-! ## Tokens without places -/

/-- The tokens of a text, without their places. -/
def lexed (cs : List Char) : List Token :=
  (Lexer.tokens ⟨Lexer.defaultFile, 0, 0, cs⟩).map (Token.relocate fun _ => .null)

namespace Lexer

/-- The tokens of a text do not depend on where it stands. -/
theorem Scans.map_relocate_eq {l m : Lexer} {ts us : List Token} (h : Scans l ts)
    (h' : Scans m us) (hrest : l.rest = m.rest) :
    ts.map (Token.relocate fun _ => .null) = us.map (Token.relocate fun _ => .null) := by
  have hskip : ∀ l m : Lexer, l.rest = m.rest → l.skipBlanks.rest = m.skipBlanks.rest := by
    intro l m hrest
    rw [skipBlanks, skipBlanks, hrest]
  induction h generalizing m us with
  | done h =>
    rw [hskip _ m hrest] at h
    cases h' with
    | done => rfl
    | token h'' _ =>
      rw [h] at h''
      cases h''
  | token h hs ih =>
    rw [hskip _ m hrest] at h
    cases h' with
    | done h'' =>
      rw [h] at h''
      cases h''
    | token h'' hs' =>
      rw [h] at h''
      cases h''
      rw [List.map_cons, List.map_cons, ih hs' rfl]
      rfl

theorem map_relocate_tokens (l : Lexer) :
    l.tokens.map (Token.relocate fun _ => .null) = lexed l.rest :=
  l.scans_tokens.map_relocate_eq (scans_tokens _) rfl

end Lexer

theorem lexed_nil : lexed [] = [] := by
  rw [lexed, (Lexer.Scans.done rfl).tokens_eq, List.map_nil]

theorem lexed_blank {c : Char} (h : isBlank c = true) (cs : List Char) :
    lexed (c :: cs) = lexed cs := by
  have hskip : (⟨Lexer.defaultFile, 0, 0, c :: cs⟩ : Lexer).skipBlanks =
      (⟨Lexer.defaultFile, byteLength [c], 0, cs⟩ : Lexer).skipBlanks := by
    simp only [Lexer.skipBlanks, List.takeWhile_cons_of_pos h, List.dropWhile_cons_of_pos h,
      byteLength_cons, byteLength_nil, Nat.zero_add, Nat.add_zero]
  have hscans := (Lexer.scans_tokens ⟨Lexer.defaultFile, byteLength [c], 0, cs⟩).of_skipBlanks_eq
    hskip
  rw [lexed, hscans.tokens_eq, Lexer.map_relocate_tokens]

theorem lexed_first {c : Char} (h : isBlank c = false) (cs : List Char) :
    lexed (c :: cs) =
      ⟨(Lexeme.first c cs).kind, String.ofList (Lexeme.first c cs).text, .null⟩ ::
        lexed (Lexeme.first c cs).rest := by
  let l : Lexer := ⟨Lexer.defaultFile, 0, 0, c :: cs⟩
  have hrest : l.skipBlanks.rest = c :: cs := List.dropWhile_cons_of_neg (by rw [h]; decide)
  have hscans := Lexer.Scans.token hrest (Lexer.scans_tokens _)
  rw [lexed, show Lexer.tokens ⟨_, 0, 0, c :: cs⟩ = _ from hscans.tokens_eq, List.map_cons,
    Lexer.map_relocate_tokens]
  rfl

theorem lexed_word {w ds : List Char} (hne : w ≠ []) (hw : ∀ c ∈ w, isWordChar c = true)
    (hds : ∀ d ∈ ds.head?, isWordChar d = false) :
    lexed (w ++ ds) = ⟨.ofWord (String.ofList w), String.ofList w, .null⟩ :: lexed ds := by
  obtain ⟨c, cs, rfl⟩ := List.exists_cons_of_ne_nil hne
  have hc := hw c List.mem_cons_self
  have hrun := run_eq (fun d hd => hw d (List.mem_cons_of_mem c hd)) hds
  rw [List.cons_append, lexed_first (not_isBlank_of_isWordChar hc), Lexeme.first_word hc, hrun.1,
    hrun.2]

theorem lexed_digits {w ds : List Char} (hne : w ≠ []) (hw : ∀ c ∈ w, c.isDigit = true)
    (hds : ∀ d ∈ ds.head?, d.isDigit = false) :
    lexed (w ++ ds) = ⟨.integer, String.ofList w, .null⟩ :: lexed ds := by
  obtain ⟨c, cs, rfl⟩ := List.exists_cons_of_ne_nil hne
  have hc := hw c List.mem_cons_self
  have hrun := run_eq (fun d hd => hw d (List.mem_cons_of_mem c hd)) hds
  rw [List.cons_append, lexed_first (not_isBlank_of_isDigit hc), Lexeme.first_digit hc, hrun.1,
    hrun.2]

/-- What the parentheses, the assignment sign and the semicolon of a text are cut into. -/
theorem lexed_symbol {c : Char} {cs : List Char} (hblank : isBlank c = false)
    (hword : isWordChar c = false) (hdigit : c.isDigit = false)
    (hpair : Lexeme.pairs c = true → cs.head? ≠ some '=') :
    lexed (c :: cs) = ⟨.ofSymbol c, String.ofList [c], .null⟩ :: lexed cs := by
  rw [lexed_first hblank, Lexeme.first_symbol hword hdigit hpair]

/-! ## Well-formed trees -/

def unaryOperators : List (TokenKind × String) := [(.minus, "-"), (.bang, "!")]

def binaryOperators : List (TokenKind × String) :=
  [(.equal, "=="), (.notEqual, "!="), (.less, "<"), (.greater, ">"), (.plus, "+"), (.minus, "-"),
    (.star, "*"), (.slash, "/")]

/-- A name is a word that is not reserved. -/
structure Identifier.WellFormed (name : Identifier) : Prop where
  kind_eq : name.token.kind = .identifier
  text_eq : name.token.text = name.value
  ne_nil : name.value.toList ≠ []
  word : ∀ c ∈ name.value.toList, isWordChar c = true
  not_reserved : TokenKind.ofWord name.value = .identifier

/-- An expression whose tokens spell what its nodes say. -/
def Expr.WellFormed : Expr → Prop
  | .identifier name => name.WellFormed
  | .integer token value _ =>
    token.kind = .integer ∧ token.text.toList ≠ [] ∧
      (∀ c ∈ token.text.toList, c.isDigit = true) ∧ literalValue? token.text = some value
  | .boolean token value _ =>
    token.kind = .trueWord ∧ token.text = "true" ∧ value = true ∨
      token.kind = .falseWord ∧ token.text = "false" ∧ value = false
  | .unary token operator right _ =>
    token.text = operator ∧ (token.kind, operator) ∈ unaryOperators ∧ right.WellFormed
  | .binary token left operator right _ =>
    token.text = operator ∧ (token.kind, operator) ∈ binaryOperators ∧ left.WellFormed ∧
      right.WellFormed

/-- A statement whose tokens spell what its nodes say. -/
def Stmt.WellFormed : Stmt → Prop
  | .binding token name value _ =>
    token.kind = .letWord ∧ token.text = "let" ∧ name.WellFormed ∧ value.WellFormed
  | .result token value _ =>
    token.kind = .returnWord ∧ token.text = "return" ∧ ∀ e ∈ value, e.WellFormed
  | .expression _ value _ => value.WellFormed

/-! ## The tokens of a text -/

/-- A token that is written as it is, at no place. -/
def Token.unplaced (kind : TokenKind) (text : String) : Token := ⟨kind, text, .null⟩

/-- The phrase that the text of an expression is. -/
def Expr.printed : Expr → Phrase
  | .identifier name => .identifier (.unplaced .identifier name.value)
  | .integer token value _ => .integer (.unplaced .integer token.text) value
  | .boolean token _ _ => .boolean (.unplaced token.kind token.text)
  | .unary token operator right _ =>
    .group (.unplaced .openParen "(") (.unary (.unplaced token.kind operator) right.printed)
      (.unplaced .closeParen ")")
  | .binary token left operator right _ =>
    .group (.unplaced .openParen "(")
      (.binary left.printed (.unplaced token.kind operator) right.printed)
      (.unplaced .closeParen ")")

/-- The levels of nesting that the text of an expression takes. -/
def Expr.printedNeed : Expr → Nat
  | .identifier _ => 1
  | .integer _ _ _ => 1
  | .boolean _ _ _ => 1
  | .unary _ _ right _ => 2 + right.printedNeed
  | .binary _ left _ right _ => max (1 + left.printedNeed) (2 + right.printedNeed)

/-- Whether the last lexeme of an expression's text would take in the character `c` after it. -/
def Expr.goesOnInto (e : Expr) (c : Char) : Bool :=
  match e with
  | .identifier _ => isWordChar c
  | .integer _ _ _ => c.isDigit
  | .boolean _ _ _ => isWordChar c
  | .unary _ _ _ _ => false
  | .binary _ _ _ _ _ => false

theorem exists_level_of_mem {kind : TokenKind} {operator : String}
    (h : (kind, operator) ∈ binaryOperators) : ∃ l : Level, kind ∈ l.operators := by
  simp only [binaryOperators, List.mem_cons, Prod.mk.injEq, List.not_mem_nil, or_false] at h
  rcases h with ⟨rfl, _⟩ | ⟨rfl, _⟩ | ⟨rfl, _⟩ | ⟨rfl, _⟩ | ⟨rfl, _⟩ | ⟨rfl, _⟩ | ⟨rfl, _⟩ |
    ⟨rfl, _⟩
  · exact ⟨.equality, by decide⟩
  · exact ⟨.equality, by decide⟩
  · exact ⟨.relation, by decide⟩
  · exact ⟨.relation, by decide⟩
  · exact ⟨.sum, by decide⟩
  · exact ⟨.sum, by decide⟩
  · exact ⟨.product, by decide⟩
  · exact ⟨.product, by decide⟩

namespace Expr

theorem need_printed (e : Expr) : e.printed.need = e.printedNeed := by
  induction e with
  | identifier | integer | boolean => rfl
  | unary token operator right span ih =>
    rw [printed, Phrase.need, Phrase.need, ih, printedNeed]
    omega
  | binary token left operator right span ihl ihr =>
    rw [printed, Phrase.need, Phrase.need, ihl, ihr, printedNeed]
    omega

/-- The text of an expression forms a phrase of the tightest level. -/
theorem derives_printed {e : Expr} (h : e.WellFormed) :
    Derives .unary e.printed.tokens e.printed := by
  induction e with
  | identifier name => exact .identifier rfl
  | integer token value span => exact .integer rfl h.2.2.2
  | boolean token value span =>
    refine .boolean ?_
    rcases h with ⟨hkind, _⟩ | ⟨hkind, _⟩
    · exact .inl hkind
    · exact .inr hkind
  | unary token operator right span ih =>
    obtain ⟨_, hop, hright⟩ := h
    have hkind : token.kind = .minus ∨ token.kind = .bang := by
      simp only [unaryOperators, List.mem_cons, Prod.mk.injEq, List.not_mem_nil, or_false] at hop
      rcases hop with ⟨h, _⟩ | ⟨h, _⟩
      · exact .inl h
      · exact .inr h
    have hinner : Derives .unary (.unplaced token.kind operator :: right.printed.tokens)
        (.unary (.unplaced token.kind operator) right.printed) := .unary hkind (ih hright)
    exact .group rfl (hinner.loosen (by decide)) rfl
  | binary token left operator right span ihl ihr =>
    obtain ⟨_, hop, hleft, hright⟩ := h
    obtain ⟨l, hmem⟩ := exists_level_of_mem hop
    have hinner : Derives l
        (left.printed.tokens ++ .unplaced token.kind operator :: right.printed.tokens)
        (.binary left.printed (.unplaced token.kind operator) right.printed) := by
      refine .chain ((ihl hleft).loosen ?_) hmem ((ihr hright).loosen ?_)
      · cases l <;> decide
      · cases l <;> decide
    exact .group rfl (hinner.loosen (by cases l <;> decide)) rfl

/-- The text of an expression stands for the expression. -/
theorem tree_printed {e : Expr} (h : e.WellFormed) :
    e.printed.tree = e.relocate fun _ => .null := by
  induction e with
  | identifier name =>
    obtain ⟨token, value, span⟩ := name
    obtain ⟨kind, text, place⟩ := token
    obtain ⟨hkind, htext, _⟩ := h
    obtain rfl : kind = .identifier := hkind
    obtain rfl : text = value := htext
    rfl
  | integer token value span =>
    obtain ⟨kind, text, place⟩ := token
    obtain rfl : kind = .integer := h.1
    rfl
  | boolean token value span =>
    obtain ⟨kind, text, place⟩ := token
    rcases h with ⟨hkind, _, rfl⟩ | ⟨hkind, _, rfl⟩
    · obtain rfl : kind = .trueWord := hkind
      rfl
    · obtain rfl : kind = .falseWord := hkind
      rfl
  | unary token operator right span ih =>
    obtain ⟨rfl, _, hright⟩ := h
    simp only [printed, Phrase.tree, ih hright, relocate_span]
    rfl
  | binary token left operator right span ihl ihr =>
    obtain ⟨rfl, _, hleft, hright⟩ := h
    simp only [printed, Phrase.tree, ihl hleft, ihr hright, relocate_span]
    rfl

end Expr

/-! ## Cutting the text of an expression -/

def startsExpr (c : Char) : Bool := isWordChar c || c.isDigit || c = '('

theorem ne_equals_of_startsExpr {c : Char} (h : startsExpr c = true) : c ≠ '=' := by
  rintro rfl
  cases h

theorem lexed_openParen (cs : List Char) :
    lexed ('(' :: cs) = .unplaced .openParen "(" :: lexed cs :=
  lexed_symbol rfl rfl rfl (fun h => nomatch h)

theorem lexed_closeParen (cs : List Char) :
    lexed (')' :: cs) = .unplaced .closeParen ")" :: lexed cs :=
  lexed_symbol rfl rfl rfl (fun h => nomatch h)

theorem lexed_semicolon (cs : List Char) :
    lexed (';' :: cs) = .unplaced .semicolon ";" :: lexed cs :=
  lexed_symbol rfl rfl rfl (fun h => nomatch h)

/-- An operator before its operand is cut off where the operand begins. -/
theorem lexed_unaryOperator {kind : TokenKind} {operator : String}
    (h : (kind, operator) ∈ unaryOperators) {cs : List Char} (hcs : cs.head? ≠ some '=') :
    lexed (operator.toList ++ cs) = .unplaced kind operator :: lexed cs := by
  simp only [unaryOperators, List.mem_cons, Prod.mk.injEq, List.not_mem_nil, or_false] at h
  rcases h with ⟨rfl, rfl⟩ | ⟨rfl, rfl⟩
  · exact lexed_symbol rfl rfl rfl (fun h => nomatch h)
  · exact lexed_symbol rfl rfl rfl (fun _ => hcs)

/-- An operator between its operands is cut off at the blank after it. -/
theorem lexed_binaryOperator {kind : TokenKind} {operator : String}
    (h : (kind, operator) ∈ binaryOperators) (cs : List Char) :
    lexed (operator.toList ++ ' ' :: cs) = .unplaced kind operator :: lexed cs := by
  rw [← lexed_blank (show isBlank ' ' = true from rfl) cs]
  simp only [binaryOperators, List.mem_cons, Prod.mk.injEq, List.not_mem_nil, or_false] at h
  rcases h with ⟨rfl, rfl⟩ | ⟨rfl, rfl⟩ | ⟨rfl, rfl⟩ | ⟨rfl, rfl⟩ | ⟨rfl, rfl⟩ | ⟨rfl, rfl⟩ |
    ⟨rfl, rfl⟩ | ⟨rfl, rfl⟩ <;>
  exact lexed_first rfl _

namespace Expr

theorem exists_head {e : Expr} (h : e.WellFormed) :
    ∃ c cs, e.text.toList = c :: cs ∧ startsExpr c = true := by
  cases e with
  | identifier name =>
    obtain ⟨c, cs, hcs⟩ := List.exists_cons_of_ne_nil h.ne_nil
    have hc := h.word c (by rw [hcs]; exact List.mem_cons_self)
    exact ⟨c, cs, hcs, by simp [startsExpr, hc]⟩
  | integer token value span =>
    obtain ⟨c, cs, hcs⟩ := List.exists_cons_of_ne_nil h.2.1
    have hc := h.2.2.1 c (by rw [hcs]; exact List.mem_cons_self)
    exact ⟨c, cs, hcs, by simp [startsExpr, hc]⟩
  | boolean token value span =>
    rcases h with ⟨_, htext, _⟩ | ⟨_, htext, _⟩
    · exact ⟨'t', ['r', 'u', 'e'], by rw [text, htext]; rfl, rfl⟩
    · exact ⟨'f', ['a', 'l', 's', 'e'], by rw [text, htext]; rfl, rfl⟩
  | unary token operator right span =>
    refine ⟨'(', (operator ++ right.text ++ ")").toList, ?_, rfl⟩
    simp [text, String.toList_append]
  | binary token left operator right span =>
    refine ⟨'(', (left.text ++ " " ++ operator ++ " " ++ right.text ++ ")").toList, ?_, rfl⟩
    simp [text, String.toList_append]

/-- **The text of an expression is cut into the tokens of its phrase**, in front of any text that
the last lexeme does not go on into. -/
theorem lexed_text {e : Expr} (h : e.WellFormed) {ds : List Char}
    (hds : ∀ d ∈ ds.head?, e.goesOnInto d = false) :
    lexed (e.text.toList ++ ds) = e.printed.tokens ++ lexed ds := by
  induction e generalizing ds with
  | identifier name =>
    rw [text, Identifier.text, lexed_word h.ne_nil h.word hds, String.ofList_toList,
      h.not_reserved]
    rfl
  | integer token value span =>
    rw [text, lexed_digits h.2.1 h.2.2.1 hds, String.ofList_toList]
    rfl
  | boolean token value span =>
    rcases h with ⟨hkind, htext, _⟩ | ⟨hkind, htext, _⟩
    · rw [text, htext, lexed_word (by decide) (List.all_eq_true.1 rfl) hds, printed, hkind, htext]
      rfl
    · rw [text, htext, lexed_word (by decide) (List.all_eq_true.1 rfl) hds, printed, hkind, htext]
      rfl
  | unary token operator right span ih =>
    obtain ⟨_, hop, hright⟩ := h
    obtain ⟨c, cs, hcs, hc⟩ := exists_head hright
    have hchars : (unary token operator right span).text.toList ++ ds =
        '(' :: (operator.toList ++ (right.text.toList ++ ')' :: ds)) := by
      simp [text, String.toList_append]
    have hhead : (right.text.toList ++ ')' :: ds).head? ≠ some '=' := by
      rw [hcs, List.cons_append, List.head?_cons, ne_eq, Option.some.injEq]
      exact ne_equals_of_startsExpr hc
    have hclose : ∀ d ∈ (')' :: ds).head?, right.goesOnInto d = false := by
      intro d hd
      cases hd
      cases right <;> rfl
    rw [hchars, lexed_openParen, lexed_unaryOperator hop hhead, ih hright hclose,
      lexed_closeParen]
    simp [printed, Phrase.tokens]
  | binary token left operator right span ihl ihr =>
    obtain ⟨_, hop, hleft, hright⟩ := h
    have hchars : (binary token left operator right span).text.toList ++ ds =
        '(' :: (left.text.toList ++ ' ' :: (operator.toList ++ ' ' ::
          (right.text.toList ++ ')' :: ds))) := by
      simp [text, String.toList_append]
    have hblank : ∀ cs, ∀ d ∈ (' ' :: cs : List Char).head?, left.goesOnInto d = false := by
      intro cs d hd
      cases hd
      cases left <;> rfl
    have hclose : ∀ d ∈ (')' :: ds).head?, right.goesOnInto d = false := by
      intro d hd
      cases hd
      cases right <;> rfl
    rw [hchars, lexed_openParen, ihl hleft (hblank _), lexed_blank rfl, lexed_binaryOperator hop,
      ihr hright hclose, lexed_closeParen]
    simp [printed, Phrase.tokens]

end Expr

end FrontEnd
