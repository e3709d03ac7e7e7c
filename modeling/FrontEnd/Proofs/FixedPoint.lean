import FrontEnd.Proofs.Spelling

/-!
# Writing out what was parsed

A program is written out without anything between its statements. Bare words that follow each other
therefore run together into one word, and bare numbers into one number; if the text is parsed again,
it is the program with such statements fused that comes back, as long as its words are not reserved,
its numbers have values, no word runs into a `let` or `return`, and no expression has become too
deep with its parentheses. Otherwise the text is not what it stands for.

* `fuse` — the statements, with bare words and bare numbers that follow each other made one.
* `Printable` — statements that come back from their text.
* `Stable` — the text of a program is parsed without diagnostics to a program of the same text.
* `Piece`, `Fused` — statements as `fuse` leaves them, which need not be well formed.
* `Rereads` — a text that is parsed without diagnostics to statements of the same text.

Principal results: `textOf_fuse` and `fused_fuse` (what fusing keeps, and what it brings about),
`Fused.printable` (fused statements that come back from their text are printable) and
`stable_iff` (which programs come back from their text).
-/

namespace FrontEnd

open TokenStream

/-! ## Bare words and numbers -/

namespace Stmt

def word? : Stmt → Option String
  | .expression _ (.identifier name) _ => some name.value
  | .expression _ (.boolean token _ _) _ => some token.text
  | _ => none

def digits? : Stmt → Option String
  | .expression _ (.integer token _ _) _ => some token.text
  | _ => none

/-- The statement that a bare word is; a reserved one is taken for a name. -/
def ofWord (word : String) : Stmt :=
  let token := Token.unplaced (.ofWord word) word
  match TokenKind.ofWord word with
  | .trueWord => .expression token (.boolean token true .null) .null
  | .falseWord => .expression token (.boolean token false .null) .null
  | _ => .expression token (.identifier (.ofToken token)) .null

/-- The statement that a bare number is; one without a value is taken for zero. -/
def ofDigits (digits : String) : Stmt :=
  let token := Token.unplaced .integer digits
  .expression token (.integer token ((literalValue? digits).getD 0) .null) .null

/-- The statement in front of others. If it is a bare word or a bare number and so is the first of
the others, they become one. -/
def fuseWith (statement : Stmt) : List Stmt → List Stmt
  | [] => [statement]
  | following :: rest =>
    match statement.word?, following.word? with
    | some v, some w => ofWord (v ++ w) :: rest
    | _, _ =>
      match statement.digits?, following.digits? with
      | some v, some w => ofDigits (v ++ w) :: rest
      | _, _ => statement :: following :: rest

end Stmt

/-- The statements, with bare words that follow each other made one word, and bare numbers one
number. -/
def fuse : List Stmt → List Stmt
  | [] => []
  | statement :: rest => statement.fuseWith (fuse rest)

namespace Stmt

variable {statement : Stmt} {w : String}

theorem text_of_word (h : statement.word? = some w) : statement.text = w := by
  unfold word? at h
  split at h
  · cases h
    rfl
  · cases h
    rfl
  · cases h

theorem text_of_digits (h : statement.digits? = some w) : statement.text = w := by
  unfold digits? at h
  split at h
  · cases h
    rfl
  · cases h

theorem digits?_of_word (h : statement.word? = some w) : statement.digits? = none := by
  unfold word? at h
  split at h
  · rfl
  · rfl
  · cases h

theorem goesOnInto_of_word (h : statement.word? = some w) (d : Char) :
    statement.goesOnInto d = isWordChar d := by
  unfold word? at h
  split at h
  · rfl
  · rfl
  · cases h

theorem goesOnInto_of_digits (h : statement.digits? = some w) (d : Char) :
    statement.goesOnInto d = d.isDigit := by
  unfold digits? at h
  split at h
  · rfl
  · cases h

theorem goesOnInto_of_neither (hword : statement.word? = none) (hdigits : statement.digits? = none)
    (d : Char) : statement.goesOnInto d = false := by
  cases statement with
  | binding | result => rfl
  | expression token value span =>
    cases value with
    | identifier | boolean => cases hword
    | integer => cases hdigits
    | unary | binary => rfl

theorem word?_ofWord (w : String) : (ofWord w).word? = some w := by
  unfold ofWord
  dsimp only
  split <;> rfl

theorem text_ofWord (w : String) : (ofWord w).text = w :=
  text_of_word (word?_ofWord w)

theorem fuseWith_cases (statement following : Stmt) (rest : List Stmt) :
    (∃ v w, statement.word? = some v ∧ following.word? = some w ∧
      statement.fuseWith (following :: rest) = ofWord (v ++ w) :: rest) ∨
    (∃ v w, statement.digits? = some v ∧ following.digits? = some w ∧
      statement.fuseWith (following :: rest) = ofDigits (v ++ w) :: rest) ∨
    ((statement.word? = none ∨ following.word? = none) ∧
      (statement.digits? = none ∨ following.digits? = none) ∧
      statement.fuseWith (following :: rest) = statement :: following :: rest) := by
  simp only [fuseWith]
  split
  · rename_i v w hv hw
    exact .inl ⟨v, w, hv, hw, rfl⟩
  · rename_i hwords
    split
    · rename_i v w hv hw
      exact .inr (.inl ⟨v, w, hv, hw, rfl⟩)
    · rename_i hdigits
      refine .inr (.inr ⟨?_, ?_, rfl⟩)
      · cases hv : statement.word? with
        | none => exact .inl rfl
        | some v =>
          cases hw : following.word? with
          | none => exact .inr rfl
          | some w => exact (hwords v w hv hw).elim
      · cases hv : statement.digits? with
        | none => exact .inl rfl
        | some v =>
          cases hw : following.digits? with
          | none => exact .inr rfl
          | some w => exact (hdigits v w hv hw).elim

end Stmt

/-! ## Fused statements -/

/-- A text of one or more characters, all of them in the class `p`. -/
def RunOf (p : Char → Bool) (w : String) : Prop := w.toList ≠ [] ∧ ∀ c ∈ w.toList, p c = true

theorem RunOf.append {p : Char → Bool} {v w : String} (hv : RunOf p v) (hw : RunOf p w) :
    RunOf p (v ++ w) := by
  rw [RunOf, String.toList_append]
  refine ⟨List.append_ne_nil_of_left_ne_nil hv.1 _, ?_⟩
  intro c hc
  rcases List.mem_append.1 hc with hc | hc
  · exact hv.2 c hc
  · exact hw.2 c hc

/-- A bare word, a bare number, or a well-formed statement that is neither. -/
inductive Piece (statement : Stmt) : Prop where
  | word {w : String} (h : statement.word? = some w) (hrun : RunOf isWordChar w)
    (hwf : TokenKind.ofWord w ∈ [TokenKind.identifier, .trueWord, .falseWord] →
      statement.WellFormed)
  | digits {w : String} (h : statement.digits? = some w) (hrun : RunOf Char.isDigit w)
    (hwf : ∀ value, literalValue? w = some value → statement.WellFormed)
  | other (hword : statement.word? = none) (hdigits : statement.digits? = none)
    (hwf : statement.WellFormed)

/-- Two statements that are neither both bare words nor both bare numbers. -/
def Apart (statement following : Stmt) : Prop :=
  (statement.word? = none ∨ following.word? = none) ∧
    (statement.digits? = none ∨ following.digits? = none)

/-- Statements with no bare words and no bare numbers next to each other. -/
inductive Fused : List Stmt → Prop where
  | nil : Fused []
  | cons {statement : Stmt} {rest : List Stmt} (hpiece : Piece statement)
    (hapart : ∀ following ∈ rest.head?, Apart statement following) (hrest : Fused rest) :
    Fused (statement :: rest)

theorem TokenKind.eq_true_of_ofWord {w : String} (h : TokenKind.ofWord w = .trueWord) :
    w = "true" := by
  unfold ofWord at h
  split at h <;> first | rfl | cases h

theorem TokenKind.eq_false_of_ofWord {w : String} (h : TokenKind.ofWord w = .falseWord) :
    w = "false" := by
  unfold ofWord at h
  split at h <;> first | rfl | cases h

namespace Piece

theorem of_wellFormed {statement : Stmt} (h : statement.WellFormed) : Piece statement := by
  cases statement with
  | binding | result => exact .other rfl rfl h
  | expression token value span =>
    cases value with
    | identifier name => exact .word rfl ⟨h.ne_nil, h.word⟩ fun _ => h
    | integer literal value span => exact .digits rfl ⟨h.2.1, h.2.2.1⟩ fun _ _ => h
    | boolean literal value span =>
      rcases h with ⟨hkind, htext, hvalue⟩ | ⟨hkind, htext, hvalue⟩
      · refine .word rfl ?_ fun _ => .inl ⟨hkind, htext, hvalue⟩
        rw [htext]
        exact ⟨by decide, List.all_eq_true.1 rfl⟩
      · refine .word rfl ?_ fun _ => .inr ⟨hkind, htext, hvalue⟩
        rw [htext]
        exact ⟨by decide, List.all_eq_true.1 rfl⟩
    | unary | binary => exact .other rfl rfl h

theorem ofWord {w : String} (hrun : RunOf isWordChar w) : Piece (.ofWord w) := by
  refine .word (Stmt.word?_ofWord w) hrun ?_
  intro hkind
  cases hw : TokenKind.ofWord w with
  | identifier =>
    simp only [Stmt.ofWord, hw]
    exact ⟨rfl, rfl, hrun.1, hrun.2, hw⟩
  | trueWord =>
    simp only [Stmt.ofWord, hw]
    exact .inl ⟨rfl, TokenKind.eq_true_of_ofWord hw, rfl⟩
  | falseWord =>
    simp only [Stmt.ofWord, hw]
    exact .inr ⟨rfl, TokenKind.eq_false_of_ofWord hw, rfl⟩
  | _ =>
    rw [hw] at hkind
    exact absurd hkind (by decide)

theorem ofDigits {w : String} (hrun : RunOf Char.isDigit w) : Piece (.ofDigits w) := by
  refine .digits (w := w) rfl hrun ?_
  intro value hvalue
  refine ⟨rfl, hrun.1, hrun.2, ?_⟩
  show literalValue? w = some ((literalValue? w).getD 0)
  rw [hvalue]
  rfl

theorem exists_head {statement : Stmt} (h : Piece statement) :
    ∃ c cs, statement.text.toList = c :: cs ∧ startsExpr c = true := by
  cases h with
  | word h hrun _ =>
    obtain ⟨c, cs, hcs⟩ := List.exists_cons_of_ne_nil hrun.1
    have hc := hrun.2 c (by rw [hcs]; exact List.mem_cons_self)
    exact ⟨c, cs, by rw [Stmt.text_of_word h, hcs], by simp [startsExpr, hc]⟩
  | digits h hrun _ =>
    obtain ⟨c, cs, hcs⟩ := List.exists_cons_of_ne_nil hrun.1
    have hc := hrun.2 c (by rw [hcs]; exact List.mem_cons_self)
    exact ⟨c, cs, by rw [Stmt.text_of_digits h, hcs], by simp [startsExpr, hc]⟩
  | other _ _ hwf => exact Stmt.exists_head hwf

end Piece

/-- Fusing keeps the text. -/
theorem textOf_fuseWith (statement : Stmt) (statements : List Stmt) :
    textOf (statement.fuseWith statements) = statement.text.toList ++ textOf statements := by
  cases statements with
  | nil => rfl
  | cons following rest =>
    rcases statement.fuseWith_cases following rest with ⟨v, w, hv, hw, h⟩ | ⟨v, w, hv, hw, h⟩ |
      ⟨_, _, h⟩
    · rw [h, textOf_cons, textOf_cons, Stmt.text_ofWord, Stmt.text_of_word hv,
        Stmt.text_of_word hw, String.toList_append, List.append_assoc]
    · have hdigits : (Stmt.ofDigits (v ++ w)).text = v ++ w := rfl
      rw [h, textOf_cons, textOf_cons, hdigits, Stmt.text_of_digits hv, Stmt.text_of_digits hw,
        String.toList_append, List.append_assoc]
    · rw [h, textOf_cons]

theorem textOf_fuse (statements : List Stmt) : textOf (fuse statements) = textOf statements := by
  induction statements with
  | nil => rfl
  | cons statement rest ih => rw [fuse, textOf_fuseWith, ih, textOf_cons]

theorem Piece.run_of_word {statement : Stmt} (h : Piece statement) {w : String}
    (hw : statement.word? = some w) : RunOf isWordChar w := by
  cases h with
  | word hw' hrun _ =>
    rw [hw] at hw'
    cases hw'
    exact hrun
  | digits hdigits _ _ =>
    rw [Stmt.digits?_of_word hw] at hdigits
    cases hdigits
  | other hword _ _ =>
    rw [hw] at hword
    cases hword

theorem Piece.run_of_digits {statement : Stmt} (h : Piece statement) {w : String}
    (hw : statement.digits? = some w) : RunOf Char.isDigit w := by
  cases h with
  | word hword _ _ =>
    rw [Stmt.digits?_of_word hword] at hw
    cases hw
  | digits hw' hrun _ =>
    rw [hw] at hw'
    cases hw'
    exact hrun
  | other _ hdigits _ =>
    rw [hw] at hdigits
    cases hdigits

theorem Fused.fuseWith {statement : Stmt} {statements : List Stmt} (hpiece : Piece statement)
    (h : Fused statements) : Fused (statement.fuseWith statements) := by
  cases h with
  | nil => exact .cons hpiece (fun _ h => nomatch h) .nil
  | @cons following rest hfollowing hapart hrest =>
    rcases statement.fuseWith_cases following rest with ⟨v, w, hv, hw, h⟩ | ⟨v, w, hv, hw, h⟩ |
      ⟨hwords, hdigits, h⟩
    · rw [h]
      have hrun := (hpiece.run_of_word hv).append (hfollowing.run_of_word hw)
      refine .cons (.ofWord hrun) ?_ hrest
      intro next hnext
      refine ⟨.inr ?_, .inl (Stmt.digits?_of_word (Stmt.word?_ofWord _))⟩
      have hnone := (hapart next hnext).1
      rw [hw] at hnone
      simpa using hnone
    · rw [h]
      have hrun := (hpiece.run_of_digits hv).append (hfollowing.run_of_digits hw)
      refine .cons (.ofDigits hrun) ?_ hrest
      intro next hnext
      refine ⟨.inl rfl, .inr ?_⟩
      have hnone := (hapart next hnext).2
      rw [hw] at hnone
      simpa using hnone
    · rw [h]
      refine .cons hpiece ?_ (.cons hfollowing hapart hrest)
      intro next hnext
      cases hnext
      exact ⟨hwords, hdigits⟩

theorem fused_fuse {statements : List Stmt} (h : ∀ s ∈ statements, s.WellFormed) :
    Fused (fuse statements) := by
  induction statements with
  | nil => exact .nil
  | cons statement rest ih =>
    have hpiece := Piece.of_wellFormed (h statement List.mem_cons_self)
    exact .fuseWith hpiece (ih fun s hs => h s (List.mem_cons_of_mem _ hs))

/-! ## Statements that come back from their text -/

/-- Well-formed statements that keep apart, and none of which nests, in parentheses, deeper than it
may. -/
structure Printable (statements : List Stmt) : Prop where
  wellFormed : ∀ s ∈ statements, s.WellFormed
  separable : Separable statements
  shallow : ∀ s ∈ statements, ∀ e ∈ s.value?, e.printedNeed ≤ maxNesting

theorem Printable.cons {statement : Stmt} {statements : List Stmt} (h : Printable statements)
    (hwf : statement.WellFormed) (hneed : ∀ e ∈ statement.value?, e.printedNeed ≤ maxNesting)
    (hseam : ∀ d ∈ (textOf statements).head?, statement.goesOnInto d = false) :
    Printable (statement :: statements) := by
  refine ⟨List.forall_mem_cons.2 ⟨hwf, h.wellFormed⟩, ?_,
    List.forall_mem_cons.2 ⟨hneed, h.shallow⟩⟩
  cases statements with
  | nil => trivial
  | cons following rest =>
    rw [head?_textOf (h.wellFormed following List.mem_cons_self)] at hseam
    exact ⟨hseam, h.separable⟩

theorem Fused.startsExpr {statements : List Stmt} (h : Fused statements) :
    ∀ d ∈ (textOf statements).head?, startsExpr d = true := by
  intro d hd
  cases h with
  | nil => cases hd
  | cons hpiece _ _ =>
    obtain ⟨c, cs, hcs, hc⟩ := hpiece.exists_head
    rw [textOf_cons, hcs] at hd
    cases hd
    exact hc

/-! ## Reading a text again -/

/-- The text is parsed without diagnostics to statements of the same text. -/
structure Rereads (cs : List Char) (n : Nat) : Prop where
  clean : diagnosticsOf (attempts cs n) = []
  same : textOf (statementsOf (attempts cs n)) = cs

/-- The first attempt at a text that is parsed without diagnostics finds a statement, and so do
those after it. -/
theorem exists_found {cs : List Char} {n : Nat} (hne : lexed cs ≠ [])
    (hdiag : diagnosticsOf (attempts cs n) = []) :
    ∃ statement r, parseStmt .default maxNesting ⟨lexed cs, .null, n⟩ = .found statement r ∧
      diagnosticsOf (r.next.rounds .default maxNesting) = [] ∧
      textOf (statementsOf (attempts cs n)) =
        statement.text.toList ++ textOf (statementsOf (r.next.rounds .default maxNesting)) ∧
      ∀ d ∈ (textOf (statementsOf (r.next.rounds .default maxNesting))).head?,
        startsExpr d = true := by
  have hspelt : TokenStream.Spelt ⟨lexed cs, .null, n⟩ := lexed_spelt cs
  rw [attempts_of_ne_nil hne n] at hdiag ⊢
  cases ho : parseStmt .default maxNesting ⟨lexed cs, .null, n⟩ with
  | found statement r =>
    have hreach := parseStmt_reaches .default maxNesting ⟨lexed cs, .null, n⟩
    rw [ho] at hreach
    rw [round_of_found ho] at hdiag ⊢
    refine ⟨statement, r, rfl, hdiag, textOf_cons _ _, ?_⟩
    exact startsExpr_textOf (rounds_wellFormed ((hreach.trans (Reaches.next r)).spelt hspelt))
  | failed d r =>
    rw [round_of_failed ho] at hdiag
    cases hdiag

/-- A well-formed statement that keeps apart from what follows comes back from its text, and leaves
what follows to be read. -/
theorem shallow_of_seam {statement : Stmt} (hwf : statement.WellFormed) {cs : List Char}
    (hstart : ∀ d ∈ cs.head?, startsExpr d = true)
    (hseam : ∀ d ∈ cs.head?, statement.goesOnInto d = false) {n : Nat}
    (h : Rereads (statement.text.toList ++ cs) n) :
    (∀ e ∈ statement.value?, e.printedNeed ≤ maxNesting) ∧ ∃ m, Rereads cs m := by
  have hlexed := Stmt.lexed_text hwf hseam
  have hne : lexed (statement.text.toList ++ cs) ≠ [] := by
    rw [hlexed]
    exact List.append_ne_nil_of_left_ne_nil statement.printed_ne_nil _
  obtain ⟨statement', r, hparse, hclean, hsame, _⟩ := exists_found hne h.clean
  rw [h.same] at hsame
  rw [hlexed] at hparse
  have hround := round_of_found hparse
  obtain ⟨hfound, hneed⟩ := round_printed hwf (lexed_fresh hstart) .null n
  have hle := hneed statement' (by rw [hround])
  obtain ⟨statement'', m, hround', hbare⟩ := hfound hle
  rw [hround, Prod.mk.injEq, Except.ok.injEq] at hround'
  obtain ⟨rfl, hnext⟩ := hround'
  have htext : statement'.text = statement.text := by
    rw [← statement'.text_bare, hbare, statement.text_bare]
  rw [hnext] at hclean hsame
  rw [htext] at hsame
  exact ⟨hle, m, hclean, (List.append_cancel_left hsame).symm⟩

/-! ### Texts that do not come back -/

def TokenKind.reserved : List String := ["fn", "let", "true", "false", "return", "if", "else"]

theorem TokenKind.ofWord_eq_identifier {w : String} (h : w ∉ reserved) :
    ofWord w = .identifier := by
  unfold ofWord
  split
  case h_8 => rfl
  all_goals exact absurd (by simp [reserved]) h

/-- No reserved word ends with a keyword, but for the keyword itself. -/
theorem TokenKind.not_mem_reserved_append {w k : String} (hw : w.toList ≠ [])
    (hk : k = "let" ∨ k = "return") : w ++ k ∉ reserved := by
  have hshort : ∀ v ∈ reserved, v.toList.length ≤ k.toList.length ∨
      v.toList.getLast? ≠ k.toList.getLast? := by
    rcases hk with rfl | rfl <;> decide
  intro hmem
  have hpos := List.length_pos_iff.2 hw
  rcases hshort _ hmem with hlength | hlast
  · rw [String.toList_append, List.length_append] at hlength
    omega
  · apply hlast
    rw [String.toList_append, List.getLast?_append]
    rcases hk with rfl | rfl <;> rfl

/-- A bare word that runs into a keyword takes it in; what follows the keyword begins no statement,
so it is not written as it was. -/
theorem not_rereads_of_keyword {w k : String} (hrun : RunOf isWordChar w)
    (hk : k = "let" ∨ k = "return") {d : Char} {cs : List Char} (hd : d = ' ' ∨ d = ';')
    (hfresh : ∀ t ∈ (lexed (d :: cs)).head?,
      ¬ BindingPower.lowest < Tables.default.power t.kind) {n : Nat} :
    ¬ Rereads (w.toList ++ (k.toList ++ d :: cs)) n := by
  intro h
  have hrun' : RunOf isWordChar (w ++ k) := by
    apply hrun.append
    rcases hk with rfl | rfl
    · exact ⟨by decide, List.all_eq_true.1 rfl⟩
    · exact ⟨by decide, List.all_eq_true.1 rfl⟩
  let token := Token.unplaced .identifier (w ++ k)
  have hkind := TokenKind.ofWord_eq_identifier (TokenKind.not_mem_reserved_append hrun.1 hk)
  have hlexed : lexed (w.toList ++ (k.toList ++ d :: cs)) = token :: lexed (d :: cs) := by
    have hend : ∀ d' ∈ (d :: cs).head?, isWordChar d' = false := by
      intro d' hd'
      cases hd'
      rcases hd with rfl | rfl
      · rfl
      · rfl
    rw [← List.append_assoc, ← String.toList_append, lexed_word hrun'.1 hrun'.2 hend,
      String.ofList_toList, hkind]
    rfl
  have hname : (Expr.identifier (.ofToken token)).WellFormed :=
    ⟨rfl, rfl, hrun'.1, hrun'.2, hkind⟩
  obtain ⟨_, m, hround⟩ := (round_of_value
    (fun value _ => .expression token value ⟨token.span.start, value.span.stop⟩) hname hfresh
    (parseStmt_expression (s := ⟨token :: lexed (d :: cs), .null, n⟩) rfl)).1 (by
      rw [Expr.printedNeed, maxNesting]
      omega)
  have hne : lexed (w.toList ++ (k.toList ++ d :: cs)) ≠ [] := by
    rw [hlexed]
    exact List.cons_ne_nil _ _
  obtain ⟨statement, r, hparse, _, hsame, hstart⟩ := exists_found hne h.clean
  rw [hlexed] at hparse
  rw [round_of_found hparse, Prod.mk.injEq, Except.ok.injEq] at hround
  rw [h.same, hround.1, ← List.append_assoc, ← String.toList_append] at hsame
  have hrest := List.append_cancel_left hsame
  rw [← hrest] at hstart
  have hd' := hstart d rfl
  rcases hd with rfl | rfl
  · cases hd'
  · cases hd'

/-- The texts of statements that are neither bare words nor bare numbers begin in three ways. -/
theorem head_of_neither {statement : Stmt} (hwf : statement.WellFormed)
    (hword : statement.word? = none) (hdigits : statement.digits? = none) :
    statement.text.toList.head? ∈ [some 'l', some 'r', some '('] := by
  cases statement with
  | binding token name value span => simp [Stmt.text, hwf.2.1, String.toList_append]
  | result token value span =>
    cases value with
    | none => simp [Stmt.text, hwf.2.1]
    | some value => simp [Stmt.text, hwf.2.1, String.toList_append]
  | expression token value span =>
    cases value with
    | identifier | boolean => cases hword
    | integer => cases hdigits
    | unary | binary => simp [Stmt.text, Expr.text, String.toList_append]

/-- A well-formed statement that begins with a letter, and is more than a word, begins with a
keyword that ends where no statement begins. -/
theorem exists_keyword {statement : Stmt} (hwf : statement.WellFormed)
    (hword : statement.word? = none) (hdigits : statement.digits? = none) {c : Char}
    (hhead : statement.text.toList.head? = some c) (hc : isWordChar c = true) :
    ∃ k d cs, (k = "let" ∨ k = "return") ∧ (d = ' ' ∨ d = ';') ∧
      statement.text.toList = k.toList ++ d :: cs ∧
      ∀ ds, ∀ t ∈ (lexed (d :: (cs ++ ds))).head?,
        ¬ BindingPower.lowest < Tables.default.power t.kind := by
  -- the value of a binding or a result is read where a statement might begin
  have hblank : ∀ cs : List Char, (∀ d ∈ cs.head?, startsExpr d = true) →
      ∀ t ∈ (lexed (' ' :: cs)).head?, ¬ BindingPower.lowest < Tables.default.power t.kind := by
    intro cs hcs t ht
    rw [lexed_blank rfl] at ht
    exact (lexed_fresh hcs t ht).1
  cases statement with
  | binding token name value span =>
    obtain ⟨_, htext, hname, _⟩ := hwf
    obtain ⟨e, es, hes⟩ := List.exists_cons_of_ne_nil hname.ne_nil
    have he := hname.word e (by rw [hes]; exact List.mem_cons_self)
    refine ⟨"let", ' ', name.value.toList ++ (" = " ++ value.text ++ ";").toList, .inl rfl, .inl rfl,
      ?_, ?_⟩
    · simp [Stmt.text, Identifier.text, htext, String.toList_append]
    · intro ds
      refine hblank _ ?_
      intro d hd
      rw [hes] at hd
      cases hd
      simp [startsExpr, he]
  | result token value span =>
    obtain ⟨_, htext, hvalue⟩ := hwf
    cases value with
    | none =>
      refine ⟨"return", ';', [], .inr rfl, .inr rfl, by simp [Stmt.text, htext], ?_⟩
      intro ds t ht
      rw [lexed_semicolon] at ht
      cases ht
      decide
    | some value =>
      obtain ⟨e, es, hes, he⟩ := Expr.exists_head (hvalue value rfl)
      refine ⟨"return", ' ', value.text.toList ++ [';'], .inr rfl, .inl rfl, ?_, ?_⟩
      · simp [Stmt.text, htext, String.toList_append]
      · intro ds
        refine hblank _ ?_
        intro d hd
        rw [hes] at hd
        cases hd
        exact he
  | expression token value span =>
    cases value with
    | identifier | boolean => cases hword
    | integer => cases hdigits
    | unary token operator right span =>
      have hparen : c = '(' := by
        simpa [Stmt.text, Expr.text, String.toList_append, eq_comm] using hhead
      rw [hparen] at hc
      cases hc
    | binary token left operator right span =>
      have hparen : c = '(' := by
        simpa [Stmt.text, Expr.text, String.toList_append, eq_comm] using hhead
      rw [hparen] at hc
      cases hc

theorem reserved_cases {w : String}
    (h : TokenKind.ofWord w ∉ [TokenKind.identifier, .trueWord, .falseWord]) :
    (w = "fn" ∨ w = "if" ∨ w = "else") ∨ w = "let" ∨ w = "return" := by
  unfold TokenKind.ofWord at h
  split at h <;> simp_all

/-- A number or a parenthesis begins what follows a bare word. -/
theorem kind_of_seam {cs : List Char} (hstart : ∀ d ∈ cs.head?, startsExpr d = true)
    (hseam : ∀ d ∈ cs.head?, isWordChar d = false) :
    ∀ t ∈ (lexed cs).head?, t.kind = .integer ∨ t.kind = .openParen := by
  intro t ht
  cases cs with
  | nil =>
    rw [lexed_nil] at ht
    cases ht
  | cons c cs =>
    have hc : startsExpr c = true := hstart c rfl
    rw [startsExpr, hseam c rfl, Bool.false_or, Bool.or_eq_true, decide_eq_true_eq] at hc
    rcases hc with hdigit | rfl
    · rw [lexed_first (not_isBlank_of_isDigit hdigit), Lexeme.first_digit hdigit] at ht
      cases ht
      exact .inl rfl
    · rw [lexed_openParen] at ht
      cases ht
      exact .inr rfl

theorem toList_of_result {operand : OperandParser} {ts : List Token} {stop : Position} {n : Nat}
    {statement : Stmt} {r : TokenStream}
    (h : StatementRule.result.run operand ⟨.unplaced .returnWord "return" :: ts, stop, n⟩ =
      .found statement r) :
    ∃ d ds, (d = ' ' ∨ d = ';') ∧ statement.text.toList = "return".toList ++ d :: ds := by
  simp only [StatementRule.run] at h
  split at h
  · cases h
    exact ⟨';', [], .inr rfl, by simp [Stmt.text, TokenStream.current, Token.unplaced]⟩
  · obtain ⟨value, r', _, h⟩ := Outcome.andThen_eq_found.1 h
    cases h
    refine ⟨' ', value.text.toList ++ [';'], .inl rfl, ?_⟩
    simp [Stmt.text, TokenStream.current, Token.unplaced, String.toList_append]

/-- Bare words that run together to a reserved word do not come back. -/
theorem not_rereads_of_reserved {w : String} (hrun : RunOf isWordChar w)
    (hkind : TokenKind.ofWord w ∉ [TokenKind.identifier, .trueWord, .falseWord]) {cs : List Char}
    (hstart : ∀ d ∈ cs.head?, startsExpr d = true)
    (hseam : ∀ d ∈ cs.head?, isWordChar d = false) {n : Nat} : ¬ Rereads (w.toList ++ cs) n := by
  intro h
  have hlexed : lexed (w.toList ++ cs) = .unplaced (.ofWord w) w :: lexed cs := by
    rw [lexed_word hrun.1 hrun.2 hseam, String.ofList_toList]
    rfl
  have hne : lexed (w.toList ++ cs) ≠ [] := by
    rw [hlexed]
    exact List.cons_ne_nil _ _
  obtain ⟨statement, r, hparse, _, hsame, _⟩ := exists_found hne h.clean
  rw [hlexed] at hparse
  rcases reserved_cases hkind with hnone | rfl | rfl
  · rcases hnone with rfl | rfl | rfl
    · cases (show Outcome.failed _ _ = Outcome.found statement r from hparse)
    · cases (show Outcome.failed _ _ = Outcome.found statement r from hparse)
    · cases (show Outcome.failed _ _ = Outcome.found statement r from hparse)
  · -- a binding needs a name
    have hrun' : StatementRule.binding.run (parseExpr .default maxNesting)
        ⟨.unplaced .letWord "let" :: lexed cs, .null, n⟩ = .found statement r := hparse
    obtain ⟨_, s₁, hname, _⟩ := Outcome.andThen_eq_found.1 hrun'
    obtain ⟨rfl, hname⟩ := expectPeek_found hname
    have hkinds := kind_of_seam hstart hseam
    cases hcs : lexed cs with
    | nil =>
      rw [hcs] at hname
      cases hname
    | cons t ts =>
      rw [hcs] at hname hkinds
      have hidentifier : t.kind = .identifier := hname
      rcases hkinds t rfl with hk | hk
      · rw [hidentifier] at hk
        cases hk
      · rw [hidentifier] at hk
        cases hk
  · -- a result is written with a blank or a semicolon after the word
    have hrun' : StatementRule.result.run (parseExpr .default maxNesting)
        ⟨.unplaced .returnWord "return" :: lexed cs, .null, n⟩ = .found statement r := hparse
    obtain ⟨d, ds, hd, hchars⟩ := toList_of_result hrun'
    rw [h.same, hchars, List.append_assoc] at hsame
    have hcs := List.append_cancel_left hsame
    have hd' := hstart d (by rw [hcs]; rfl)
    rcases hd with rfl | rfl
    · cases hd'
    · cases hd'

/-- Bare numbers that run together to one without a value do not come back. -/
theorem not_rereads_of_badInteger {w : String} (hrun : RunOf Char.isDigit w)
    (hvalue : literalValue? w = none) {cs : List Char}
    (hseam : ∀ d ∈ cs.head?, d.isDigit = false) {n : Nat} : ¬ Rereads (w.toList ++ cs) n := by
  intro h
  have hlexed : lexed (w.toList ++ cs) = .unplaced .integer w :: lexed cs := by
    rw [lexed_digits hrun.1 hrun.2 hseam, String.ofList_toList]
    rfl
  have hne : lexed (w.toList ++ cs) ≠ [] := by
    rw [hlexed]
    exact List.cons_ne_nil _ _
  obtain ⟨statement, r, hparse, _⟩ := exists_found hne h.clean
  rw [hlexed, parseStmt_expression rfl] at hparse
  obtain ⟨e, r', hfound, _⟩ := Outcome.andThen_eq_found.1 hparse
  have hliteral : PrefixRule.integer.run (parseExpr .default 127)
      ⟨.unplaced .integer w :: lexed cs, .null, n⟩ =
        .failed ⟨.badInteger w, .null⟩ ⟨.unplaced .integer w :: lexed cs, .null, n⟩ := by
    have hvalue' : literalValue?
        (TokenStream.current ⟨.unplaced .integer w :: lexed cs, .null, n⟩).text = none := hvalue
    simp only [PrefixRule.run, hvalue']
    rfl
  have hexpr : parseExpr .default maxNesting .lowest
      ⟨.unplaced .integer w :: lexed cs, .null, n⟩ =
        (PrefixRule.integer.run (parseExpr .default 127)
          ⟨.unplaced .integer w :: lexed cs, .null, n⟩).andThen fun left s =>
            climb .default (parseExpr .default 127) .lowest s.pending left s := rfl
  rw [hexpr, hliteral] at hfound
  cases hfound

theorem Piece.not_isDigit_head {statement : Stmt} (h : Piece statement)
    (hdigits : statement.digits? = none) : ∀ d ∈ statement.text.toList.head?, d.isDigit = false := by
  intro d hd
  cases h with
  | word hword hrun _ =>
    rw [Stmt.text_of_word hword] at hd
    exact Lexeme.not_isDigit_of_isWordChar (hrun.2 d (List.mem_of_head? hd))
  | digits hsome _ _ =>
    rw [hdigits] at hsome
    cases hsome
  | other hword _ hwf =>
    have hhead := head_of_neither hwf hword hdigits
    simp only [List.mem_cons, List.not_mem_nil, or_false] at hhead
    rcases hhead with hhead | hhead | hhead
    · rw [hhead] at hd
      cases hd
      rfl
    · rw [hhead] at hd
      cases hd
      rfl
    · rw [hhead] at hd
      cases hd
      rfl

/-- Only another number would make a bare number longer. -/
theorem Fused.seam_of_digits {statement : Stmt} {rest : List Stmt} {w : String}
    (hdigits : statement.digits? = some w)
    (hapart : ∀ following ∈ rest.head?, Apart statement following) (hrest : Fused rest) :
    ∀ d ∈ (textOf rest).head?, d.isDigit = false := by
  intro d hd
  cases hrest with
  | nil => cases hd
  | @cons following rest hpiece _ _ =>
    have hnone : following.digits? = none := by
      have h := (hapart following rfl).2
      rw [hdigits] at h
      simpa using h
    obtain ⟨c, cs, hcs, _⟩ := hpiece.exists_head
    rw [textOf_cons, hcs] at hd
    apply hpiece.not_isDigit_head hnone d
    rw [hcs]
    exact hd

/-- Only a keyword makes a bare word longer. -/
theorem Fused.seam_of_word {statement : Stmt} {rest : List Stmt} {w : String}
    (hword : statement.word? = some w)
    (hapart : ∀ following ∈ rest.head?, Apart statement following) (hrest : Fused rest) :
    (∀ d ∈ (textOf rest).head?, isWordChar d = false) ∨
      ∃ k d cs, (k = "let" ∨ k = "return") ∧ (d = ' ' ∨ d = ';') ∧
        textOf rest = k.toList ++ d :: cs ∧
          ∀ t ∈ (lexed (d :: cs)).head?, ¬ BindingPower.lowest < Tables.default.power t.kind := by
  cases hrest with
  | nil =>
    left
    intro d hd
    cases hd
  | @cons following rest hpiece _ _ =>
    have hnone : following.word? = none := by
      have h := (hapart following rfl).1
      rw [hword] at h
      simpa using h
    obtain ⟨c, cs, hcs, _⟩ := hpiece.exists_head
    cases hc : isWordChar c with
    | false =>
      left
      intro d hd
      rw [textOf_cons, hcs] at hd
      cases hd
      exact hc
    | true =>
      right
      cases hpiece with
      | word hsome _ _ =>
        rw [hnone] at hsome
        cases hsome
      | digits hsome hrun _ =>
        have hdigit := hrun.2 c (by
          rw [← Stmt.text_of_digits hsome, hcs]
          exact List.mem_cons_self)
        rw [Lexeme.not_isDigit_of_isWordChar hc] at hdigit
        cases hdigit
      | other _ hdigits hwf =>
        obtain ⟨k, d, ds, hk, hd, hchars, hfresh⟩ :=
          exists_keyword hwf hnone hdigits (by rw [hcs]; rfl) hc
        refine ⟨k, d, ds ++ textOf rest, hk, hd, ?_, hfresh (textOf rest)⟩
        rw [textOf_cons, hchars, List.append_assoc]
        rfl

/-- **Fused statements whose text comes back are printable.** The first statement that keeps them
from being so shows: its text is given a diagnostic, or it is found as something else. -/
theorem Fused.printable {statements : List Stmt} (h : Fused statements) {n : Nat}
    (hagain : Rereads (textOf statements) n) : Printable statements := by
  induction h generalizing n with
  | nil =>
    refine ⟨?_, trivial, ?_⟩
    · intro s hs
      cases hs
    · intro s hs
      cases hs
  | @cons statement rest hpiece hapart hrest ih =>
    rw [textOf_cons] at hagain
    have hstart := hrest.startsExpr
    -- a well-formed statement that keeps apart from the rest leaves the rest to the hypothesis
    have hgood : statement.WellFormed →
        (∀ d ∈ (textOf rest).head?, statement.goesOnInto d = false) →
          Printable (statement :: rest) := by
      intro hwf hseam
      obtain ⟨hle, m, hrest'⟩ := shallow_of_seam hwf hstart hseam hagain
      exact (ih hrest').cons hwf hle hseam
    cases hpiece with
    | other hword hdigits hwf =>
      exact hgood hwf fun d _ => Stmt.goesOnInto_of_neither hword hdigits d
    | digits hdigits hrun hwf =>
      rename_i w
      have hseam := Fused.seam_of_digits hdigits hapart hrest
      cases hvalue : literalValue? w with
      | none =>
        rw [Stmt.text_of_digits hdigits] at hagain
        exact absurd hagain (not_rereads_of_badInteger hrun hvalue hseam)
      | some value =>
        refine hgood (hwf value hvalue) fun d hd => ?_
        rw [Stmt.goesOnInto_of_digits hdigits]
        exact hseam d hd
    | word hword hrun hwf =>
      rename_i w
      rw [Stmt.text_of_word hword] at hagain
      rcases Fused.seam_of_word hword hapart hrest with hseam | hkeyword
      · by_cases hkind : TokenKind.ofWord w ∈ [TokenKind.identifier, .trueWord, .falseWord]
        · rw [← Stmt.text_of_word hword] at hagain
          refine hgood (hwf hkind) fun d hd => ?_
          rw [Stmt.goesOnInto_of_word hword]
          exact hseam d hd
        · exact absurd hagain (not_rereads_of_reserved hrun hkind hstart hseam)
      · obtain ⟨k, d, cs, hk, hd, hchars, hfresh⟩ := hkeyword
        rw [hchars] at hagain
        exact absurd hagain (not_rereads_of_keyword hrun hk hd hfresh)

/-! ## Programs that come back from their text -/

/-- The text of a program is parsed without diagnostics, to a program of the same text. -/
def Stable (program : Program) : Prop :=
  (parse program.text).2 = [] ∧ (parse program.text).1.text = program.text

theorem textOf_bare (statements : List Stmt) :
    textOf (statements.map Stmt.bare) = textOf statements := by
  induction statements with
  | nil => rfl
  | cons statement rest ih => rw [List.map_cons, textOf_cons, textOf_cons, ih, Stmt.text_bare]

/-- Whether a program comes back shows in the tokens of its text. -/
theorem stable_iff_rereads (program : Program) :
    Stable program ↔ Rereads (textOf program.statements) 0 := by
  obtain ⟨hdiag, hstmt⟩ := parse_lexed program.text
  have hclean : (parse program.text).2 = [] ↔
      diagnosticsOf (attempts program.text.toList 0) = [] := by
    rw [hdiag, List.map_eq_nil_iff]
  have hsame : (parse program.text).1.text = program.text ↔
      textOf (statementsOf (attempts program.text.toList 0)) = program.text.toList := by
    rw [← String.toList_inj, Program.toList_text, ← textOf_bare (statementsOf _), hstmt,
      textOf_bare]
  rw [← program.toList_text, Stable, hclean, hsame]
  constructor
  · rintro ⟨hclean, hsame⟩
    exact ⟨hclean, hsame⟩
  · rintro ⟨hclean, hsame⟩
    exact ⟨hclean, hsame⟩

/-- **A parsed program comes back from its text** if and only if its statements, with bare words and
bare numbers that follow each other fused, are printable. -/
theorem stable_iff (source : String) :
    Stable (parse source).1 ↔ Printable (fuse (parse source).1.statements) := by
  have hfused := fused_fuse (parseFile_wellFormed Lexer.defaultFile source)
  rw [stable_iff_rereads, ← textOf_fuse]
  constructor
  · intro hagain
    exact hfused.printable hagain
  · rintro ⟨hwf, hsep, hneed⟩
    obtain ⟨hdiag, hstmt⟩ := (rounds_printed hwf hsep 0).1 hneed
    refine ⟨hdiag, ?_⟩
    rw [← textOf_bare (statementsOf _), hstmt, textOf_bare]

/-- Two numbers that are read without diagnostics are written as `09`, which has no value. -/
theorem not_stable_of_two_numbers : (parse "0 9").2 = [] ∧ ¬ Stable (parse "0 9").1 := by
  refine ⟨by decide +kernel, ?_⟩
  intro h
  exact absurd h.1 (by decide +kernel)

end FrontEnd
