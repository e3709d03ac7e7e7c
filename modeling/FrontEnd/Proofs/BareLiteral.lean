import FrontEnd.Proofs.Spelling

/-!
# Literals as sources

The lexer takes a run of decimal digits for an integer. It knows no letter that announces a base, as
the conversion of integers does. So a literal made of digits alone, be it decimal or octal, is a
source that comes to its value; one with a letter is cut at the letter and does not.

* `ReadsAsInteger` — a source that is one integer.

Principal result: `readsAsInteger_iff` (the literals that are sources for their values).
-/

namespace FrontEnd

/-- The source is parsed without diagnostics to a single statement, which is a bare integer of the
value `v` and the text of the source. -/
def ReadsAsInteger (source : String) (v : Int64) : Prop :=
  (parse source).2 = [] ∧
    ∃ first literal span outer, (parse source).1.statements =
        [.expression first (.integer literal v span) outer] ∧ literal.text = source

namespace ReadsAsInteger

variable {source : String} {v : Int64}

/-- A statement that is a certain bare integer but for its places is that integer. -/
theorem exists_integer {statement : Stmt} {literal : Token}
    (h : statement.bare = .expression default (.integer literal v .null) .null) :
    ∃ first literal' span outer, statement = .expression first (.integer literal' v span) outer ∧
      literal'.text = literal.text := by
  cases statement with
  | binding | result => cases h
  | expression first value outer =>
    cases value with
    | identifier | boolean | unary | binary => cases h
    | integer literal' value span =>
      simp only [Stmt.bare, Stmt.relocate, Expr.relocate, Stmt.expression.injEq,
        Expr.integer.injEq] at h
      obtain ⟨-, ⟨rfl, rfl, -⟩, -⟩ := h
      exact ⟨first, literal', span, outer, rfl, rfl⟩

/-- Digits that have a value are read as an integer. -/
theorem of_digits (hvalue : literalValue? source = some v)
    (hdigits : ∀ c ∈ source.toList, c.isDigit = true) : ReadsAsInteger source v := by
  let literal := Token.unplaced .integer source
  let node : Stmt := .expression default (.integer literal v .null) .null
  have hne : source.toList ≠ [] := by
    intro hnil
    obtain rfl : source = "" := String.toList_inj.1 hnil
    have hnone : literalValue? "" = none := by decide +kernel
    rw [hnone] at hvalue
    cases hvalue
  have hwf : ∀ s ∈ [node], s.WellFormed :=
    List.forall_mem_singleton.2 ⟨rfl, hne, hdigits, hvalue⟩
  have hneed : ∀ s ∈ [node], ∀ e ∈ s.value?, e.printedNeed ≤ maxNesting := by
    intro s hs e he
    obtain rfl := List.mem_singleton.1 hs
    obtain rfl : Expr.integer literal v .null = e := Option.some.inj he
    show 1 ≤ maxNesting
    decide
  have htext : textOf [node] = source.toList := by
    rw [textOf_cons]
    exact List.append_nil _
  obtain ⟨hdiag, hstmt⟩ := (rounds_printed hwf trivial 0).1 hneed
  obtain ⟨hdiag', hstmt'⟩ := parse_lexed source
  rw [htext, hdiag', List.map_eq_nil_iff] at hdiag
  rw [htext, hstmt', List.map_singleton, List.map_eq_singleton_iff] at hstmt
  obtain ⟨statement, hstatements, hbare⟩ := hstmt
  obtain ⟨first, literal', span, outer, rfl, hliteral⟩ := exists_integer hbare
  exact ⟨hdiag, first, literal', span, outer, hstatements, hliteral⟩

/-- The integers of a tree are spelt with digits, and have the value of their spelling. -/
theorem digits (h : ReadsAsInteger source v) :
    literalValue? source = some v ∧ ∀ c ∈ source.toList, c.isDigit = true := by
  obtain ⟨-, first, literal, span, outer, hstatements, rfl⟩ := h
  have hmem : Stmt.expression first (.integer literal v span) outer ∈
      (parse literal.text).1.statements := by
    rw [hstatements]
    exact List.mem_singleton_self _
  obtain ⟨-, -, hdigits, hvalue⟩ := parseFile_wellFormed Lexer.defaultFile literal.text _ hmem
  exact ⟨hvalue, hdigits⟩

end ReadsAsInteger

/-- **When a literal is a source for its value.** A source is read as an integer exactly if it is a
literal of that value and is made of digits alone. -/
theorem readsAsInteger_iff (source : String) (v : Int64) :
    ReadsAsInteger source v ↔
      literalValue? source = some v ∧ ∀ c ∈ source.toList, c.isDigit = true :=
  ⟨ReadsAsInteger.digits, fun ⟨hvalue, hdigits⟩ => .of_digits hvalue hdigits⟩

/-- A hexadecimal literal is not read as an integer. -/
theorem not_readsAsInteger_hexadecimal :
    ¬ ∀ source v, literalValue? source = some v → ReadsAsInteger source v := by
  intro h
  obtain ⟨-, first, literal, span, outer, hstatements, -⟩ := h "0x1F" 31 (by decide +kernel)
  have hlength : (parse "0x1F").1.statements.length = 4 := by decide +kernel
  rw [hstatements] at hlength
  cases hlength

end FrontEnd
