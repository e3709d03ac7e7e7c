import FrontEnd.Proofs.Coverage
import FrontEnd.Proofs.Spelling

/-!
# Texts tell trees apart

Written out, every operator stands in parentheses with its operands, so that a text shows how they
are grouped. Two trees that are written alike are one tree, up to the places of their tokens. This
does not come from reading the text back, for a tree may be too deep for that once it has all its
parentheses. But the text is cut into the tokens of one phrase, whatever its depth, and no other
phrase has these tokens.

Principal results: `Expr.text_eq_iff` and `Stmt.text_eq_iff` (well-formed trees), and
`parseFile_text_eq_iff`, which says it of what is found in sources.
-/

namespace FrontEnd

open TokenStream

/-! ## Well-formed nodes -/

/-- What a well-formed expression is made of is well formed. -/
theorem Expr.WellFormed.of_mem_nodes {e f : Expr} (h : e.WellFormed) (hf : f ∈ e.nodes) :
    f.WellFormed := by
  induction e with
  | identifier | integer | boolean =>
    rw [List.mem_singleton.1 hf]
    exact h
  | unary token operator right span ih =>
    rcases List.mem_cons.1 hf with rfl | hf
    · exact h
    · exact ih h.2.2 hf
  | binary token left operator right span ihl ihr =>
    rcases List.mem_cons.1 hf with rfl | hf
    · exact h
    · rcases List.mem_append.1 hf with hf | hf
      · exact ihl h.2.2.1 hf
      · exact ihr h.2.2.2 hf

theorem Stmt.WellFormed.of_mem_expressions {statement : Stmt} (h : statement.WellFormed) {e : Expr}
    (he : e ∈ statement.expressions) : e.WellFormed := by
  cases statement with
  | binding token name value span =>
    rcases List.mem_cons.1 he with rfl | he
    · exact h.2.2.1
    · exact h.2.2.2.of_mem_nodes he
  | result token value span =>
    cases value with
    | none => cases he
    | some value => exact (h.2.2 value rfl).of_mem_nodes he
  | expression token value span => exact Expr.WellFormed.of_mem_nodes h he

/-! ## Expressions -/

namespace Expr

variable {e f : Expr}

/-- The tokens of a text leave no choice of phrase. -/
theorem printed_inj (he : e.WellFormed) (hf : f.WellFormed)
    (h : e.printed.tokens = f.printed.tokens) : e.printed = f.printed := by
  have hnone : ∀ t ∈ ([] : List Token).head?,
      ¬ BindingPower.lowest < Tables.default.power t.kind := fun t ht => nomatch ht
  have hreads := reads_printed he .null 0 hnone
  have hreads' := reads_printed hf .null 0 hnone
  rw [← h] at hreads'
  exact (hreads'.unique hreads).2

theorem relocate_eq_of_tokens_eq (he : e.WellFormed) (hf : f.WellFormed)
    (h : e.printed.tokens = f.printed.tokens) :
    e.relocate (fun _ => .null) = f.relocate fun _ => .null := by
  rw [← tree_printed he, ← tree_printed hf, printed_inj he hf h]

theorem lexed_text_self (he : e.WellFormed) : lexed e.text.toList = e.printed.tokens := by
  have hnone : ∀ d ∈ ([] : List Char).head?, e.goesOnInto d = false := fun d hd => nomatch hd
  have htext := lexed_text he hnone
  rwa [List.append_nil, lexed_nil, List.append_nil] at htext

/-- **Expressions that are written alike are alike**, up to their places. -/
theorem text_eq_iff (he : e.WellFormed) (hf : f.WellFormed) :
    e.text = f.text ↔ e.relocate (fun _ => .null) = f.relocate fun _ => .null := by
  constructor
  · intro h
    apply relocate_eq_of_tokens_eq he hf
    rw [← lexed_text_self he, ← lexed_text_self hf, h]
  · intro h
    rw [← relocate_text (fun _ => .null) e, h, relocate_text]

end Expr

/-! ## Statements -/

namespace Stmt

variable {x y : Stmt}

/-- The kinds of token that the text of a statement begins with: they tell its form. -/
def leads : Stmt → List TokenKind
  | .binding .. => [.letWord]
  | .result .. => [.returnWord]
  | .expression .. => [.identifier, .integer, .trueWord, .falseWord, .openParen]

theorem exists_printed_eq_cons (hx : x.WellFormed) :
    ∃ t ts, x.printed = t :: ts ∧ t.kind ∈ x.leads := by
  cases x with
  | binding token name value span => exact ⟨_, _, rfl, List.mem_singleton.2 rfl⟩
  | result token value span =>
    cases value with
    | none => exact ⟨_, _, rfl, List.mem_singleton.2 rfl⟩
    | some value => exact ⟨_, _, rfl, List.mem_singleton.2 rfl⟩
  | expression token value span =>
    obtain ⟨t, ts, hts⟩ := List.exists_cons_of_ne_nil value.printed.tokens_ne_nil
    have hkind := kind_printed hx [] .null 0
    rw [hts] at hkind
    exact ⟨t, ts, hts, hkind⟩

/-- The tokens of a statement's text tell the form of the statement. -/
theorem leads_eq_of_printed_eq (hx : x.WellFormed) (hy : y.WellFormed)
    (h : x.printed = y.printed) : x.leads = y.leads := by
  obtain ⟨t, ts, hts, hkind⟩ := exists_printed_eq_cons hx
  obtain ⟨u, us, hus, hkind'⟩ := exists_printed_eq_cons hy
  obtain ⟨rfl, rfl⟩ := List.cons.inj (hts.symm.trans (h.trans hus))
  cases x with
  | binding =>
    rw [List.mem_singleton.1 hkind] at hkind'
    cases y with
    | binding => rfl
    | result | expression => simp [leads] at hkind'
  | result =>
    rw [List.mem_singleton.1 hkind] at hkind'
    cases y with
    | result => rfl
    | binding | expression => simp [leads] at hkind'
  | expression =>
    cases y with
    | expression => rfl
    | binding | result =>
      rw [List.mem_singleton.1 hkind'] at hkind
      simp [leads] at hkind

theorem printed_result (token : Token) (value : Option Expr) (span : Span) :
    (result token value span).printed = .unplaced .returnWord "return" ::
      (value.elim [] (fun e => e.printed.tokens) ++ [.unplaced .semicolon ";"]) := by
  cases value <;> rfl

/-- A result with a value is not taken for one without. -/
theorem map_relocate_eq_of_printed_eq {token token' : Token} {value value' : Option Expr}
    {span span' : Span} (hvalue : ∀ e ∈ value, e.WellFormed) (hvalue' : ∀ e ∈ value', e.WellFormed)
    (h : (result token value span).printed = (result token' value' span').printed) :
    value.map (Expr.relocate fun _ => .null) = value'.map (Expr.relocate fun _ => .null) := by
  rw [printed_result, printed_result] at h
  have htokens := List.append_cancel_right (List.cons.inj h).2
  cases value with
  | none =>
    cases value' with
    | none => rfl
    | some e' => exact absurd htokens.symm e'.printed.tokens_ne_nil
  | some e =>
    cases value' with
    | none => exact absurd htokens e.printed.tokens_ne_nil
    | some e' =>
      have heq := Expr.relocate_eq_of_tokens_eq (hvalue e rfl) (hvalue' e' rfl) htokens
      rw [Option.map_some, Option.map_some, heq]

/-- Statements with the same tokens hold the same expression, up to its places. -/
theorem bare_eq_of_printed_eq (hx : x.WellFormed) (hy : y.WellFormed) (h : x.printed = y.printed) :
    x.bare = y.bare := by
  have hleads := leads_eq_of_printed_eq hx hy h
  cases x with
  | binding token name value span =>
    cases y with
    | binding token' name' value' span' =>
      obtain ⟨hkind, htext, hname, hvalue⟩ := hx
      obtain ⟨hkind', htext', hname', hvalue'⟩ := hy
      simp only [printed, List.cons.injEq, Token.unplaced, Token.mk.injEq, true_and, and_true,
        List.append_cancel_right_eq] at h
      simp only [bare, relocate, Token.relocate, Identifier.relocate, hkind, hkind', htext, htext',
        hname.kind_eq, hname'.kind_eq, hname.text_eq, hname'.text_eq, h.1,
        Expr.relocate_eq_of_tokens_eq hvalue hvalue' h.2]
      rfl
    | result | expression => cases hleads
  | result token value span =>
    cases y with
    | result token' value' span' =>
      obtain ⟨hkind, htext, hvalue⟩ := hx
      obtain ⟨hkind', htext', hvalue'⟩ := hy
      have hvalues := map_relocate_eq_of_printed_eq hvalue hvalue' h
      simp only [bare, relocate, Token.relocate, hkind, hkind', htext, htext', hvalues]
      rfl
    | binding | expression => cases hleads
  | expression token value span =>
    cases y with
    | expression token' value' span' =>
      rw [bare, bare, relocate, relocate, Expr.relocate_eq_of_tokens_eq hx hy h]
      rfl
    | binding | result => cases hleads

theorem lexed_text_self (hx : x.WellFormed) : lexed x.text.toList = x.printed := by
  have hnone : ∀ d ∈ ([] : List Char).head?, x.goesOnInto d = false := fun d hd => nomatch hd
  have htext := lexed_text hx hnone
  rwa [List.append_nil, lexed_nil, List.append_nil] at htext

/-- **Statements that are written alike are alike**, up to their places and the first tokens of bare
expressions. -/
theorem text_eq_iff (hx : x.WellFormed) (hy : y.WellFormed) :
    x.text = y.text ↔ x.bare = y.bare := by
  constructor
  · intro h
    apply bare_eq_of_printed_eq hx hy
    rw [← lexed_text_self hx, ← lexed_text_self hy, h]
  · intro h
    rw [← text_bare x, h, text_bare]

end Stmt

/-! ## Sources -/

/-- **Texts tell apart what is found in sources**: of the statements and expressions that are found
in any two sources, with or without diagnostics, two have the same text if and only if they are the
same up to their places and, for a bare expression, the token that it begins with. -/
theorem parseFile_text_eq_iff (file file' source source' : String) :
    (∀ x ∈ (parseFile file source).1.statements, ∀ y ∈ (parseFile file' source').1.statements,
      (x.text = y.text ↔ x.bare = y.bare)) ∧
    ∀ x ∈ (parseFile file source).1.statements, ∀ y ∈ (parseFile file' source').1.statements,
      ∀ e ∈ x.expressions, ∀ f ∈ y.expressions,
        (e.text = f.text ↔ e.relocate (fun _ => .null) = f.relocate fun _ => .null) := by
  have hx := parseFile_wellFormed file source
  have hy := parseFile_wellFormed file' source'
  constructor
  · intro x hmem y hmem'
    exact Stmt.text_eq_iff (hx x hmem) (hy y hmem')
  · intro x hmem y hmem' e he f hf
    exact Expr.text_eq_iff ((hx x hmem).of_mem_expressions he) ((hy y hmem').of_mem_expressions hf)

/-- Parentheses that the grouping does without are not seen in the text, and others are. -/
theorem parseFile_text_eq_iff_of_groups :
    let statement (source : String) := (parseFile "one" source).1.statements.head?
    ∃ x ∈ statement "a + b * c", ∃ y ∈ statement " a + (b * c) ; )", ∃ z ∈ statement "(a + b) * c",
      x.text = "(a + (b * c))" ∧ x ≠ y ∧ x.bare = y.bare ∧ x.bare ≠ z.bare ∧ x.text ≠ z.text := by
  intro statement
  let first (source : String) := (parseFile "one" source).1.statements.head
  let x := first "a + b * c" (by decide +kernel)
  let y := first " a + (b * c) ; )" (by decide +kernel)
  let z := first "(a + b) * c" (by decide +kernel)
  have hy := (parseFile_text_eq_iff "one" "one" "a + b * c" " a + (b * c) ; )").1 x
    (List.head_mem _) y (List.head_mem _)
  have hz := (parseFile_text_eq_iff "one" "one" "a + b * c" "(a + b) * c").1 x
    (List.head_mem _) z (List.head_mem _)
  have hne : x.bare ≠ z.bare := by decide +kernel
  exact ⟨x, List.head?_eq_some_head _, y, List.head?_eq_some_head _, z, List.head?_eq_some_head _,
    by decide +kernel, by decide +kernel, hy.1 (by decide +kernel), hne, fun h => hne (hz.1 h)⟩

end FrontEnd
