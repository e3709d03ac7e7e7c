import FrontEnd.Proofs.RoundTrip

/-!
# Parsed trees are well formed

The kind of a token that the lexer reads and the text that it was read from tell the same, and
parsing takes both over into the tree. So whatever is found in a source is well formed, whether or
not there are diagnostics for the rest of it.

* `Token.Spelt` — the text of a token is one that its kind stands for.

Principal results: `Lexer.tokens_spelt` (the tokens of a text are spelt), `Derives.wellFormed`,
`Clause.Valid.wellFormed` (phrases and clauses of such tokens make well-formed trees) and
`parseFile_wellFormed`.
-/

namespace FrontEnd

open TokenStream

/-! ## Tokens as they are spelt -/

/-- The text of a token is one that its kind stands for. -/
inductive Token.Spelt : Token → Prop where
  | word {text : String} {span : Span} (hne : text.toList ≠ [])
    (hword : ∀ c ∈ text.toList, isWordChar c = true) : Spelt ⟨.ofWord text, text, span⟩
  | integer {text : String} {span : Span} (hne : text.toList ≠ [])
    (hdigit : ∀ c ∈ text.toList, c.isDigit = true) : Spelt ⟨.integer, text, span⟩
  | equal {span : Span} : Spelt ⟨.equal, "==", span⟩
  | notEqual {span : Span} : Spelt ⟨.notEqual, "!=", span⟩
  | symbol {c : Char} {span : Span} : Spelt ⟨.ofSymbol c, String.ofList [c], span⟩

theorem Lexeme.first_spelt (c : Char) (cs : List Char) (span : Span) :
    Token.Spelt ⟨(first c cs).kind, String.ofList (first c cs).text, span⟩ := by
  cases hword : isWordChar c with
  | true =>
    rw [first_word hword]
    refine .word ?_ ?_
    · rw [String.toList_ofList]
      exact List.cons_ne_nil _ _
    · rw [String.toList_ofList]
      intro d hd
      rcases List.mem_cons.1 hd with rfl | hd
      · exact hword
      · exact List.all_eq_true.1 List.all_takeWhile d hd
  | false =>
    cases hdigit : c.isDigit with
    | true =>
      rw [first_digit hdigit]
      refine .integer ?_ ?_
      · rw [String.toList_ofList]
        exact List.cons_ne_nil _ _
      · rw [String.toList_ofList]
        intro d hd
        rcases List.mem_cons.1 hd with rfl | hd
        · exact hdigit
        · exact List.all_eq_true.1 List.all_takeWhile d hd
    | false =>
      unfold first
      simp only [hword, hdigit, Bool.false_eq_true, if_false]
      split
      · exact .equal
      · exact .notEqual
      · exact .symbol

/-- The tokens of a text are spelt. -/
theorem Lexer.tokens_spelt (l : Lexer) : ∀ t ∈ l.tokens, t.Spelt := by
  intro t ht
  obtain ⟨kind, text, span⟩ := t
  obtain ⟨c, cs, _, hkind, htext⟩ := l.scans_tokens.lexeme ht
  obtain rfl : kind = _ := hkind
  obtain rfl : text = _ := htext
  exact Lexeme.first_spelt c cs span

theorem Token.Spelt.relocate {t : Token} (h : t.Spelt) (f : Position → Position) :
    (t.relocate f).Spelt := by
  cases h with
  | word hne hword => exact .word hne hword
  | integer hne hdigit => exact .integer hne hdigit
  | equal => exact .equal
  | notEqual => exact .notEqual
  | symbol => exact .symbol

theorem lexed_spelt (cs : List Char) : ∀ t ∈ lexed cs, t.Spelt :=
  List.forall_mem_map.2 fun t ht => (Lexer.tokens_spelt _ t ht).relocate _

namespace Token.Spelt

variable {t : Token}

theorem identifier (h : t.Spelt) (hkind : t.kind = .identifier) :
    (Identifier.ofToken t).WellFormed := by
  cases h with
  | word hne hword => exact ⟨hkind, rfl, hne, hword, hkind⟩
  | integer | equal | notEqual => cases hkind
  | @symbol c =>
    simp only [TokenKind.ofSymbol] at hkind
    split at hkind <;> cases hkind

theorem digits (h : t.Spelt) (hkind : t.kind = .integer) :
    t.text.toList ≠ [] ∧ ∀ c ∈ t.text.toList, c.isDigit = true := by
  cases h with
  | word hne hword =>
    simp only [TokenKind.ofWord] at hkind
    split at hkind <;> cases hkind
  | integer hne hdigit => exact ⟨hne, hdigit⟩
  | equal | notEqual => cases hkind
  | @symbol c =>
    simp only [TokenKind.ofSymbol] at hkind
    split at hkind <;> cases hkind

/-- The kinds of token that are spelt in one way, as far as trees are made from them. -/
def spellings : List (TokenKind × String) :=
  [(.letWord, "let"), (.returnWord, "return"), (.trueWord, "true"), (.falseWord, "false")] ++
    unaryOperators ++ binaryOperators

theorem text_eq (h : t.Spelt) {text : String} (hmem : (t.kind, text) ∈ spellings) :
    t.text = text := by
  simp only [spellings, unaryOperators, binaryOperators, List.cons_append, List.nil_append,
    List.mem_cons, Prod.mk.injEq, List.not_mem_nil, or_false] at hmem
  cases h with
  | word hne hword =>
    simp only [TokenKind.ofWord] at hmem ⊢
    split at hmem <;> simp_all
  | integer => simp at hmem
  | equal => simpa [eq_comm] using hmem
  | notEqual => simpa [eq_comm] using hmem
  | @symbol c =>
    simp only [TokenKind.ofSymbol] at hmem ⊢
    split at hmem <;> simp_all

end Token.Spelt

/-! ## Trees made from spelt tokens -/

theorem unary_mem_operators {kind : TokenKind} {text : String}
    (h : (kind, text) ∈ unaryOperators) : (kind, text) ∈ Token.Spelt.spellings := by
  simp [Token.Spelt.spellings, h]

theorem binary_mem_operators {kind : TokenKind} {text : String}
    (h : (kind, text) ∈ binaryOperators) : (kind, text) ∈ Token.Spelt.spellings := by
  simp [Token.Spelt.spellings, h]

theorem exists_mem_binaryOperators {l : Level} {kind : TokenKind} (h : kind ∈ l.operators) :
    ∃ text, (kind, text) ∈ binaryOperators := by
  cases l <;> simp only [Level.operators, List.mem_cons, List.not_mem_nil, or_false] at h <;>
    rcases h with rfl | rfl <;>
    simp [binaryOperators]

/-- A phrase of spelt tokens has a well-formed tree. -/
theorem Derives.wellFormed {l : Level} {u : List Token} {x : Phrase} (h : Derives l u x)
    (hu : ∀ t ∈ u, t.Spelt) : x.tree.WellFormed := by
  induction h with
  | @identifier name h => exact (hu name List.mem_cons_self).identifier h
  | @integer token value h hv =>
    obtain ⟨hne, hdigit⟩ := (hu token List.mem_cons_self).digits h
    exact ⟨h, hne, hdigit, hv⟩
  | @boolean token h =>
    have htoken := hu token List.mem_cons_self
    rcases h with h | h
    · exact .inl ⟨h, htoken.text_eq (by rw [h]; decide), by simp [h]⟩
    · exact .inr ⟨h, htoken.text_eq (by rw [h]; decide), by simp [h]⟩
  | @unary operator u x h hx ih =>
    have hright := ih fun t ht => hu t (List.mem_cons_of_mem _ ht)
    obtain ⟨text, hmem⟩ : ∃ text, (operator.kind, text) ∈ unaryOperators := by
      rcases h with h | h <;> rw [h]
      · exact ⟨"-", by decide⟩
      · exact ⟨"!", by decide⟩
    have htext := (hu operator List.mem_cons_self).text_eq (unary_mem_operators hmem)
    rw [← htext] at hmem
    exact ⟨rfl, hmem, hright⟩
  | @group opening closing u x ho hx hc ih =>
    exact ih fun t ht => hu t (List.mem_cons_of_mem _ (List.mem_append_left _ ht))
  | @chain l u v x y operator hx h hy ihx ihy =>
    have hleft := ihx fun t ht => hu t (List.mem_append_left _ ht)
    have hright := ihy fun t ht => hu t (List.mem_append_right _ (List.mem_cons_of_mem _ ht))
    obtain ⟨text, hmem⟩ := exists_mem_binaryOperators h
    have htext := (hu operator (List.mem_append_right _ List.mem_cons_self)).text_eq
      (binary_mem_operators hmem)
    rw [← htext] at hmem
    exact ⟨rfl, hmem, hleft, hright⟩
  | single hx ih => exact ih hu

def TokenStream.Spelt (s : TokenStream) : Prop := ∀ t ∈ s.pending, t.Spelt

theorem TokenStream.Reaches.spelt {s s' : TokenStream} (h : Reaches s s') (hs : s.Spelt) :
    s'.Spelt :=
  fun t ht => hs t (h.mem_pending ht)

/-- A clause of spelt tokens makes a well-formed statement. -/
theorem Clause.Valid.wellFormed {c : Clause} (h : c.Valid) (hc : ∀ t ∈ c.tokens, t.Spelt)
    (last : Token) : (c.statement last).WellFormed := by
  have hvalue : ∀ x, c.value? = some x → x.tree.WellFormed := by
    intro x hx
    refine (h.derives hx).wellFormed fun t ht => hc t ?_
    rw [Clause.tokens_of_value hx]
    exact List.mem_append_right _ ht
  cases h with
  | @binding word name sign value hword hname hsign hderives =>
    have hspelt : word.Spelt := hc word (by simp [Clause.tokens, Clause.lead])
    have hspelt' : name.Spelt := hc name (by simp [Clause.tokens, Clause.lead])
    exact ⟨hword, hspelt.text_eq (by rw [hword]; decide), hspelt'.identifier hname,
      hvalue value rfl⟩
  | @result word value hword hderives =>
    have hspelt := hc word (by simp [Clause.tokens, Clause.lead])
    refine ⟨hword, hspelt.text_eq (by rw [hword]; decide), ?_⟩
    intro e he
    obtain ⟨x, hx, rfl⟩ := Option.map_eq_some_iff.1 he
    exact hvalue x hx
  | @expression value hderives => exact hvalue value rfl

/-- Whatever is found in a stream of spelt tokens is well formed. -/
theorem parseStmt_wellFormed {levels : Nat} {s r : TokenStream} {statement : Stmt} (hs : s.Spelt)
    (h : parseStmt .default levels s = .found statement r) : statement.WellFormed := by
  obtain ⟨c, hahead, _, rfl, _⟩ := parseStmt_sound h
  refine hahead.valid.wellFormed (fun t ht => ?_) _
  obtain ⟨ts, hts⟩ := hahead.starts
  exact hs t (by rw [← hts]; exact List.mem_append_left _ ht)

theorem rounds_wellFormed {levels : Nat} {s : TokenStream} (hs : s.Spelt) :
    ∀ statement ∈ statementsOf (s.rounds .default levels), statement.WellFormed := by
  induction hn : s.pending.length using Nat.strongRecOn generalizing s with
  | ind n ih =>
    intro statement hmem
    cases hend : s.atEnd with
    | true =>
      rw [rounds_of_atEnd hend] at hmem
      cases hmem
    | false =>
      have hlt := round_length_lt .default levels (pending_ne_nil_of_not_atEnd hend)
      have hnext := ((Reaches.next s).trans (round_reaches .default levels s)).spelt hs
      rw [rounds_of_not_atEnd hend, mem_statementsOf] at hmem
      rcases List.mem_cons.1 hmem with hround | hmem
      · cases ho : parseStmt .default levels s with
        | found statement' r =>
          rw [round_of_found ho] at hround
          cases hround
          exact parseStmt_wellFormed hs ho
        | failed d r =>
          rw [round_of_failed ho] at hround
          cases hround
      · exact ih _ (by omega) hnext rfl statement (mem_statementsOf.2 hmem)

/-- **Every statement that is found in a source is well formed.** -/
theorem parseFile_wellFormed (file source : String) :
    ∀ statement ∈ (parseFile file source).1.statements, statement.WellFormed := by
  have hspelt : (Lexer.ofFile file source).stream.Spelt := by
    rw [stream_ofFile]
    exact Lexer.tokens_spelt _
  rw [parseFile_statements]
  exact rounds_wellFormed hspelt

end FrontEnd
