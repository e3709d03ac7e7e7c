import FrontEnd.Proofs.LexicalGrammar
import FrontEnd.Proofs.StatementGrammar

/-!
# What the tree keeps of the tokens

Every node of a syntax tree holds the token that it was made from. Parsing puts each token that it
reads into one place of the tree at most, and never changes their order. If nothing had to be
skipped, only punctuation is left over, and it stands where it should: parentheses in pairs, an
assignment sign after the name of each binding, a semicolon after a statement.

* `Expr.held`, `Stmt.held`, `Program.held` — the tokens of the nodes, as they stand in the source.
* `Token.isKept` — whether a token is more than punctuation.
* `Stretch` — a statement with the tokens that it was read from.

Principal results: `rounds_held_sublist` (the tree holds some of the tokens, in order),
`clean_induction` (a stream without diagnostics is one clause after the other), `rounds_stretches`
(its tokens are the stretches of the statements) and `parse_conserves_tokens`, which states both for
a source.
-/

namespace FrontEnd

open TokenStream

/-! ## The tokens in a tree -/

/-- The tokens of the nodes of an expression, as they stand in the source. -/
def Expr.held : Expr → List Token
  | .identifier name => [name.token]
  | .integer token _ _ => [token]
  | .boolean token _ _ => [token]
  | .unary token _ right _ => token :: right.held
  | .binary token left _ right _ => left.held ++ token :: right.held

/-- The tokens of the nodes of a statement, as they stand in the source. -/
def Stmt.held : Stmt → List Token
  | .binding token name value _ => token :: name.token :: value.held
  | .result token none _ => [token]
  | .result token (some value) _ => token :: value.held
  | .expression _ value _ => value.held

/-- The tokens of the nodes of a program, as they stand in the source. -/
def Program.held (program : Program) : List Token := program.statements.flatMap Stmt.held

def Token.isKept (t : Token) : Bool :=
  t.kind ∉ [.openParen, .closeParen, .assign, .semicolon, .eof]

/-- As many groups are closed as are opened, and nowhere more. -/
structure Balanced (ts : List Token) : Prop where
  closed : ts.countP Token.isClosing = ts.countP Token.isOpening
  opened : ∀ k, (ts.take k).countP Token.isClosing ≤ (ts.take k).countP Token.isOpening

namespace Balanced

variable {ts us : List Token}

theorem of_isPlain (h : ∀ t ∈ ts, t.isPlain = true) : Balanced ts := by
  have hzero : ∀ us : List Token, us ⊆ ts →
      us.countP Token.isClosing = 0 ∧ us.countP Token.isOpening = 0 := by
    intro us hsub
    have hflags := fun t ht => Token.isPlain_iff.1 (h t (hsub ht))
    exact ⟨List.countP_eq_zero.2 fun t ht => by simp [(hflags t ht).2],
      List.countP_eq_zero.2 fun t ht => by simp [(hflags t ht).1]⟩
  constructor
  · rw [(hzero ts (List.Subset.refl ts)).1, (hzero ts (List.Subset.refl ts)).2]
  · intro k
    rw [(hzero _ (List.take_subset k ts)).1]
    exact Nat.zero_le _

theorem append (h : Balanced ts) (h' : Balanced us) : Balanced (ts ++ us) := by
  constructor
  · rw [List.countP_append, List.countP_append, h.closed, h'.closed]
  · intro k
    have hts := h.opened k
    have hus := h'.opened (k - ts.length)
    rw [List.take_append, List.countP_append, List.countP_append]
    omega

end Balanced

/-! ## Phrases and clauses -/

namespace Derives

variable {l : Level} {u : List Token} {x : Phrase}

theorem balanced (h : Derives l u x) : Balanced u := by
  rw [← h.tokens_eq]
  exact ⟨h.parenthesised.count_closing, h.parenthesised.count_take⟩

/-- The tree of a phrase holds its tokens but for the parentheses. -/
theorem held_tree (h : Derives l u x) : x.tree.held = u.filter Token.isKept := by
  induction h with
  | identifier h | integer h _ => simp [Phrase.tree, Expr.held, Identifier.ofToken, Token.isKept, h]
  | boolean h => rcases h with h | h <;> simp [Phrase.tree, Expr.held, Token.isKept, h]
  | unary h _ ih =>
    rcases h with h | h <;> simp [Phrase.tree, Expr.held, Token.isKept, h, ih]
  | group ho _ hc ih =>
    rw [Phrase.tree, ih]
    simp [Token.isKept, ho, hc]
  | @chain l _ _ _ _ operator _ h _ ihx ihy =>
    have hkept : operator.isKept = true := by
      revert h
      unfold Token.isKept
      cases l <;> simp only [Level.operators] <;> cases operator.kind <;> decide
    rw [Phrase.tree, Expr.held, ihx, ihy, List.filter_append, List.filter_cons_of_pos hkept]
  | single _ ih => exact ih

end Derives

/-- An assignment sign stands after the name of a binding, and nowhere else in a statement. -/
def Stmt.SignedIn (statement : Stmt) (ts : List Token) : Prop :=
  match statement with
  | .binding token name _ _ =>
    ∃ sign rest, ts = token :: name.token :: sign :: rest ∧ sign.kind = .assign ∧
      ∀ t ∈ rest, t.kind ≠ .assign
  | _ => ∀ t ∈ ts, t.kind ≠ .assign

namespace Clause

variable {c : Clause}

/-- Only a result may have no expression; it is a word alone. -/
theorem length_tokens_of_none (h : c.value? = none) : c.tokens.length = 1 := by
  cases c with
  | binding | expression => cases h
  | result => simp [tokens, lead, h]

namespace Valid

theorem balanced (h : c.Valid) : Balanced c.tokens := by
  have hlead : Balanced c.lead := by
    apply Balanced.of_isPlain
    cases h with
    | binding hword hname hsign _ => simp [lead, Token.isPlain, hword, hname, hsign]
    | result hword _ => simp [lead, Token.isPlain, hword]
    | expression => simp [lead]
  cases hx : c.value? with
  | none => simpa [tokens, hx] using hlead
  | some x =>
    rw [tokens_of_value hx]
    exact hlead.append (h.derives hx).balanced

/-- The statement made of a clause holds its tokens but for the punctuation. -/
theorem held_statement (h : c.Valid) (last : Token) :
    (c.statement last).held = c.tokens.filter Token.isKept := by
  have hvalue : ∀ x, c.value? = some x → x.tree.held = x.tokens.filter Token.isKept :=
    fun x hx => (h.derives hx).held_tree
  cases h with
  | binding hword hname hsign _ =>
    simp [statement, Stmt.held, tokens, lead, value?, hvalue _ rfl, Identifier.ofToken,
      Token.isKept, hword, hname, hsign]
  | @result word value hword _ =>
    cases value with
    | none => simp [statement, Stmt.held, tokens, lead, value?, Token.isKept, hword]
    | some x =>
      simp [statement, Stmt.held, tokens, lead, value?, hvalue x rfl, Token.isKept, hword]
  | expression _ => simp [statement, Stmt.held, tokens, lead, value?, hvalue _ rfl]

theorem signedIn (h : c.Valid) (last : Token) : (c.statement last).SignedIn c.tokens := by
  have hvalue : ∀ x, c.value? = some x → ∀ t ∈ x.tokens, t.kind ≠ .assign :=
    fun x hx t ht => ((h.derives hx).kind_ne t ht).1
  cases h with
  | @binding word name sign value _ _ hsign _ =>
    exact ⟨sign, value.tokens, rfl, hsign, hvalue _ rfl⟩
  | result hword _ =>
    intro t ht
    rcases mem_tokens.1 ht with ht | ⟨x, hx, ht⟩
    · obtain rfl := List.mem_singleton.1 ht
      simp [hword]
    · exact hvalue x hx t ht
  | expression _ => exact hvalue _ rfl

end Valid

end Clause

/-! ## Stretches -/

/-- A statement with the tokens that it was read from: those of its own, and its semicolon if it has
one. -/
structure Stretch where
  statement : Stmt
  own : List Token
  semicolon : Option Token

namespace Stretch

def tokens (x : Stretch) : List Token := x.own ++ x.semicolon.toList

/-- That a statement keeps of its tokens all but the punctuation. -/
structure Conserved (x : Stretch) : Prop where
  own_ne_nil : x.own ≠ []
  held_eq : x.statement.held = x.own.filter Token.isKept
  kind_ne : ∀ t ∈ x.own, t.kind ≠ .semicolon ∧ t.kind ≠ .eof
  signed : x.statement.SignedIn x.own
  balanced : Balanced x.own
  semicolon_kind : ∀ t ∈ x.semicolon, t.kind = .semicolon

theorem Conserved.held_eq_tokens {x : Stretch} (h : x.Conserved) :
    x.statement.held = x.tokens.filter Token.isKept := by
  rw [h.held_eq, tokens, List.filter_append]
  cases hs : x.semicolon with
  | none => simp
  | some t => simp [Token.isKept, h.semicolon_kind t hs]

theorem Conserved.balanced_tokens {x : Stretch} (h : x.Conserved) : Balanced x.tokens := by
  refine h.balanced.append (.of_isPlain fun t ht => ?_)
  simp [Token.isPlain, h.semicolon_kind t (Option.mem_toList.1 ht)]

/-- The statements of stretches hold what is more than punctuation, whose parentheses match. -/
theorem held_flatMap {xs : List Stretch} (h : ∀ x ∈ xs, x.Conserved) :
    (xs.map statement).flatMap Stmt.held = (xs.flatMap tokens).filter Token.isKept ∧
      Balanced (xs.flatMap tokens) := by
  induction xs with
  | nil => exact ⟨rfl, .of_isPlain (fun t ht => (nomatch ht))⟩
  | cons x xs ih =>
    obtain ⟨hx, hxs⟩ := List.forall_mem_cons.1 h
    obtain ⟨hheld, hbalanced⟩ := ih hxs
    rw [List.map_cons, List.flatMap_cons, List.flatMap_cons, List.filter_append, hheld,
      hx.held_eq_tokens]
    exact ⟨rfl, hx.balanced_tokens.append hbalanced⟩

end Stretch

/-! ## What attempts at statements keep -/

/-- After a clause its tokens are passed. -/
theorem Clause.Valid.reaches_rest {c : Clause} (h : c.Valid) (s : TokenStream) :
    Reaches (s.skip c.tokens.length) (c.rest s).next := by
  have hpos := List.length_pos_iff.2 h.tokens_ne_nil
  unfold Clause.rest
  split
  · rename_i hx
    rw [Clause.length_tokens_of_none hx, ← next_eq_skip]
    exact .next s.next
  · have hstep := (Reaches.skipPeek (s.skip (c.tokens.length - 1)) .semicolon).step
    rwa [next_skip, Nat.sub_add_cancel hpos] at hstep

/-- After a clause that is followed by the tokens `ts`, the parser goes on with those of them that
are not part of the statement. -/
theorem Clause.Ahead.pending_rest {c : Clause} {s : TokenStream} (h : c.Ahead s) {ts : List Token}
    (hs : s.pending = c.tokens ++ ts) (heof : ∀ t ∈ ts, t.kind ≠ .eof) :
    (c.rest s).next.pending = afterStatement ts := by
  have hpos := List.length_pos_iff.2 h.valid.tokens_ne_nil
  have hts : (s.skip c.tokens.length).pending = ts := by
    rw [skip_pending, hs, List.drop_left]
  have hends := h.ends
  unfold Clause.rest
  unfold Clause.EndsBefore at hends
  split
  · -- the statement ends at a semicolon, or else at the end of input
    rename_i hx
    simp only [hx] at hends
    rw [Clause.length_tokens_of_none hx, ← next_eq_skip] at hts hends
    rw [next_eq_skip s.next, skip_pending, hts]
    cases ts with
    | nil => rfl
    | cons t ts =>
      rw [current_of_cons hts] at hends
      have hkind := hends.resolve_right (heof t List.mem_cons_self)
      simp [afterStatement, hkind]
  · obtain ⟨m, hm⟩ := next_skipPeek_semicolon (s.skip (c.tokens.length - 1))
    rw [hm, next_skip, Nat.sub_add_cancel hpos, hts]

theorem exists_semicolon (ts : List Token) :
    ∃ semicolon : Option Token, (∀ t ∈ semicolon, t.kind = .semicolon) ∧
      ts = semicolon.toList ++ afterStatement ts := by
  cases ts with
  | nil => exact ⟨none, fun t ht => (nomatch ht), rfl⟩
  | cons t ts =>
    by_cases ht : t.kind = .semicolon
    · refine ⟨some t, ?_, ?_⟩
      · rintro _ ⟨⟩
        exact ht
      · simp [afterStatement, ht]
    · exact ⟨none, fun t ht => (nomatch ht), by simp [afterStatement, ht]⟩

/-- Where a clause is ahead it is read, and then what follows it. -/
theorem Clause.Ahead.rounds_eq {c : Clause} {s : TokenStream} (h : c.Ahead s) {levels : Nat}
    (hfits : c.Fits levels) :
    s.rounds .default levels =
      .ok (c.statement (c.rest s).current) :: (c.rest s).next.rounds .default levels := by
  obtain ⟨t, ts, htokens⟩ := List.exists_cons_of_ne_nil h.valid.tokens_ne_nil
  obtain ⟨us, hus⟩ := h.starts
  have hend : s.atEnd = false := by
    rw [htokens, List.cons_append] at hus
    rw [atEnd, current_of_cons hus.symm]
    exact decide_eq_false (h.valid.kind_ne t (htokens ▸ List.mem_cons_self)).2
  rw [rounds_of_not_atEnd hend, round_of_found (h.run hfits)]

/-- **Induction over a clean stream.** If every attempt finds a statement, the stream is used up, or
else it begins with a clause and the semicolon after it if there is one, and goes on clean. -/
@[elab_as_elim]
theorem clean_induction {levels : Nat} {motive : TokenStream → List Stmt → Prop} {s : TokenStream}
    (heof : ∀ t ∈ s.pending, t.kind ≠ .eof)
    (hclean : diagnosticsOf (s.rounds .default levels) = [])
    (nil : ∀ s : TokenStream, s.pending = [] → motive s [])
    (cons : ∀ (s r : TokenStream) (c : Clause) (semicolon : Option Token) (last : Token)
      (statements : List Stmt), c.Ahead s → c.Fits levels →
      (∀ t ∈ semicolon, t.kind = .semicolon) →
      s.pending = c.tokens ++ (semicolon.toList ++ r.pending) →
      motive r statements → motive s (c.statement last :: statements)) :
    motive s (statementsOf (s.rounds .default levels)) := by
  induction hn : s.pending.length using Nat.strongRecOn generalizing s with
  | ind n ih =>
    cases hend : s.atEnd with
    | true =>
      rw [rounds_of_atEnd hend]
      exact nil s (pending_eq_nil_of_atEnd heof hend)
    | false =>
      have hlt := round_length_lt .default levels (pending_ne_nil_of_not_atEnd hend)
      have hreach := (Reaches.next s).trans (round_reaches .default levels s)
      rw [rounds_of_not_atEnd hend] at hclean ⊢
      cases ho : parseStmt .default levels s with
      | failed d r =>
        rw [round_of_failed ho] at hclean
        cases hclean
      | found statement r =>
        rw [round_of_found ho] at hlt hreach hclean ⊢
        obtain ⟨c, hahead, hfits, rfl, rfl⟩ := parseStmt_sound ho
        obtain ⟨ts, hts⟩ := hahead.starts
        obtain ⟨semicolon, hkind, hsplit⟩ := exists_semicolon ts
        rw [statementsOf_ok]
        refine cons s _ c semicolon _ _ hahead hfits hkind ?_
          (ih _ (by omega) (fun t ht => heof t (hreach.mem_pending ht)) hclean rfl)
        rw [hahead.pending_rest hts.symm fun t ht => heof t (hts ▸ List.mem_append_right _ ht),
          ← hsplit, hts]

/-- What a round finds and the tokens after the round are some of the tokens before it, in order. -/
theorem round_held_sublist (levels : Nat) (s : TokenStream) :
    ((statementsOf [(s.round .default levels).1]).flatMap Stmt.held ++
      (s.round .default levels).2.pending).Sublist s.pending := by
  cases ho : parseStmt .default levels s with
  | found statement r =>
    obtain ⟨c, hahead, _, rfl, rfl⟩ := parseStmt_sound ho
    obtain ⟨ts, hts⟩ := hahead.starts
    have hrest : ((c.rest s).next.pending).Sublist ts := by
      obtain ⟨k, hk⟩ := hahead.valid.reaches_rest s
      rw [hk, skip_pending, skip_pending, ← hts, List.drop_left]
      exact List.drop_sublist k ts
    rw [round_of_found ho, statementsOf_ok, statementsOf_nil, List.flatMap_singleton,
      hahead.valid.held_statement, ← hts]
    exact List.filter_sublist.append hrest
  | failed d r =>
    obtain ⟨k, hk⟩ := (Reaches.next s).trans (round_reaches .default levels s)
    have hdrop : (s.round .default levels).2.pending = s.pending.drop k := by rw [hk]; rfl
    rw [hdrop, round_of_failed ho]
    exact List.drop_sublist k s.pending

/-- The statements of a stream hold some of its tokens, in order. -/
theorem rounds_held_sublist (levels : Nat) (s : TokenStream) :
    ((statementsOf (s.rounds .default levels)).flatMap Stmt.held).Sublist s.pending := by
  induction hn : s.pending.length using Nat.strongRecOn generalizing s with
  | ind n ih =>
    cases hend : s.atEnd with
    | true =>
      rw [rounds_of_atEnd hend]
      exact List.nil_sublist _
    | false =>
      have hlt := round_length_lt .default levels (pending_ne_nil_of_not_atEnd hend)
      have hrest := ih _ (by omega) (s.round .default levels).2 rfl
      have hround := round_held_sublist levels s
      rw [rounds_of_not_atEnd hend, ← List.singleton_append, statementsOf_append,
        List.flatMap_append]
      exact (hrest.append_left _).trans hround

/-- If every attempt finds a statement, the tokens are the stretches of the statements. -/
theorem rounds_stretches {levels : Nat} {s : TokenStream} (heof : ∀ t ∈ s.pending, t.kind ≠ .eof)
    (hclean : diagnosticsOf (s.rounds .default levels) = []) :
    ∃ xs : List Stretch, xs.map Stretch.statement = statementsOf (s.rounds .default levels) ∧
      (∀ x ∈ xs, x.Conserved) ∧ s.pending = xs.flatMap Stretch.tokens := by
  refine clean_induction heof hclean ?nil ?cons
  case nil => exact fun s hs => ⟨[], rfl, fun x hx => (nomatch hx), hs⟩
  case cons =>
    rintro s r c semicolon last statements hahead - hkind hpending ⟨xs, hmap, hxs, hrest⟩
    have hvalid := hahead.valid
    have hx : Stretch.Conserved ⟨c.statement last, c.tokens, semicolon⟩ :=
      ⟨hvalid.tokens_ne_nil, hvalid.held_statement _, hvalid.kind_ne, hvalid.signedIn _,
        hvalid.balanced, hkind⟩
    refine ⟨_ :: xs, ?_, List.forall_mem_cons.2 ⟨hx, hxs⟩, ?_⟩
    · rw [List.map_cons, hmap]
    · rw [hpending, hrest, List.flatMap_cons, Stretch.tokens, List.append_assoc]

/-- **No token is lost, doubled or moved.** The tokens in the tree of a source of less than four
gibibytes are tokens of the source, each of them once and in order. If there are no diagnostics they
are all but the parentheses, the semicolons, the assignment signs and the end of input. The
parentheses then match, and the tokens are one stretch for each statement, one after the other: a
binding has one assignment sign, directly after its name, no other statement has any, and a
semicolon stands only at the end of a stretch. -/
theorem parse_conserves_tokens (source : String) (hsize : source.utf8ByteSize < UInt32.size) :
    (parse source).1.held.Sublist (tokenize source) ∧
      (parse source).1.held.Pairwise (fun t u => t.start < u.start) ∧
      ((parse source).2 = [] →
        (parse source).1.held = (tokenize source).filter Token.isKept ∧
        Balanced (tokenize source) ∧
        ∃ xs : List Stretch, xs.map Stretch.statement = (parse source).1.statements ∧
          (∀ x ∈ xs, x.Conserved) ∧
          tokenize source = xs.flatMap Stretch.tokens ++
            [.endOfInput (.ofBytes Lexer.defaultFile source.utf8ByteSize)]) := by
  have hpending : (streamOf source).pending = tokensOf source := by rw [streamOf_eq]
  have hsub : (parse source).1.held.Sublist (tokensOf source) := by
    rw [Program.held, parse_statements, ← hpending]
    exact rounds_held_sublist maxNesting (streamOf source)
  refine ⟨?_, ?_, fun hclean => ?_⟩
  · rw [tokenize_eq]
    exact hsub.trans (List.sublist_append_left _ _)
  · refine (Lexer.tokens_ordered (Lexer.ofSource source) ?_).sublist hsub
    rw [Lexer.ofSource, Lexer.ofFile, Nat.zero_add, byteLength_toList]
    exact hsize
  · rw [parse_diagnostics] at hclean
    have heof : ∀ t ∈ (streamOf source).pending, t.kind ≠ .eof := by
      rw [hpending]
      exact fun t ht => (Lexer.scans_tokens _).kind_ne_eof ht
    obtain ⟨xs, hmap, hxs, htokens⟩ := rounds_stretches heof hclean
    rw [hpending] at htokens
    obtain ⟨hheld, hbalanced⟩ := Stretch.held_flatMap hxs
    rw [tokenize_eq, Program.held, parse_statements, ← hmap, hheld, htokens, List.filter_append]
    refine ⟨?_, ?_, xs, rfl, hxs, rfl⟩
    · simp [Token.isKept, Token.endOfInput]
    · exact hbalanced.append (.of_isPlain (by simp [Token.isPlain, Token.endOfInput]))

/-- Three statements, of which the middle one has no semicolon. -/
theorem parse_conserves_tokens_three_statements :
    let source := "let a = (b);return !a (1-2);"
    source.utf8ByteSize < UInt32.size ∧ (parse source).2 = [] ∧
      (parse source).1.held = (tokenize source).filter Token.isKept ∧
      (parse source).1.held.map Token.text = ["let", "a", "b", "return", "!", "a", "1", "-", "2"] ∧
      Balanced (tokenize source) := by
  intro source
  have hsize : source.utf8ByteSize < UInt32.size := by decide +kernel
  have hclean : (parse source).2 = [] := by decide +kernel
  obtain ⟨hheld, hbalanced, _⟩ := (parse_conserves_tokens source hsize).2.2 hclean
  exact ⟨hsize, hclean, hheld, by decide +kernel, hbalanced⟩

end FrontEnd
