import FrontEnd.Proofs.Coverage

/-!
# Spans are nested and ordered

The span of an expression runs from the first token of its nodes to the last. The parentheses around
an operand are not among them, so that the spans of operands leave gaps; but since the tokens of a
source stand one after another, the spans of the parts of a node lie in the span of the node, one
after another, and so do the statements in the source. What was skipped between two statements makes
no difference: every attempt begins behind the last token of the attempt before it.

* `Span.OfTokens` — a span that runs from the first of some tokens to the last.
* `Expr.parts`, `Stmt.parts` — the spans of what a node is made of, in order.
* `Span.PartedInto` — a span that some others lie in, one after another.

Principal results: `Span.partedInto_of_tokens` (tokens in order make parts in order),
`Phrase.nodes_laid` (the nodes of an expression) and `parseFile_spans_nested`, for every node of a
source.
-/

namespace FrontEnd

open TokenStream

/-! ## Spans of tokens in order -/

namespace Span

def HasWidth (span : Span) : Prop := span.start.offset < span.stop.offset

def Within (span outer : Span) : Prop :=
  outer.start.offset ≤ span.start.offset ∧ span.stop.offset ≤ outer.stop.offset

def Before (span later : Span) : Prop := span.stop.offset ≤ later.start.offset

/-- A span that runs from the first of the tokens to the last. -/
def OfTokens (span : Span) (ts : List Token) : Prop :=
  ∃ first last, ts.head? = some first ∧ ts.getLast? = some last ∧
    span = ⟨first.span.start, last.span.stop⟩

/-- A span that the parts lie in, one after another. -/
structure PartedInto (span : Span) (parts : List Span) : Prop where
  within : ∀ part ∈ parts, part.Within span
  ordered : parts.Pairwise Before

end Span

/-- Tokens with a width, one after another. -/
structure InOrder (ts : List Token) : Prop where
  width : ∀ t ∈ ts, t.span.HasWidth
  ordered : ts.Pairwise fun t u => t.span.Before u.span

theorem InOrder.sublist {ts us : List Token} (h : InOrder us) (hsub : ts.Sublist us) :
    InOrder ts :=
  ⟨fun t ht => h.width t (hsub.subset ht), h.ordered.sublist hsub⟩

/-- The first of some tokens in order starts before the others. -/
theorem InOrder.start_le {first : Token} {ts : List Token} (h : InOrder (first :: ts)) :
    ∀ t ∈ first :: ts, first.span.start.offset ≤ t.span.start.offset := by
  refine List.forall_mem_cons.2 ⟨UInt32.le_refl _, fun t ht => ?_⟩
  have hwidth := h.width first List.mem_cons_self
  exact UInt32.le_trans (UInt32.le_of_lt hwidth) ((List.pairwise_cons.1 h.ordered).1 t ht)

namespace Span

variable {span : Span} {ts : List Token}

theorem Within.hasWidth {outer : Span} (h : span.Within outer) (hwidth : span.HasWidth) :
    outer.HasWidth :=
  UInt32.lt_of_le_of_lt h.1 (UInt32.lt_of_lt_of_le hwidth h.2)

theorem ofTokens_singleton (t : Token) : t.span.OfTokens [t] := ⟨t, t, rfl, rfl, rfl⟩

theorem OfTokens.cons {t : Token} (h : span.OfTokens ts) :
    OfTokens ⟨t.span.start, span.stop⟩ (t :: ts) := by
  obtain ⟨first, last, hfirst, hlast, rfl⟩ := h
  refine ⟨t, last, rfl, ?_, rfl⟩
  rw [List.getLast?_cons, hlast]
  rfl

theorem OfTokens.append {span' : Span} {us : List Token} (h : span.OfTokens ts)
    (h' : span'.OfTokens us) : OfTokens ⟨span.start, span'.stop⟩ (ts ++ us) := by
  obtain ⟨first, -, hfirst, -, rfl⟩ := h
  obtain ⟨-, last, -, hlast, rfl⟩ := h'
  refine ⟨first, last, ?_, ?_, rfl⟩
  · rw [List.head?_append, hfirst]
    rfl
  · rw [List.getLast?_append, hlast]
    rfl

theorem OfTokens.within (h : span.OfTokens ts) {outer : Span}
    (hts : ∀ t ∈ ts, t.span.Within outer) : span.Within outer := by
  obtain ⟨first, last, hfirst, hlast, rfl⟩ := h
  exact ⟨(hts first (List.mem_of_head? hfirst)).1, (hts last (List.mem_of_getLast? hlast)).2⟩

theorem OfTokens.before (h : span.OfTokens ts) {later : Span} {us : List Token}
    (h' : later.OfTokens us) (hpairs : ∀ t ∈ ts, ∀ u ∈ us, t.span.Before u.span) :
    span.Before later := by
  obtain ⟨-, last, -, hlast, rfl⟩ := h
  obtain ⟨first, -, hfirst, -, rfl⟩ := h'
  exact hpairs last (List.mem_of_getLast? hlast) first (List.mem_of_head? hfirst)

/-- Every one of the tokens lies in the span from the first to the last of them. -/
theorem OfTokens.within_of_mem (h : span.OfTokens ts) (hts : InOrder ts) :
    ∀ t ∈ ts, t.span.Within span := by
  obtain ⟨first, last, hfirst, hlast, rfl⟩ := h
  intro t ht
  constructor
  · obtain ⟨us, rfl⟩ : ∃ us, ts = first :: us := ⟨ts.tail, List.eq_cons_of_mem_head? hfirst⟩
    exact hts.start_le t ht
  · obtain ⟨us, rfl⟩ : ∃ us, ts = us ++ [last] := List.getLast?_eq_some_iff.1 hlast
    rcases List.mem_append.1 ht with ht | ht
    · have hwidth := hts.width last (List.mem_append_right _ List.mem_cons_self)
      have hbefore := (List.pairwise_append.1 hts.ordered).2.2 t ht last List.mem_cons_self
      exact UInt32.le_trans hbefore (UInt32.le_of_lt hwidth)
    · rw [List.mem_singleton.1 ht]
      exact UInt32.le_refl _

/-- **Tokens in order make parts in order**, if each part runs from the first to the last of some
tokens and the next part has the tokens after them. -/
theorem partedInto_of_tokens {parts : List (Span × List Token)}
    (h : ∀ part ∈ parts, part.1.OfTokens part.2) (hts : InOrder (parts.flatMap Prod.snd))
    (hspan : ∀ t ∈ parts.flatMap Prod.snd, t.span.Within span) :
    span.PartedInto (parts.map Prod.fst) := by
  constructor
  · intro part hpart
    obtain ⟨p, hp, rfl⟩ := List.mem_map.1 hpart
    exact (h p hp).within fun t ht => hspan t (List.mem_flatMap_of_mem hp ht)
  · have hpairs := (List.pairwise_flatMap.1 hts.ordered).2
    refine List.pairwise_map.2 (hpairs.imp_of_mem ?_)
    intro p q hp hq hacross
    exact (h p hp).before (h q hq) hacross

end Span

/-! ## The parts of nodes -/

/-- The spans of what an expression is made of, in order: its token and its operands. -/
def Expr.parts : Expr → List Span
  | .identifier name => [name.token.span]
  | .integer token _ _ => [token.span]
  | .boolean token _ _ => [token.span]
  | .unary token _ right _ => [token.span, right.span]
  | .binary token left _ right _ => [left.span, token.span, right.span]

/-- The spans of what a statement is made of, in order: its word, its name and its value. -/
def Stmt.parts : Stmt → List Span
  | .binding token name value _ => [token.span, name.span, value.span]
  | .result token none _ => [token.span]
  | .result token (some value) _ => [token.span, value.span]
  | .expression _ value _ => [value.span]

theorem Expr.self_mem_nodes (e : Expr) : e ∈ e.nodes := by
  cases e <;> exact List.mem_cons_self

/-- The tokens of a node are some of those of the whole expression. -/
theorem Expr.held_sublist {e f : Expr} (h : f ∈ e.nodes) : f.held.Sublist e.held := by
  induction e with
  | identifier | integer | boolean => rw [List.mem_singleton.1 h]
  | unary token operator right span ih =>
    rcases List.mem_cons.1 h with rfl | h
    · exact List.Sublist.refl _
    · exact (ih h).cons token
  | binary token left operator right span ihl ihr =>
    rcases List.mem_cons.1 h with rfl | h
    · exact List.Sublist.refl _
    · rcases List.mem_append.1 h with h | h
      · exact (ihl h).trans (List.sublist_append_left _ _)
      · exact ((ihr h).cons token).trans (List.sublist_append_right _ _)

theorem Expr.held_ne_nil (e : Expr) : e.held ≠ [] := by
  cases e <;> simp [held]

theorem Stmt.held_ne_nil (statement : Stmt) : statement.held ≠ [] := by
  cases statement with
  | binding => exact List.cons_ne_nil _ _
  | result _ value => cases value <;> exact List.cons_ne_nil _ _
  | expression _ value => exact value.held_ne_nil

/-- An expression whose span runs over the tokens of its nodes, and whose parts are in order if the
tokens are. -/
structure Expr.Laid (e : Expr) : Prop where
  ofTokens : e.span.OfTokens e.held
  parted : InOrder e.held → e.span.PartedInto e.parts

/-- **The nodes of an expression.** -/
theorem Phrase.nodes_laid (x : Phrase) : ∀ e ∈ x.tree.nodes, e.Laid := by
  -- the parts of a node have its tokens, each part the next of them
  have hself : ∀ {e : Expr} (parts : List (Span × List Token)), e.span.OfTokens e.held →
      (∀ part ∈ parts, part.1.OfTokens part.2) → parts.map Prod.fst = e.parts →
      parts.flatMap Prod.snd = e.held → e.Laid := by
    intro e parts hspan hparts hmap hheld
    refine ⟨hspan, fun hts => ?_⟩
    rw [← hmap]
    rw [← hheld] at hspan hts
    exact Span.partedInto_of_tokens hparts hts (hspan.within_of_mem hts)
  induction x with
  | identifier t | integer t | boolean t =>
    intro e he
    rw [List.mem_singleton.1 he]
    exact hself [(t.span, [t])] (Span.ofTokens_singleton t)
      (List.forall_mem_singleton.2 (Span.ofTokens_singleton t)) rfl rfl
  | unary operator operand ih =>
    refine List.forall_mem_cons.2 ⟨?_, ih⟩
    have hright := (ih _ operand.tree.self_mem_nodes).ofTokens
    refine hself [(operator.span, [operator]), (operand.tree.span, operand.tree.held)]
      hright.cons ?_ rfl (by simp [tree, Expr.held])
    exact List.forall_mem_cons.2
      ⟨Span.ofTokens_singleton operator, List.forall_mem_singleton.2 hright⟩
  | group _ _ _ ih => exact ih
  | binary left operator right ihl ihr =>
    refine List.forall_mem_cons.2 ⟨?_, List.forall_mem_append.2 ⟨ihl, ihr⟩⟩
    have hleft := (ihl _ left.tree.self_mem_nodes).ofTokens
    have hright := (ihr _ right.tree.self_mem_nodes).ofTokens
    have hspan := hleft.append (hright.cons (t := operator))
    refine hself [(left.tree.span, left.tree.held), (operator.span, [operator]),
      (right.tree.span, right.tree.held)] hspan ?_ rfl
      (by simp [tree, Expr.held])
    exact List.forall_mem_cons.2 ⟨hleft, List.forall_mem_cons.2
      ⟨Span.ofTokens_singleton operator, List.forall_mem_singleton.2 hright⟩⟩

/-! ## The nodes of a source -/

theorem Placed.start_eq {s : TokenStream} {statement : Stmt} {k j : Nat}
    (h : Placed s (.ok statement) k j) : statement.span.start = (s.token k).span.start := by
  cases h with
  | statement _ hstart _ => exact hstart

theorem Placed.stop_eq {s : TokenStream} {statement : Stmt} {k j : Nat}
    (h : Placed s (.ok statement) k j) :
    ∃ i, j = i + 1 ∧ statement.span.stop = (s.token i).span.stop := by
  cases h with
  | statement _ _ hstop => exact ⟨_, rfl, hstop⟩

/-- The parts of a statement have some of the tokens of its clause. -/
theorem Clause.Valid.exists_parts {c : Clause} (h : c.Valid) (last : Token) :
    ∃ parts : List (Span × List Token), parts.map Prod.fst = (c.statement last).parts ∧
      (∀ part ∈ parts, part.1.OfTokens part.2) ∧
      parts.flatMap Prod.snd = (c.statement last).held := by
  have hvalue : ∀ x : Phrase, x.tree.span.OfTokens x.tree.held :=
    fun x => (x.nodes_laid _ x.tree.self_mem_nodes).ofTokens
  cases c with
  | binding word name sign value =>
    refine ⟨[(word.span, [word]), (name.span, [name]), (value.tree.span, value.tree.held)], rfl,
      ?_, by simp [statement, Stmt.held, Identifier.ofToken]⟩
    exact List.forall_mem_cons.2 ⟨Span.ofTokens_singleton word, List.forall_mem_cons.2
      ⟨Span.ofTokens_singleton name, List.forall_mem_singleton.2 (hvalue value)⟩⟩
  | result word value =>
    cases value with
    | none =>
      exact ⟨[(word.span, [word])], rfl,
        List.forall_mem_singleton.2 (Span.ofTokens_singleton word), rfl⟩
    | some value =>
      refine ⟨[(word.span, [word]), (value.tree.span, value.tree.held)], rfl, ?_,
        by simp [statement, Stmt.held]⟩
      exact List.forall_mem_cons.2
        ⟨Span.ofTokens_singleton word, List.forall_mem_singleton.2 (hvalue value)⟩
  | expression value =>
    exact ⟨[(value.tree.span, value.tree.held)], rfl, List.forall_mem_singleton.2 (hvalue value),
      by simp [statement, Stmt.held]⟩

/-- Where the parser stands after a clause: on its last token, or further on. -/
theorem Clause.exists_rest_eq_skip (c : Clause) (s : TokenStream) :
    ∃ r, c.tokens.length ≤ r + 1 ∧ c.rest s = s.skip r := by
  unfold Clause.rest
  split
  · rename_i hx
    exact ⟨1, by rw [length_tokens_of_none hx]; omega, next_eq_skip s⟩
  · obtain ⟨m, hm⟩ := Reaches.skipPeek (s.skip (c.tokens.length - 1)) .semicolon
    exact ⟨c.tokens.length - 1 + m, by omega, by rw [hm, skip_skip]⟩

/-- A statement that starts with the token that introduces it, and has its parts in it. -/
structure Stmt.Laid (statement : Stmt) : Prop where
  start_eq : statement.span.start = statement.token.span.start
  width : statement.span.HasWidth
  parted : statement.span.PartedInto statement.parts

/-- A statement whose clause is in order, and stops before the token `last` does. -/
theorem Clause.Valid.laid {c : Clause} (h : c.Valid) (hts : InOrder c.tokens) {last : Token}
    (hlast : ∀ t ∈ c.tokens, t.span.stop.offset ≤ last.span.stop.offset) :
    (c.statement last).Laid := by
  obtain ⟨parts, hmap, hparts, hheld⟩ := h.exists_parts last
  have hsub : (c.statement last).held.Sublist c.tokens := by
    rw [h.held_statement]
    exact List.filter_sublist
  have hwithin : ∀ t ∈ (c.statement last).held, t.span.Within (c.statement last).span := by
    intro t ht
    have hmem := hsub.subset ht
    cases c with
    | binding | result => exact ⟨hts.start_le t hmem, hlast t hmem⟩
    | expression x =>
      have htree := (x.nodes_laid _ x.tree.self_mem_nodes).ofTokens
      have hfirst : InOrder (x.first :: x.tokens.tail) := by
        rw [← x.tokens_eq_cons]
        exact hts
      refine ⟨hfirst.start_le t ?_, (htree.within_of_mem (hts.sublist hsub) t ht).2⟩
      rw [← x.tokens_eq_cons]
      exact hmem
  have hparted : (c.statement last).span.PartedInto (c.statement last).parts := by
    rw [← hmap]
    rw [← hheld] at hsub hwithin
    exact Span.partedInto_of_tokens hparts (hts.sublist hsub) hwithin
  obtain ⟨t, ht⟩ := List.exists_mem_of_ne_nil _ (c.statement last).held_ne_nil
  refine ⟨?_, (hwithin t ht).hasWidth (hts.width t (hsub.subset ht)), hparted⟩
  cases c <;> rfl

section

variable (file : String) {source : String} (hsize : source.utf8ByteSize < UInt32.size)

include hsize

/-- The tokens of a clause in a source are in order, and stop before the token does that the parser
stands on after the clause. -/
theorem Clause.Ahead.inOrder {c : Clause} {k : Nat}
    (h : c.Ahead ((Lexer.ofFile file source).stream.skip k)) {last : Token}
    (hlast : last = (c.rest ((Lexer.ofFile file source).stream.skip k)).current) :
    InOrder c.tokens ∧ ∀ t ∈ c.tokens, t.span.stop.offset ≤ last.span.stop.offset := by
  have htoken : ∀ i (hi : i < c.tokens.length), c.tokens[i] = endless file source (k + i) := by
    intro i hi
    rw [endless_eq_token, ← token_skip]
    exact (Starts.token_eq h.starts hi).symm
  obtain ⟨r, hr, hrest⟩ := c.exists_rest_eq_skip ((Lexer.ofFile file source).stream.skip k)
  have hstop : last = endless file source (k + r) := by
    rw [hlast, hrest, skip_skip, endless_eq_token]
    rfl
  refine ⟨⟨fun t ht => ?_, List.pairwise_iff_getElem.2 fun i j hi hj hij => ?_⟩, fun t ht => ?_⟩
  · have hkind := (h.valid.kind_ne t ht).2
    obtain ⟨i, hi, rfl⟩ := List.getElem_of_mem ht
    rw [htoken i hi] at hkind ⊢
    exact UInt32.lt_iff_toNat_lt.2 ((endless_width file hsize _).2.2 hkind)
  · rw [htoken i hi, htoken j hj]
    exact UInt32.le_iff_toNat_le.2 (endless_stop_le file hsize (Nat.add_lt_add_left hij k))
  · obtain ⟨i, hi, rfl⟩ := List.getElem_of_mem ht
    rw [htoken i hi, hstop]
    exact UInt32.le_iff_toNat_le.2 (endless_stop_mono file hsize (by omega))

/-- A statement stands in its source. -/
theorem Clause.Ahead.within {c : Clause} {k : Nat}
    (h : c.Ahead ((Lexer.ofFile file source).stream.skip k)) {last : Token}
    (hlast : last = (c.rest ((Lexer.ofFile file source).stream.skip k)).current) :
    (c.statement last).span.Within (parseFile file source).1.span := by
  obtain ⟨r, -, hrest⟩ := c.exists_rest_eq_skip ((Lexer.ofFile file source).stream.skip k)
  obtain ⟨i, -, hstop⟩ := h.span_stop hrest
  rw [← hlast, token_skip, ← endless_eq_token] at hstop
  rw [parseFile_span, Span.Within, UInt32.le_iff_toNat_le, UInt32.le_iff_toNat_le, hstop,
    Position.toNat_offset_ofBytes file (by decide), Position.toNat_offset_ofBytes file hsize]
  exact ⟨Nat.zero_le _, (endless_width file hsize (k + i)).2.1⟩

/-- **Statements stand one after another.** -/
theorem parseFile_statements_before :
    (parseFile file source).1.statements.Pairwise fun x y => x.span.Before y.span := by
  obtain ⟨c, htried⟩ := outcomes_tried (stream_kind_ne_eof file source) maxNesting 0
  obtain ⟨ps, hmap, hps, hpairs⟩ := htried.placed
  rw [parseFile_statements, ← map_result_outcomes]
  rw [skip_zero] at hmap
  rw [← hmap, statementsOf, List.pairwise_filterMap, List.pairwise_map]
  refine hpairs.imp_of_mem ?_
  rintro ⟨item, k, j⟩ ⟨item', k', j'⟩ hp hq hjk x hx y hy
  cases item with
  | error => cases hx
  | ok =>
    cases hx
    cases item' with
    | error => cases hy
    | ok =>
      cases hy
      obtain ⟨i, rfl, hstop⟩ := (hps _ hp).1.stop_eq
      have hstart := (hps _ hq).1.start_eq
      rw [← endless_eq_token] at hstop hstart
      rw [Span.Before, hstop, hstart]
      exact UInt32.le_iff_toNat_le.2 (endless_stop_le file hsize hjk)

/-- **Spans are nested and ordered.** A program spans its source, of less than four gibibytes, and
its statements stand in it one after another. Each of them has a width and starts with the token
that introduces it; its word, its name and its value stand in it in this order. Every expression
runs from the first to the last of the tokens of its nodes, and its token and its operands stand in
it as they follow each other in the text. All positions name the source. -/
theorem parseFile_spans_nested :
    (parseFile file source).1.span = Span.ofBytes file (0, source.utf8ByteSize) ∧
      (∀ statement ∈ (parseFile file source).1.statements,
        statement.Laid ∧ statement.span.Within (parseFile file source).1.span) ∧
      (parseFile file source).1.statements.Pairwise (fun x y => x.span.Before y.span) ∧
      (∀ statement ∈ (parseFile file source).1.statements, ∀ e ∈ statement.expressions,
        e.span.OfTokens e.held ∧ e.span.PartedInto e.parts) ∧
      WithinFile file (parseFile file source) := by
  refine ⟨parseFile_span file source, fun statement hmem => ?_,
    parseFile_statements_before file hsize, fun statement hmem e he => ?_,
    parseFile_withinFile file source⟩
  · obtain ⟨k, c, last, hahead, -, hlast, rfl⟩ := exists_clause_of_mem_statements hmem
    obtain ⟨hts, hle⟩ := hahead.inOrder file hsize hlast
    exact ⟨hahead.valid.laid hts hle, hahead.within file hsize hlast⟩
  · obtain ⟨k, c, last, hahead, -, hlast, rfl⟩ := exists_clause_of_mem_statements hmem
    have hts := (hahead.inOrder file hsize hlast).1
    rcases Clause.mem_expressions he with ⟨x, hx, he⟩ | ⟨word, name, sign, value, rfl, rfl⟩
    · have hlaid := x.nodes_laid e he
      have hsub : e.held.Sublist c.tokens := by
        rw [Clause.tokens_of_value hx]
        refine (Expr.held_sublist he).trans (List.Sublist.trans ?_ (List.sublist_append_right _ _))
        rw [(hahead.valid.derives hx).held_tree]
        exact List.filter_sublist
      exact ⟨hlaid.ofTokens, hlaid.parted (hts.sublist hsub)⟩
    · have hlaid := (Phrase.identifier name).nodes_laid _ List.mem_cons_self
      have hsub : [name].Sublist [word, name, sign] :=
        .cons word (.cons_cons name (List.nil_sublist _))
      exact ⟨hlaid.ofTokens, hlaid.parted (hts.sublist (hsub.trans (List.sublist_append_left _ _)))⟩

end

/-- The parenthesis between the statements is skipped, and the result stops where the input ends. -/
theorem parseFile_spans_nested_around_failure :
    let source := "(a + b) * -c ) let d = (e); return  "
    let place (span : Span) : Nat × Nat := (span.start.offset.toNat, span.stop.offset.toNat)
    let statements := (parseFile "one" source).1.statements
    source.utf8ByteSize < UInt32.size ∧ (parseFile "one" source).2.length = 1 ∧
      statements.map (fun x => place x.span) = [(0, 12), (15, 27), (28, 36)] ∧
      statements.map (fun x => x.parts.map place) =
        [[(1, 12)], [(15, 18), (19, 20), (24, 25)], [(28, 34)]] ∧
      (∀ x ∈ statements, x.Laid) ∧ statements.Pairwise (fun x y => x.span.Before y.span) := by
  intro source place statements
  have hsize : source.utf8ByteSize < UInt32.size := by decide +kernel
  obtain ⟨-, hlaid, hordered, -⟩ := parseFile_spans_nested "one" hsize
  exact ⟨hsize, by decide +kernel, by decide +kernel, by decide +kernel,
    fun x hx => (hlaid x hx).1, hordered⟩

end FrontEnd
