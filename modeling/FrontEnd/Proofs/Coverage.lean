import FrontEnd.Proofs.Attempts
import FrontEnd.Proofs.Conservation
import FrontEnd.Proofs.RoundTrip
import FrontEnd.Proofs.Slices

/-!
# What the span of a node covers

What stands in a source where the span of a node says, parsed on its own, is that node again if the
parentheses match in it, and only then. A binding or a result ends with the token that the parser
stands on, so its span covers all of it. Parentheses have no node, and so no span: an expression
that begins or ends with some leaves them out of its own span on that side. An expression statement
begins with its first token, a parenthesis as well, but ends where its expression does, so that the
span of a statement in parentheses covers the first of them and not the last.

* `Expr.nodes`, `Program.nodes` — the nodes of a tree, expressions as statements of their own.
* `Reparses` — a text that is parsed to one node.
* `ReadAs` — tokens that are those of one statement.

Principal results: `Phrase.Parenthesised.core_eq_of_balanced` (a node whose parentheses match lacks
none), `reparses_iff_balanced`, and `parse_spans_reparse_iff` for every node of a source.
-/

namespace FrontEnd

open TokenStream

/-! ## Nodes -/

/-- An expression, and the expressions in it. -/
def Expr.nodes (e : Expr) : List Expr :=
  e :: match e with
    | .unary _ _ right _ => right.nodes
    | .binary _ left _ right _ => left.nodes ++ right.nodes
    | _ => []

def Expr.asStatement (e : Expr) : Stmt := .expression e.token e e.span

def Stmt.isExpression : Stmt → Bool
  | .expression .. => true
  | _ => false

/-- The expressions in a statement; the name of a binding is one. -/
def Stmt.expressions : Stmt → List Expr
  | .binding _ name value _ => .identifier name :: value.nodes
  | .result _ none _ => []
  | .result _ (some value) _ => value.nodes
  | .expression _ value _ => value.nodes

/-- The nodes of a program, expressions as statements of their own. -/
def Program.nodes (program : Program) : List Stmt :=
  program.statements.flatMap fun statement =>
    statement :: statement.expressions.map Expr.asStatement

/-! ## Parentheses around nodes -/

theorem Balanced.map_relocate {ts : List Token} (f : Position → Position) :
    Balanced (ts.map (Token.relocate f)) ↔ Balanced ts := by
  have hcount : ∀ us : List Token,
      (us.map (Token.relocate f)).countP Token.isClosing = us.countP Token.isClosing ∧
      (us.map (Token.relocate f)).countP Token.isOpening = us.countP Token.isOpening :=
    fun us => ⟨List.countP_map, List.countP_map⟩
  constructor
  · rintro ⟨hclosed, hopened⟩
    rw [(hcount ts).1, (hcount ts).2] at hclosed
    refine ⟨hclosed, fun k => ?_⟩
    have hk := hopened k
    rwa [← List.map_take, (hcount _).1, (hcount _).2] at hk
  · rintro ⟨hclosed, hopened⟩
    refine ⟨by rw [(hcount ts).1, (hcount ts).2, hclosed], fun k => ?_⟩
    rw [← List.map_take, (hcount _).1, (hcount _).2]
    exact hopened k

namespace Phrase

def isNode : Phrase → Bool
  | group .. => false
  | _ => true

namespace Parenthesised

variable {x : Phrase}

theorem count_openings (h : x.Parenthesised) :
    x.openings.countP Token.isOpening = x.openings.length ∧
      x.openings.countP Token.isClosing = 0 := by
  induction x with
  | identifier | integer | boolean | unary => exact ⟨rfl, rfl⟩
  | group opening inner closing ih =>
    obtain ⟨hk, hx, -⟩ := h
    obtain ⟨ho, hc, -⟩ := Token.opening_flags hk
    obtain ⟨hopening, hclosing⟩ := ih hx
    simp [openings, ho, hc, hopening, hclosing]
  | binary left _ _ ihl _ => exact ihl h.1

theorem count_closings (h : x.Parenthesised) :
    x.closings.countP Token.isOpening = 0 ∧
      x.closings.countP Token.isClosing = x.closings.length := by
  induction x with
  | identifier | integer | boolean => exact ⟨rfl, rfl⟩
  | unary _ _ ih => exact ih h.2
  | group opening inner closing ih =>
    obtain ⟨-, hx, hk⟩ := h
    obtain ⟨ho, hc, -⟩ := Token.closing_flags hk
    obtain ⟨hopening, hclosing⟩ := ih hx
    simp [closings, ho, hc, hopening, hclosing]
  | binary _ _ right _ ihr => exact ihr h.2.2

/-- Where the parentheses match without those at its end, a phrase has none there. -/
theorem closings_eq_nil (h : x.Parenthesised) (hb : Balanced (x.openings ++ x.core)) :
    x.closings = [] := by
  have hcount := h.count_closing
  have hclosed := hb.closed
  obtain ⟨hopening, hclosing⟩ := h.count_closings
  rw [x.tokens_eq_core] at hcount
  simp only [List.countP_append] at hcount hclosed
  exact List.length_eq_zero_iff.1 (by omega)

/-- Where the parentheses match without those at its beginning and end, a node has none at its
beginning: those that open before its left operand would have to close behind it. -/
theorem openings_eq_nil (h : x.Parenthesised) (hnode : x.isNode = true) (hb : Balanced x.core) :
    x.openings = [] := by
  cases x with
  | identifier | integer | boolean | unary => rfl
  | group => cases hnode
  | binary left operator right =>
    have hcount := h.1.count_closing
    have hprefix := hb.opened (left.core ++ left.closings).length
    obtain ⟨hopening, hclosing⟩ := h.1.count_openings
    rw [left.tokens_eq_core] at hcount
    rw [core, ← List.append_assoc, List.take_left] at hprefix
    simp only [List.countP_append] at hcount hprefix
    exact List.length_eq_zero_iff.1 (show left.openings.length = 0 by omega)

/-- **A node whose parentheses match** has none before its first node or after its last. -/
theorem core_eq_of_balanced (h : x.Parenthesised) (hnode : x.isNode = true)
    (hb : Balanced x.core) : x.core = x.tokens := by
  have hopenings := h.openings_eq_nil hnode hb
  have hclosings : x.closings = [] := h.closings_eq_nil (by rwa [hopenings])
  rw [x.tokens_eq_core, hopenings, hclosings, List.append_nil, List.nil_append]

end Parenthesised

end Phrase

/-- Every node of a tree is that of a phrase among its tokens. -/
theorem Derives.exists_of_mem_nodes {l : Level} {u : List Token} {x : Phrase} (h : Derives l u x)
    {e : Expr} (he : e ∈ x.tree.nodes) :
    ∃ m y a b, Derives m y.tokens y ∧ y.isNode = true ∧ y.tree = e ∧ y.need ≤ x.need ∧
      u = a ++ (y.tokens ++ b) := by
  -- the node itself, if it is the phrase's own
  have hself : ∀ {l : Level} {u : List Token} {x : Phrase}, Derives l u x → x.isNode = true →
      x.tree = e → ∃ m y a b, Derives m y.tokens y ∧ y.isNode = true ∧ y.tree = e ∧
        y.need ≤ x.need ∧ u = a ++ (y.tokens ++ b) := by
    intro l u x h hnode htree
    have htokens := h.tokens_eq
    subst htokens
    exact ⟨l, x, [], [], h, hnode, htree, Nat.le_refl _, by simp⟩
  induction h with
  | identifier h => exact hself (.identifier h) rfl (List.mem_singleton.1 he).symm
  | integer h hv => exact hself (.integer h hv) rfl (List.mem_singleton.1 he).symm
  | boolean h => exact hself (.boolean h) rfl (List.mem_singleton.1 he).symm
  | @unary operator u x hop hx ih =>
    rcases List.mem_cons.1 he with rfl | he
    · exact hself (.unary hop hx) rfl rfl
    · obtain ⟨m, y, a, b, hy, hnode, htree, hneed, rfl⟩ := ih he
      exact ⟨m, y, operator :: a, b, hy, hnode, htree, Nat.le_add_left_of_le hneed, rfl⟩
  | @group opening closing u x ho hx hc ih =>
    obtain ⟨m, y, a, b, hy, hnode, htree, hneed, rfl⟩ := ih he
    exact ⟨m, y, opening :: a, b ++ [closing], hy, hnode, htree, Nat.le_add_left_of_le hneed,
      by simp⟩
  | @chain l u v x y operator hx hop hy ihx ihy =>
    rcases List.mem_cons.1 he with rfl | he
    · exact hself (.chain hx hop hy) rfl rfl
    · rcases List.mem_append.1 he with he | he
      · obtain ⟨m, z, a, b, hz, hnode, htree, hneed, rfl⟩ := ihx he
        exact ⟨m, z, a, b ++ operator :: v, hz, hnode, htree,
          Nat.le_trans hneed (Nat.le_max_left _ _), by simp⟩
      · obtain ⟨m, z, a, b, hz, hnode, htree, hneed, rfl⟩ := ihy he
        exact ⟨m, z, u ++ operator :: a, b, hz, hnode, htree,
          Nat.le_trans (Nat.le_add_left_of_le hneed) (Nat.le_max_right _ _), by simp⟩
  | single _ ih => exact ih he

/-! ## Texts of one statement -/

/-- The text is parsed to the node, up to positions and the first token of an expression. -/
def Reparses (piece : String) (node : Stmt) : Prop :=
  (parse piece).2 = [] ∧ (parse piece).1.statements.map Stmt.bare = [node.bare]

/-- The tokens are those of a statement which is the node, up to positions. -/
def ReadAs (m : List Token) (node : Stmt) : Prop :=
  ∃ (c : Clause) (semicolon : Option Token) (last : Token), c.Valid ∧ c.Fits maxNesting ∧
    (∀ t ∈ semicolon, t.kind = .semicolon) ∧ m = c.tokens ++ semicolon.toList ∧
    node.bare = (c.statement last).bare

/-- Where a statement ends makes no difference but to its span. -/
theorem Clause.bare_statement (c : Clause) (last last' : Token) :
    (c.statement last).bare = (c.statement last').bare := by
  cases c <;> rfl

/-- A clause that is all there is, but for a semicolon, is parsed to its statement. -/
theorem Clause.Valid.rounds_alone {c : Clause} (h : c.Valid) (hfits : c.Fits maxNesting)
    {semicolon : Option Token} (hs : ∀ t ∈ semicolon, t.kind = .semicolon) (stop : Position) :
    ∃ last, rounds .default maxNesting ⟨c.tokens ++ semicolon.toList, stop, 0⟩ =
      [.ok (c.statement last)] := by
  let s : TokenStream := ⟨c.tokens ++ semicolon.toList, stop, 0⟩
  have hend : (s.skip c.tokens.length).current.kind = .semicolon ∨
      (s.skip c.tokens.length).current.kind = .eof := by
    have hpending : (s.skip c.tokens.length).pending = semicolon.toList := List.drop_left
    cases semicolon with
    | none =>
      rw [current_of_nil hpending]
      exact .inr rfl
    | some t =>
      rw [current_of_cons hpending]
      exact .inl (hs t rfl)
  have hahead : c.Ahead s := by
    refine ⟨h, List.prefix_append _ _, ?_⟩
    unfold Clause.EndsBefore
    split
    · exact hend
    · rcases hend with hend | hend <;> rw [hend] <;> decide
  have hnext : (c.rest s).next.pending = [] := by
    rw [hahead.pending_rest rfl fun t ht => by rw [hs t (Option.mem_toList.1 ht)]; decide]
    cases semicolon with
    | none => rfl
    | some t => exact if_pos (hs t rfl)
  refine ⟨(c.rest s).current, ?_⟩
  rw [hahead.rounds_eq hfits, rounds_of_atEnd (atEnd_of_nil hnext)]

/-- What a text is parsed to can be told from its tokens, wherever they stand. -/
theorem reparses_iff {piece : String} {m : List Token}
    (h : lexed piece.toList = m.map (Token.relocate fun _ => .null)) (node : Stmt) :
    Reparses piece node ↔
      diagnosticsOf (rounds .default maxNesting ⟨m, .null, 0⟩) = [] ∧
        (statementsOf (rounds .default maxNesting ⟨m, .null, 0⟩)).map Stmt.bare = [node.bare] := by
  have hrounds : attempts piece.toList 0 =
      (rounds .default maxNesting ⟨m, .null, 0⟩).map (relocateItem fun _ => .null) := by
    rw [attempts, h, ← rounds_relocate _ 0]
    rfl
  obtain ⟨hdiagnostics, hstatements⟩ := parse_lexed piece
  rw [hrounds, diagnosticsOf_relocate] at hdiagnostics
  rw [hrounds, statementsOf_relocate, List.map_map] at hstatements
  have hbare : (statementsOf (rounds .default maxNesting ⟨m, .null, 0⟩)).map Stmt.bare =
      (parse piece).1.statements.map Stmt.bare := by
    rw [← hstatements]
    exact List.map_congr_left fun statement _ => (statement.bare_relocate _).symm
  rw [Reparses, hbare, ← List.map_eq_nil_iff, ← hdiagnostics, List.map_eq_nil_iff]

theorem ReadAs.reparses {piece : String} {m : List Token} {node : Stmt} (hread : ReadAs m node)
    (h : lexed piece.toList = m.map (Token.relocate fun _ => .null)) : Reparses piece node := by
  obtain ⟨c, semicolon, last, hvalid, hfits, hs, rfl, hbare⟩ := hread
  obtain ⟨last', hrounds⟩ := hvalid.rounds_alone hfits hs .null
  rw [reparses_iff h, hrounds]
  refine ⟨rfl, ?_⟩
  rw [statementsOf_ok, statementsOf_nil, List.map_singleton, hbare, c.bare_statement last' last]

/-- **The parentheses decide**, where tokens with matching parentheses are those of the node. -/
theorem reparses_iff_balanced {piece : String} {m : List Token} {node : Stmt}
    (h : lexed piece.toList = m.map (Token.relocate fun _ => .null))
    (heof : ∀ t ∈ m, t.kind ≠ .eof) (hread : Balanced m → ReadAs m node) :
    Reparses piece node ↔ Balanced (tokensOf piece) := by
  have hbalanced : Balanced (tokensOf piece) ↔ Balanced m := by
    have hm : Balanced (lexed piece.toList) ↔ Balanced m := by rw [h, Balanced.map_relocate]
    rw [← hm]
    exact (Balanced.map_relocate _).symm
  rw [hbalanced]
  refine ⟨fun hreparses => ?_, fun hb => (hread hb).reparses h⟩
  have hclean := ((reparses_iff h node).1 hreparses).1
  obtain ⟨xs, -, hxs, htokens⟩ := rounds_stretches heof hclean
  rw [show m = _ from htokens]
  exact (Stretch.held_flatMap hxs).2

/-! ## What spans cover -/

/-- What stands in the source where the span of the node says. -/
def Stmt.Covers (node : Stmt) (source piece : String) : Prop :=
  Stands source node.span.start.offset.toNat node.span.stop.offset.toNat piece

theorem kind_ne_eof_of_mem {source : String} {a m b : List Token}
    (h : tokensOf source = a ++ (m ++ b)) : ∀ t ∈ m, t.kind ≠ .eof := fun t ht =>
  (Lexer.scans_tokens _).kind_ne_eof
    (show t ∈ tokensOf source by rw [h]; exact List.mem_append_right _ (List.mem_append_left _ ht))

theorem Derives.readAs {l : Level} {u : List Token} {x : Phrase} (h : Derives l u x)
    (hneed : x.need ≤ maxNesting) {node : Stmt} {token : Token} {span : Span}
    (hnode : node = .expression token x.tree span) : ReadAs x.tokens node := by
  obtain rfl := h.tokens_eq
  have hlevel : Level.equality.power ≤ l.power := by cases l <;> decide
  refine ⟨.expression x, none, .filler, .expression (h.loosen hlevel), ?_,
    fun t ht => (nomatch ht), ?_, ?_⟩
  · rintro _ ⟨⟩
    exact hneed
  · rw [Option.toList_none, List.append_nil]
    rfl
  · rw [hnode]
    rfl

/-- How far a clause goes that is ahead: to its last token, or to the semicolon behind it. After a
result without a value the parser may stand on the end of input instead. -/
theorem Clause.Ahead.extent {c : Clause} {s : TokenStream} (h : c.Ahead s)
    (heof : ∀ t ∈ s.pending, t.kind ≠ .eof) :
    ∃ (semicolon : Option Token) (ts : List Token), (∀ t ∈ semicolon, t.kind = .semicolon) ∧
      s.pending = (c.tokens ++ semicolon.toList) ++ ts ∧
      ((c.tokens ++ semicolon.toList).getLast? = some (c.rest s).current ∨
        ts = [] ∧ (c.rest s).current = s.closing) := by
  have hne := h.valid.tokens_ne_nil
  have hpos := List.length_pos_iff.2 hne
  obtain ⟨ts, hts⟩ := h.starts
  have hskip : (s.skip c.tokens.length).pending = ts := by
    rw [skip_pending, ← hts, List.drop_left]
  by_cases hsemi : (s.skip c.tokens.length).current.kind = .semicolon
  · -- the parser stands on the semicolon
    have hrest : c.rest s = s.skip c.tokens.length := by
      unfold Clause.rest
      split
      · rename_i hx
        rw [Clause.length_tokens_of_none hx, next_eq_skip]
      · rw [skipPeek, if_pos (by rw [peek_skip_pred hne, hsemi]), next_skip,
          Nat.sub_add_cancel hpos]
    cases ts with
    | nil =>
      rw [current_of_nil hskip] at hsemi
      cases hsemi
    | cons t ts =>
      rw [current_of_cons hskip] at hsemi
      refine ⟨some t, ts, ?_, ?_, .inl ?_⟩
      · rintro _ ⟨⟩
        exact hsemi
      · rw [← hts, Option.toList_some, List.append_assoc]
        rfl
      · rw [hrest, current_of_cons hskip, Option.toList_some, List.getLast?_concat]
  · refine ⟨none, ts, fun t ht => absurd ht (Option.not_mem_none t), ?_, ?_⟩
    · rw [Option.toList_none, List.append_nil, hts]
    · unfold Clause.rest
      split
      · rename_i hx
        have hends := h.ends
        unfold Clause.EndsBefore at hends
        simp only [hx] at hends
        have hnil : ts = [] := by
          have hend := hends.resolve_left hsemi
          rw [← hskip]
          refine pending_eq_nil_of_atEnd (fun t ht => heof t (List.mem_of_mem_drop ht)) ?_
          exact decide_eq_true hend
        rw [Clause.length_tokens_of_none hx, ← next_eq_skip, hnil] at hskip
        exact .inr ⟨hnil, current_of_nil hskip⟩
      · left
        rw [skipPeek, if_neg (by rwa [peek_skip_pred hne]), Option.toList_none, List.append_nil,
          List.getLast?_eq_getElem?, List.getElem?_eq_getElem (by omega)]
        exact congrArg some (Starts.token_eq h.starts (by omega)).symm

/-- Every statement of a source is a clause in it. -/
theorem exists_clause_of_mem_statements {file source : String} {statement : Stmt}
    (h : statement ∈ (parseFile file source).1.statements) :
    ∃ (k : Nat) (c : Clause) (last : Token),
      c.Ahead ((Lexer.ofFile file source).stream.skip k) ∧ c.Fits maxNesting ∧
      last = (c.rest ((Lexer.ofFile file source).stream.skip k)).current ∧
      statement = c.statement last := by
  obtain ⟨_, htried⟩ := outcomes_tried (stream_kind_ne_eof file source) maxNesting 0
  rw [parseFile_statements, mem_statementsOf, ← map_result_outcomes] at h
  obtain ⟨k, r, hfound⟩ := htried.exists_found h
  obtain ⟨c, hahead, hfits, rfl, rfl⟩ := parseStmt_sound hfound
  exact ⟨k, c, _, hahead, hfits, rfl, rfl⟩

/-- The expressions of a statement are those of the expression that its clause holds, and the name
of a binding. -/
theorem Clause.mem_expressions {c : Clause} {last : Token} {e : Expr}
    (h : e ∈ (c.statement last).expressions) :
    (∃ x, c.value? = some x ∧ e ∈ x.tree.nodes) ∨
      ∃ word name sign value, c = .binding word name sign value ∧
        e = .identifier (.ofToken name) := by
  cases c with
  | binding word name sign value =>
    rcases List.mem_cons.1 h with rfl | h
    · exact .inr ⟨word, name, sign, value, rfl, rfl⟩
    · exact .inl ⟨value, rfl, h⟩
  | result word value =>
    cases value with
    | none => cases h
    | some value => exact .inl ⟨value, rfl, h⟩
  | expression value => exact .inl ⟨value, rfl, h⟩

section

variable {source : String} (hsize : source.utf8ByteSize < UInt32.size)

include hsize

/-- **Expressions.** The span of an expression covers the core of its phrase. -/
theorem Derives.nodes_covered {l : Level} {a b : List Token} {x : Phrase}
    (h : Derives l x.tokens x) (hneed : x.need ≤ maxNesting)
    (htokens : tokensOf source = a ++ (x.tokens ++ b)) {e : Expr} (he : e ∈ x.tree.nodes) :
    ∃ piece, e.asStatement.Covers source piece ∧
      (Reparses piece e.asStatement ↔ Balanced (tokensOf piece)) := by
  obtain ⟨m, y, a', b', hy, hnode, rfl, hle, hx⟩ := h.exists_of_mem_nodes he
  have hsplit : tokensOf source =
      (a ++ (a' ++ y.openings)) ++ (y.core ++ (y.closings ++ (b' ++ b))) := by
    rw [htokens, hx, y.tokens_eq_core]
    simp only [List.append_assoc]
  obtain ⟨piece, hstands, hlexed⟩ := exists_part hsize hsplit y.core_ne_nil
  refine ⟨piece, ?_, reparses_iff_balanced hlexed (kind_ne_eof_of_mem hsplit) fun hb => ?_⟩
  · unfold Stmt.Covers
    rw [Expr.asStatement, Stmt.span, y.tree_span]
    exact hstands
  · rw [hy.parenthesised.core_eq_of_balanced hnode hb]
    exact hy.readAs (Nat.le_trans hle hneed) rfl

/-- **Expression statements.** Their span covers the core of their phrase and what opens before. -/
theorem Derives.statement_covered {l : Level} {a b : List Token} {x : Phrase}
    (h : Derives l x.tokens x) (hneed : x.need ≤ maxNesting)
    (htokens : tokensOf source = a ++ (x.tokens ++ b)) {statement : Stmt}
    (hstatement : statement =
      .expression x.first x.tree ⟨x.first.span.start, x.tree.span.stop⟩) :
    ∃ piece, statement.Covers source piece ∧
      (Reparses piece statement ↔ Balanced (tokensOf piece)) := by
  have hne : x.openings ++ x.core ≠ [] := List.append_ne_nil_of_right_ne_nil _ x.core_ne_nil
  have hsplit : tokensOf source = a ++ ((x.openings ++ x.core) ++ (x.closings ++ b)) := by
    rw [htokens, x.tokens_eq_core]
    simp only [List.append_assoc]
  obtain ⟨piece, hstands, hlexed⟩ := exists_part hsize hsplit hne
  refine ⟨piece, ?_, reparses_iff_balanced hlexed (kind_ne_eof_of_mem hsplit) fun hb => ?_⟩
  · have hfirst : x.first = (x.openings ++ x.core).head hne := by
      unfold Phrase.first
      simp only [x.tokens_eq_core, ← List.append_assoc, List.head_append_of_ne_nil hne]
    have hlast : (x.openings ++ x.core).getLast hne = x.core.getLast x.core_ne_nil :=
      List.getLast_append_of_ne_nil _ x.core_ne_nil
    unfold Stmt.Covers
    rw [hstatement, Stmt.span, hfirst, x.tree_span, ← hlast]
    exact hstands
  · have hclosings := h.parenthesised.closings_eq_nil hb
    have htokens : x.openings ++ x.core = x.tokens := by
      rw [x.tokens_eq_core, hclosings, List.append_nil]
    rw [htokens]
    exact h.readAs hneed hstatement

/-- **Bindings and results.** Their span covers all of the statement. -/
theorem Clause.Ahead.covered {c : Clause} {k : Nat} (h : c.Ahead ((streamOf source).skip k))
    (hfits : c.Fits maxNesting) {last : Token}
    (hlast : last = (c.rest ((streamOf source).skip k)).current)
    (hspan : (c.statement last).span =
      ⟨(c.tokens.head h.valid.tokens_ne_nil).span.start, last.span.stop⟩) :
    ∃ piece, (c.statement last).Covers source piece ∧ Reparses piece (c.statement last) ∧
      Balanced (tokensOf piece) := by
  have hne := h.valid.tokens_ne_nil
  have hsource : (streamOf source).pending = tokensOf source := by rw [streamOf_eq]
  have heof : ∀ t ∈ tokensOf source, t.kind ≠ .eof := fun t => (Lexer.scans_tokens _).kind_ne_eof
  obtain ⟨semicolon, ts, hs, hpending, hextent⟩ :=
    h.extent fun t ht => heof t (hsource ▸ List.mem_of_mem_drop ht)
  have hread : ReadAs (c.tokens ++ semicolon.toList) (c.statement last) :=
    ⟨c, semicolon, last, h.valid, hfits, hs, rfl, rfl⟩
  have hm : c.tokens ++ semicolon.toList ≠ [] := List.append_ne_nil_of_left_ne_nil hne _
  have hhead : (c.tokens ++ semicolon.toList).head hm = c.tokens.head hne :=
    List.head_append_of_ne_nil hne
  have hsplit : tokensOf source =
      (tokensOf source).take k ++ ((c.tokens ++ semicolon.toList) ++ ts) := by
    rw [← hpending, skip_pending, hsource, List.take_append_drop]
  obtain ⟨piece, hcovers, hlexed⟩ : ∃ piece, (c.statement last).Covers source piece ∧
      lexed piece.toList =
        (c.tokens ++ semicolon.toList).map (Token.relocate fun _ => .null) := by
    unfold Stmt.Covers
    rw [hspan]
    rcases hextent with hextent | ⟨rfl, hclosing⟩
    · obtain ⟨piece, hstands, hlexed⟩ := exists_part hsize hsplit hm
      have hstop : last = (c.tokens ++ semicolon.toList).getLast hm := by
        rw [List.getLast?_eq_getLast_of_ne_nil hm, ← hlast] at hextent
        exact (Option.some.inj hextent).symm
      rw [hhead, ← hstop] at hstands
      exact ⟨piece, hstands, hlexed⟩
    · rw [List.append_nil] at hsplit
      obtain ⟨piece, hstands, hlexed⟩ := exists_part_to_end hsize hsplit hm
      have hstop : last.span.stop.offset.toNat = source.utf8ByteSize := by
        rw [hlast, hclosing, streamOf_eq]
        exact Position.toNat_offset_ofBytes _ hsize
      rw [hhead, ← hstop] at hstands
      exact ⟨piece, hstands, hlexed⟩
  have hreparses := hread.reparses hlexed
  refine ⟨piece, hcovers, hreparses, ?_⟩
  exact (reparses_iff_balanced hlexed (kind_ne_eof_of_mem hsplit) fun _ => hread).1 hreparses

/-- **The nodes of a statement.** -/
theorem Clause.Ahead.nodes_covered {c : Clause} {k : Nat} (h : c.Ahead ((streamOf source).skip k))
    (hfits : c.Fits maxNesting) {last : Token}
    (hlast : last = (c.rest ((streamOf source).skip k)).current) :
    ∀ node ∈ c.statement last :: (c.statement last).expressions.map Expr.asStatement,
      ∃ piece, node.Covers source piece ∧ (Reparses piece node ↔ Balanced (tokensOf piece)) := by
  have hvalid := h.valid
  obtain ⟨ts, hts⟩ := h.starts
  have htokens : tokensOf source = (tokensOf source).take k ++ (c.tokens ++ ts) := by
    rw [hts, skip_pending, streamOf_eq, List.take_append_drop]
  refine List.forall_mem_cons.2 ⟨?_, List.forall_mem_map.2 fun e he => ?_⟩
  · cases c with
    | binding | result =>
      obtain ⟨piece, hcovers, hreparses, hbalanced⟩ := h.covered hsize hfits hlast rfl
      exact ⟨piece, hcovers, iff_of_true hreparses hbalanced⟩
    | expression x =>
      exact (hvalid.derives rfl).statement_covered hsize (hfits x rfl) htokens rfl
  · rcases Clause.mem_expressions he with ⟨x, hx, he⟩ | ⟨word, name, sign, value, rfl, rfl⟩
    · rw [Clause.tokens_of_value hx, List.append_assoc, ← List.append_assoc] at htokens
      exact (hvalid.derives hx).nodes_covered hsize (hfits x hx) htokens he
    · cases hvalid with
      | binding _ hname _ _ =>
        have hsplit : tokensOf source = ((tokensOf source).take k ++ [word]) ++
            ([name] ++ (sign :: (value.tokens ++ ts))) := by
          rw [List.append_assoc]
          exact htokens
        have hderives : Derives .unary (Phrase.identifier name).tokens (.identifier name) :=
          .identifier hname
        exact hderives.nodes_covered hsize (show 1 ≤ maxNesting by decide) hsplit
          List.mem_cons_self

/-- **A node is what its span covers if the parentheses match there, and only then.** What stands in
a source of less than four gibibytes where the span of a statement or of an expression says is
parsed to that node alone, up to positions, if and only if its parentheses match. For bindings and
results they always do. -/
theorem parse_spans_reparse_iff :
    (∀ node ∈ (parse source).1.nodes, ∃ piece, node.Covers source piece ∧
        (Reparses piece node ↔ Balanced (tokensOf piece))) ∧
      ∀ statement ∈ (parse source).1.statements, statement.isExpression = false →
        ∃ piece, statement.Covers source piece ∧ Reparses piece statement := by
  constructor
  · intro node hnode
    obtain ⟨statement, hmem, hnode⟩ := List.mem_flatMap.1 hnode
    obtain ⟨k, c, last, hahead, hfits, hlast, rfl⟩ := exists_clause_of_mem_statements hmem
    exact hahead.nodes_covered hsize hfits hlast node hnode
  · intro statement hmem hkind
    obtain ⟨k, c, last, hahead, hfits, hlast, rfl⟩ := exists_clause_of_mem_statements hmem
    cases c with
    | binding | result =>
      obtain ⟨piece, hcovers, hreparses, -⟩ := hahead.covered hsize hfits hlast rfl
      exact ⟨piece, hcovers, hreparses⟩
    | expression x => cases hkind

end

/-- The text that a span covers is the one that stands there. -/
theorem Stmt.Covers.eq {node : Stmt} {source piece : String} (h : node.Covers source piece)
    (text : String)
    (htext : source.toByteArray.extract node.span.start.offset.toNat
      node.span.stop.offset.toNat = text.toByteArray) : piece = text :=
  String.toByteArray_inj.1 (h.extract_eq.symm.trans htext)

/-- In the first statement the parentheses around the sum are not closed where the span ends. -/
theorem parse_spans_reparse_iff_two_groups :
    let source := "-(a + b) let c = (d);"
    source.utf8ByteSize < UInt32.size ∧
      (∃ node ∈ (parse source).1.nodes, node.text = "(-(a + b))" ∧
        ∃ piece, node.Covers source piece ∧ ¬ Reparses piece node) ∧
      ∃ statement ∈ (parse source).1.statements, statement.text = "let c = d;" ∧
        ∃ piece, statement.Covers source piece ∧ Reparses piece statement := by
  intro source
  have hsize : source.utf8ByteSize < UInt32.size := by decide +kernel
  obtain ⟨hnodes, hstatements⟩ := parse_spans_reparse_iff hsize
  refine ⟨hsize, ?_, ?_⟩
  · let node := (parse source).1.nodes.head (by decide +kernel)
    have hmem : node ∈ (parse source).1.nodes := List.head_mem _
    obtain ⟨piece, hcovers, hiff⟩ := hnodes node hmem
    obtain rfl := hcovers.eq "-(a + b" (by decide +kernel)
    refine ⟨node, hmem, by decide +kernel, _, hcovers, fun hreparses => ?_⟩
    have hclosed := (hiff.1 hreparses).closed
    revert hclosed
    decide +kernel
  · let statement := (parse source).1.statements.getLast (by decide +kernel)
    have hmem : statement ∈ (parse source).1.statements := List.getLast_mem _
    exact ⟨statement, hmem, by decide +kernel, hstatements statement hmem (by decide +kernel)⟩

/-- The span of a name in parentheses, as a statement, covers the first of them and not the last. -/
theorem not_reparses_of_closing_paren :
    (parse "(a)").2 = [] ∧ ∃ node ∈ (parse "(a)").1.nodes,
      ∀ piece, node.Covers "(a)" piece → ¬ Reparses piece node := by
  refine ⟨by decide +kernel, (parse "(a)").1.nodes.head (by decide +kernel), List.head_mem _,
    fun piece hcovers hreparses => ?_⟩
  obtain rfl := hcovers.eq "(a" (by decide +kernel)
  have hclean := hreparses.1
  revert hclean
  decide +kernel

end FrontEnd
