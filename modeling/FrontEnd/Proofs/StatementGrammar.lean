import FrontEnd.Proofs.ExpressionGrammar

/-!
# The parser reads exactly the statements

A statement is a clause of one of three forms, and a semicolon if one comes next. Which form a
clause has shows in its first token. Its value is an expression, which ends before the first token
that cannot go on with it, whether or not a semicolon stands there.

* `Clause` — a statement as far as its semicolon; `Clause.Valid` is the grammar.
* `Clause.Ahead` — a stream that begins with a clause, which ends there.
* `Clause.rest`, `Clause.statement` — where the parser stands after a clause, and what it found.

Principal results: `parseStmt_sound` (a statement that is found is made of a clause that is ahead,
with an expression that nests no deeper than the levels that are left) and `Clause.Ahead.run` (every
such clause is found).
-/

namespace FrontEnd

open TokenStream

/-! ## The three forms of statement -/

section

variable {levels : Nat} {s : TokenStream}

theorem parseStmt_binding (hword : s.current.kind = .letWord)
    (hname : (s.skip 1).current.kind = .identifier) (hsign : (s.skip 2).current.kind = .assign) :
    parseStmt .default levels s =
      (parseExpr .default levels .lowest (s.skip 3)).andThen fun value r =>
        .found (.binding s.current (.ofToken (s.skip 1).current) value
            ⟨s.current.span.start, (r.skipPeek .semicolon).current.span.stop⟩)
          (r.skipPeek .semicolon) := by
  have hrule : Tables.default.statementRule s.current.kind = .binding := by
    rw [hword]
    rfl
  have hfirst : s.expectPeek .identifier = .found () (s.skip 1) := by
    rw [expectPeek, peek_eq_skip, next_eq_skip, if_pos hname]
  have hsecond : (s.skip 1).expectPeek .assign = .found () (s.skip 2) := by
    rw [expectPeek, peek_eq_skip, skip_skip, next_skip, if_pos hsign]
  rw [parseStmt, hrule]
  simp only [StatementRule.run, hfirst, Outcome.andThen_found, hsecond, next_skip]

theorem parseStmt_result_none (hword : s.current.kind = .returnWord)
    (hend : (s.skip 1).current.kind = .semicolon ∨ (s.skip 1).current.kind = .eof) :
    parseStmt .default levels s =
      .found (.result s.current none ⟨s.current.span.start, s.next.current.span.stop⟩) s.next := by
  have hrule : Tables.default.statementRule s.current.kind = .result := by
    rw [hword]
    rfl
  rw [parseStmt, hrule]
  exact if_pos (next_eq_skip s ▸ hend)

theorem parseStmt_result (hword : s.current.kind = .returnWord)
    (hsemi : (s.skip 1).current.kind ≠ .semicolon) (heof : (s.skip 1).current.kind ≠ .eof) :
    parseStmt .default levels s =
      (parseExpr .default levels .lowest (s.skip 1)).andThen fun value r =>
        .found (.result s.current (some value)
            ⟨s.current.span.start, (r.skipPeek .semicolon).current.span.stop⟩)
          (r.skipPeek .semicolon) := by
  have hrule : Tables.default.statementRule s.current.kind = .result := by
    rw [hword]
    rfl
  rw [← next_eq_skip] at hsemi heof ⊢
  rw [parseStmt, hrule]
  exact if_neg (not_or.2 ⟨hsemi, heof⟩)

theorem parseStmt_expression
    (hrule : Tables.default.statementRule s.current.kind = .expression) :
    parseStmt .default levels s =
      (parseExpr .default levels .lowest s).andThen fun value r =>
        .found (.expression s.current value ⟨s.current.span.start, value.span.stop⟩)
          (r.skipPeek .semicolon) := by
  rw [parseStmt, hrule]
  rfl

end

theorem expectPeek_found {s r : TokenStream} {kind : TokenKind}
    (h : s.expectPeek kind = .found () r) : r = s.next ∧ r.current.kind = kind := by
  unfold expectPeek at h
  split at h
  · rename_i hkind
    cases h
    exact ⟨rfl, by rw [current_next, hkind]⟩
  · cases h

theorem expectPeek_failed {s r : TokenStream} {kind : TokenKind} {d : Diagnostic}
    (h : s.expectPeek kind = .failed d r) :
    (s.skip 1).current.kind ≠ kind ∧
      d.cause = .unexpectedToken kind (s.skip 1).current.kind (s.skip 1).current.text := by
  rw [expectPeek, peek_eq_skip] at h
  split at h
  · cases h
  · rename_i hkind
    cases h
    exact ⟨hkind, rfl⟩

theorem kind_of_binding {kind : TokenKind}
    (h : Tables.default.statementRule kind = .binding) : kind = .letWord := by
  revert h
  cases kind <;> decide

theorem kind_of_result {kind : TokenKind}
    (h : Tables.default.statementRule kind = .result) : kind = .returnWord := by
  revert h
  cases kind <;> decide

/-- The tokens after a statement that ends before `ts`: a semicolon belongs to the statement. -/
def afterStatement : List Token → List Token
  | [] => []
  | t :: ts => if t.kind = .semicolon then ts else t :: ts

theorem next_skipPeek_semicolon (s : TokenStream) :
    ∃ m, (s.skipPeek .semicolon).next = ⟨afterStatement s.next.pending, s.stop, m⟩ := by
  obtain ⟨pending, stop, passed⟩ := s
  rcases pending with _ | ⟨t, _ | ⟨u, r⟩⟩
  · exact ⟨_, rfl⟩
  · exact ⟨_, rfl⟩
  · by_cases hu : u.kind = .semicolon
    · exact ⟨passed + 1 + 1, by simp [skipPeek, peek, next, afterStatement, hu]⟩
    · exact ⟨passed + 1, by simp [skipPeek, peek, next, afterStatement, hu]⟩

/-! ## First tokens -/

def Phrase.first (x : Phrase) : Token := x.tokens.head x.tokens_ne_nil

theorem Phrase.tokens_eq_cons (x : Phrase) : x.tokens = x.first :: x.tokens.tail :=
  (List.cons_head_tail x.tokens_ne_nil).symm

theorem TokenStream.Starts.current_eq_first {s : TokenStream} {x : Phrase} (h : s.Starts x.tokens) :
    s.current = x.first := by
  rw [x.tokens_eq_cons] at h
  exact h.current_eq

/-- A phrase begins with a token that expressions may begin with. -/
theorem Derives.default?_first {l : Level} {u : List Token} {x : Phrase} (h : Derives l u x) :
    PrefixRule.default? x.first.kind ≠ none := by
  induction h with
  | identifier h => simp [Phrase.first, Phrase.tokens, h, PrefixRule.default?]
  | integer h _ => simp [Phrase.first, Phrase.tokens, h, PrefixRule.default?]
  | boolean h => rcases h with h | h <;> simp [Phrase.first, Phrase.tokens, h, PrefixRule.default?]
  | unary h _ _ =>
    rcases h with h | h <;> simp [Phrase.first, Phrase.tokens, h, PrefixRule.default?]
  | group h _ _ _ => simp [Phrase.first, Phrase.tokens, h, PrefixRule.default?]
  | @chain _ _ _ x _ _ _ _ _ ihx _ =>
    simpa only [Phrase.first, Phrase.tokens, List.head_append_of_ne_nil x.tokens_ne_nil] using ihx
  | single _ ih => exact ih

theorem Derives.first_kind_ne {l : Level} {u : List Token} {x : Phrase} (h : Derives l u x)
    {kind : TokenKind} (hkind : PrefixRule.default? kind = none) : x.first.kind ≠ kind := by
  intro heq
  rw [← heq] at hkind
  exact h.default?_first hkind

/-- What begins like an expression is an expression statement. -/
theorem statementRule_of_prefixRule {kind : TokenKind} (h : PrefixRule.default? kind ≠ none) :
    Tables.default.statementRule kind = .expression := by
  revert h
  cases kind <;> decide

/-! ## Clauses -/

/-- A statement as far as its semicolon. -/
inductive Clause where
  | binding (word name sign : Token) (value : Phrase)
  | result (word : Token) (value : Option Phrase)
  | expression (value : Phrase)

namespace Clause

def lead : Clause → List Token
  | binding word name sign _ => [word, name, sign]
  | result word _ => [word]
  | expression _ => []

def value? : Clause → Option Phrase
  | binding _ _ _ value => some value
  | result _ value => value
  | expression value => some value

def tokens (c : Clause) : List Token := c.lead ++ c.value?.elim [] Phrase.tokens

/-- The grammar of clauses. -/
inductive Valid : Clause → Prop where
  | binding {word name sign : Token} {value : Phrase} (hword : word.kind = .letWord)
    (hname : name.kind = .identifier) (hsign : sign.kind = .assign)
    (hvalue : Derives .equality value.tokens value) : Valid (.binding word name sign value)
  | result {word : Token} {value : Option Phrase} (hword : word.kind = .returnWord)
    (hvalue : ∀ x ∈ value, Derives .equality x.tokens x) : Valid (.result word value)
  | expression {value : Phrase} (hvalue : Derives .equality value.tokens value) :
    Valid (.expression value)

/-- Whether a clause ends before a token of the kind. A result without a value ends only where the
statement does. -/
def EndsBefore (c : Clause) (kind : TokenKind) : Prop :=
  match c.value? with
  | none => kind = .semicolon ∨ kind = .eof
  | some _ => ¬ BindingPower.lowest < Tables.default.power kind

/-- Whether the expression of a clause nests in no more than `levels` levels. -/
def Fits (c : Clause) (levels : Nat) : Prop := ∀ x ∈ c.value?, x.need ≤ levels

/-- The stream begins with the clause `c`, which ends before the token after it. -/
structure Ahead (c : Clause) (s : TokenStream) : Prop where
  valid : c.Valid
  starts : s.Starts c.tokens
  ends : c.EndsBefore (s.skip c.tokens.length).current.kind

/-- Where the parser stands after the clause: on its last token, or on the semicolon after it. After
a result without a value it stands on what ends the statement, even if that is the end of input. -/
def rest (c : Clause) (s : TokenStream) : TokenStream :=
  match c.value? with
  | none => s.next
  | some _ => (s.skip (c.tokens.length - 1)).skipPeek .semicolon

/-- The statement that is made of a clause, when it ends with the token `last`. -/
def statement (c : Clause) (last : Token) : Stmt :=
  match c with
  | binding word name _ value =>
    .binding word (.ofToken name) value.tree ⟨word.span.start, last.span.stop⟩
  | result word value => .result word (value.map Phrase.tree) ⟨word.span.start, last.span.stop⟩
  | expression value =>
    .expression value.first value.tree ⟨value.first.span.start, value.tree.span.stop⟩

section

variable {c : Clause} {x : Phrase} {s : TokenStream} {levels : Nat}

theorem tokens_of_value (hx : c.value? = some x) : c.tokens = c.lead ++ x.tokens := by
  rw [tokens, hx]
  rfl

theorem mem_tokens {t : Token} :
    t ∈ c.tokens ↔ t ∈ c.lead ∨ ∃ x, c.value? = some x ∧ t ∈ x.tokens := by
  rw [tokens, List.mem_append]
  cases c.value? <;> simp

/-- The expression of a clause is the last thing that is read of it. -/
theorem rest_of_value (hx : c.value? = some x) :
    c.rest s = ((s.skip c.lead.length).skip (x.tokens.length - 1)).skipPeek .semicolon := by
  have hpos := List.length_pos_iff.2 x.tokens_ne_nil
  rw [rest, hx]
  simp only [tokens_of_value hx, List.length_append, skip_skip, Nat.add_sub_assoc hpos]

theorem Valid.derives (h : c.Valid) (hx : c.value? = some x) : Derives .equality x.tokens x := by
  cases h with
  | binding _ _ _ hvalue =>
    cases hx
    exact hvalue
  | result _ hvalue => exact hvalue x hx
  | expression hvalue =>
    cases hx
    exact hvalue

theorem Valid.tokens_ne_nil (h : c.Valid) : c.tokens ≠ [] := by
  cases h with
  | binding | result => exact List.cons_ne_nil _ _
  | expression hvalue => exact hvalue.tokens_ne_nil

/-- A clause has no semicolon, and ends before the input does. -/
theorem Valid.kind_ne (h : c.Valid) : ∀ t ∈ c.tokens, t.kind ≠ .semicolon ∧ t.kind ≠ .eof := by
  have hlead : ∀ t ∈ c.lead, t.kind ≠ .semicolon ∧ t.kind ≠ .eof := by
    cases h with
    | binding hword hname hsign _ => simp [lead, hword, hname, hsign]
    | result hword _ => simp [lead, hword]
    | expression => simp [lead]
  intro t ht
  rcases mem_tokens.1 ht with ht | ⟨x, hx, ht⟩
  · exact hlead t ht
  · exact ((h.derives hx).kind_ne t ht).2

/-- A clause with an expression is ahead where the expression is, after what leads up to it. -/
theorem ahead_of_value (hx : c.value? = some x) :
    c.Ahead s ↔
      c.Valid ∧ s.Starts c.lead ∧ Reads (s.skip c.lead.length) .lowest x.tokens x := by
  have hends : c.EndsBefore (s.skip c.tokens.length).current.kind ↔ ¬ BindingPower.lowest <
      Tables.default.power ((s.skip c.lead.length).skip x.tokens.length).current.kind := by
    rw [EndsBefore, hx, tokens_of_value hx, List.length_append, skip_skip]
  constructor
  · rintro ⟨hvalid, hstarts, hstop⟩
    rw [tokens_of_value hx] at hstarts
    obtain ⟨hlead, hvalue⟩ := starts_append.1 hstarts
    exact ⟨hvalid, hlead, hvalid.derives hx, hvalue, hends.1 hstop⟩
  · rintro ⟨hvalid, hlead, hreads⟩
    refine ⟨hvalid, ?_, hends.2 hreads.stops⟩
    rw [tokens_of_value hx]
    exact starts_append.2 ⟨hlead, hreads.starts⟩

end

end Clause

/-! ## Soundness and completeness -/

/-- Every statement that is found is a clause ahead. -/
theorem parseStmt_sound {levels : Nat} {s r : TokenStream} {statement : Stmt}
    (h : parseStmt .default levels s = .found statement r) :
    ∃ c : Clause, c.Ahead s ∧ c.Fits levels ∧ statement = c.statement r.current ∧ r = c.rest s := by
  -- a clause that holds the expression found after what leads up to it
  have hclause : ∀ {c : Clause} {x : Phrase} {r' : TokenStream}, c.value? = some x → c.Valid →
      s.Starts c.lead → Reads (s.skip c.lead.length) .lowest x.tokens x → x.need ≤ levels →
      r' = (s.skip c.lead.length).skip (x.tokens.length - 1) →
      c.Ahead s ∧ c.Fits levels ∧ r'.skipPeek .semicolon = c.rest s := by
    rintro c x _ hx hvalid hlead hreads hneed rfl
    refine ⟨(Clause.ahead_of_value hx).2 ⟨hvalid, hlead, hreads⟩, ?_,
      (Clause.rest_of_value hx).symm⟩
    intro y hy
    obtain rfl : x = y := Option.some.inj (hx.symm.trans hy)
    exact hneed
  unfold parseStmt at h
  cases hrule : Tables.default.statementRule s.current.kind with
  | binding =>
    rw [hrule] at h
    have hkind := kind_of_binding hrule
    obtain ⟨_, s₁, hname, h⟩ := Outcome.andThen_eq_found.1 h
    obtain ⟨_, s₂, hsign, h⟩ := Outcome.andThen_eq_found.1 h
    obtain ⟨value, s₃, hvalue, h⟩ := Outcome.andThen_eq_found.1 h
    cases h
    obtain ⟨rfl, hname⟩ := expectPeek_found hname
    obtain ⟨rfl, hsign⟩ := expectPeek_found hsign
    simp only [next_eq_skip, skip_skip] at hname hsign hvalue ⊢
    obtain ⟨u, x, hreads, hneed, rfl, rfl⟩ := parseExpr_sound levels hvalue
    obtain rfl := hreads.derives.tokens_eq
    have hlead : s.Starts [s.current, (s.skip 1).current, (s.skip 2).current] :=
      starts_three.2 ⟨starts_current (by rw [hkind]; decide),
        starts_current (by rw [hname]; decide), starts_current (by rw [hsign]; decide),
        List.nil_prefix⟩
    obtain ⟨hahead, hfits, hrest⟩ := hclause
      (c := .binding s.current (s.skip 1).current (s.skip 2).current x) rfl
      (.binding hkind hname hsign hreads.derives) hlead hreads hneed rfl
    exact ⟨_, hahead, hfits, rfl, hrest⟩
  | result =>
    rw [hrule] at h
    have hkind := kind_of_result hrule
    have hlead := starts_current (s := s) (by rw [hkind]; decide)
    simp only [StatementRule.run] at h
    split at h
    · rename_i hend
      cases h
      rw [next_eq_skip] at hend
      refine ⟨.result s.current none, ⟨.result hkind ?_, hlead, hend⟩, ?_, rfl, rfl⟩
      · intro x hx
        cases hx
      · intro x hx
        cases hx
    · obtain ⟨value, s₂, hvalue, h⟩ := Outcome.andThen_eq_found.1 h
      cases h
      rw [next_eq_skip] at hvalue
      obtain ⟨u, x, hreads, hneed, rfl, rfl⟩ := parseExpr_sound levels hvalue
      obtain rfl := hreads.derives.tokens_eq
      have hvalid : Clause.Valid (.result s.current (some x)) := by
        refine .result hkind ?_
        rintro _ ⟨⟩
        exact hreads.derives
      obtain ⟨hahead, hfits, hrest⟩ := hclause (c := .result s.current (some x)) rfl hvalid hlead
        hreads hneed rfl
      exact ⟨_, hahead, hfits, rfl, hrest⟩
  | expression =>
    rw [hrule] at h
    obtain ⟨value, r', hvalue, h⟩ := Outcome.andThen_eq_found.1 h
    cases h
    obtain ⟨u, x, hreads, hneed, rfl, rfl⟩ := parseExpr_sound levels hvalue
    obtain rfl := hreads.derives.tokens_eq
    obtain ⟨hahead, hfits, hrest⟩ := hclause (c := .expression x) rfl (.expression hreads.derives)
      (List.nil_prefix) hreads hneed rfl
    refine ⟨_, hahead, hfits, ?_, hrest⟩
    rw [hreads.starts.current_eq_first]
    rfl

/-- A clause that the levels allow is found. -/
theorem Clause.Ahead.run {levels : Nat} {c : Clause} {s : TokenStream} (h : c.Ahead s)
    (hfits : c.Fits levels) :
    parseStmt .default levels s = .found (c.statement (c.rest s).current) (c.rest s) := by
  cases hx : c.value? with
  | none =>
    obtain ⟨hvalid, hstarts, hends⟩ := h
    cases hvalid with
    | binding | expression => cases hx
    | @result word value hword hvalue =>
      obtain rfl : value = none := hx
      obtain rfl := hstarts.current_eq
      exact parseStmt_result_none hword hends
  | some x =>
    obtain ⟨hvalid, hlead, hreads⟩ := (Clause.ahead_of_value hx).1 h
    have hrun := parseExpr_complete hreads (hfits x hx)
    rw [Clause.rest_of_value hx]
    cases hvalid with
    | @binding word name sign value hword hname hsign hvalue =>
      cases hx
      obtain ⟨h₀, h₁, h₂, _⟩ := starts_three.1 hlead
      obtain rfl := h₀.current_eq
      obtain rfl := h₁.current_eq
      obtain rfl := h₂.current_eq
      rw [parseStmt_binding hword hname hsign]
      exact congrArg (Outcome.andThen · _) hrun
    | @result word value hword hvalue =>
      obtain rfl : value = some x := hx
      obtain rfl := hlead.current_eq
      have hfirst := hreads.starts.current_eq_first
      have hne : ∀ kind, PrefixRule.default? kind = none → (s.skip 1).current.kind ≠ kind := by
        intro kind hkind
        rw [show (s.skip 1).current = x.first from hfirst]
        exact hreads.derives.first_kind_ne hkind
      rw [parseStmt_result hword (hne _ rfl) (hne _ rfl)]
      exact congrArg (Outcome.andThen · _) hrun
    | @expression value hvalue =>
      cases hx
      have hfirst : s.current = x.first := hreads.starts.current_eq_first
      rw [parseStmt_expression]
      · rw [hfirst]
        exact congrArg (Outcome.andThen · _) hrun
      · rw [hfirst]
        exact statementRule_of_prefixRule hvalue.default?_first

end FrontEnd
