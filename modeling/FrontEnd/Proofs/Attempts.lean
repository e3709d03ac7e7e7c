import FrontEnd.Proofs.Placement

/-!
# Where attempts at statements stand

An attempt at a statement begins at one token, leaves the window at another, and the next attempt
begins at a third. A statement stops with a token that was passed, or stood on, when it was found,
and a diagnostic is about the token that the parser stands on, or about the one after it. So
statements and diagnostics stand in the source in the order in which they are found.

* `TokenStream.Inside` — a stream moved on, but not over the end of input.
* `TokenStream.outcomes` — what each attempt comes to, and which tokens it leaves.
* `Attempted`, `Tried` — one attempt, and all attempts, with the numbers of the tokens where they
  begin and stop.
* `Placed` — the stretch of tokens from the first to the last that an item is about.

Principal results: `parseStmt_inside` (no attempt passes the end of input), `round_attempted` (one
attempt), `outcomes_tried` (all of them) and `Tried.placed` (their places are in order).
-/

namespace FrontEnd

open TokenStream

/-! ## Streams moved on over tokens that they have -/

namespace TokenStream

/-- `s'` is the stream `s`, moved on, but not over the end of input. -/
def Inside (s s' : TokenStream) : Prop := ∃ k ≤ s.pending.length, s' = s.skip k

namespace Inside

variable {s s' s'' : TokenStream}

theorem refl (s : TokenStream) : Inside s s := ⟨0, Nat.zero_le _, rfl⟩

theorem trans (h : Inside s s') (h' : Inside s' s'') : Inside s s'' := by
  obtain ⟨j, hj, rfl⟩ := h
  obtain ⟨k, hk, rfl⟩ := h'
  rw [skip_pending, List.length_drop] at hk
  exact ⟨j + k, by omega, skip_skip s j k⟩

theorem next (h : s.current.kind ≠ .eof) : Inside s s.next := by
  refine ⟨1, List.length_pos_iff.2 fun hnil => h ?_, next_eq_skip s⟩
  rw [current_of_nil hnil]
  rfl

/-- A token that is seen ahead is not passed when it becomes the current one. -/
theorem next_of_peek (h : s.peek.kind ≠ .eof) : Inside s s.next := by
  have htwo := two_le_of_peek h
  exact ⟨1, by omega, next_eq_skip s⟩

theorem skipPeek (s : TokenStream) : Inside s (s.skipPeek .semicolon) := by
  unfold TokenStream.skipPeek
  split
  · rename_i hkind
    exact next_of_peek (by simp [hkind])
  · exact refl s

theorem skipToStatementEnd (s : TokenStream) : Inside s s.skipToStatementEnd := by
  unfold TokenStream.skipToStatementEnd
  generalize s.pending = budget
  induction budget generalizing s with
  | nil => exact refl s
  | cons _ budget ih =>
    unfold TokenStream.skipToStatementEnd.go
    split
    · exact refl s
    · rename_i hkind
      exact (next_of_peek (not_or.1 hkind).2).trans (ih s.next)

end Inside

end TokenStream

/-- An operand parser that passes no end of input. -/
def OperandParser.Inside (operand : OperandParser) : Prop :=
  ∀ cutoff s, TokenStream.Inside s (operand cutoff s).rest

theorem Outcome.andThen_inside {α β : Type} {s : TokenStream} {o : Outcome α}
    {f : α → TokenStream → Outcome β} (ho : Inside s o.rest)
    (hf : ∀ a t, o = .found a t → Inside t (f a t).rest) : Inside s (o.andThen f).rest := by
  cases o with
  | found a t => exact ho.trans (hf a t rfl)
  | failed d t => exact ho

theorem expectPeek_inside (s : TokenStream) {kind : TokenKind} (hkind : kind ≠ .eof) :
    Inside s (s.expectPeek kind).rest := by
  unfold TokenStream.expectPeek
  split
  · rename_i hpeek
    exact .next_of_peek (by rwa [hpeek])
  · exact .refl s

theorem PrefixRule.run_inside (rule : PrefixRule) {operand : OperandParser}
    (hop : operand.Inside) {s : TokenStream} (hs : s.current.kind ≠ .eof) :
    Inside s (rule.run operand s).rest := by
  cases rule with
  | identifier => exact .refl s
  | integer =>
    simp only [PrefixRule.run]
    split <;> exact .refl s
  | boolean => exact .refl s
  | unary =>
    refine (Inside.next hs).trans (Outcome.andThen_inside (hop _ _) ?_)
    intro right t _
    exact .refl t
  | grouping =>
    refine (Inside.next hs).trans (Outcome.andThen_inside (hop _ _) ?_)
    intro inner t _
    apply Outcome.andThen_inside (expectPeek_inside t (by decide))
    intro _ t' _
    exact .refl t'

theorem climb_inside {operand : OperandParser} (hop : operand.Inside) (cutoff : BindingPower)
    (budget : List Token) (left : Expr) (s : TokenStream) :
    Inside s (climb .default operand cutoff budget left s).rest := by
  have hrun : ∀ {s : TokenStream} {op : Operator} (left : Expr),
      Tables.default.operatorAbove? cutoff s.peek.kind = some op →
      Inside s (op.rule.run operand left op.power s.next).rest := by
    intro s op left hsome
    have hpeek : s.peek.kind ≠ .eof := by
      intro hkind
      rw [hkind, Tables.operatorAbove?_eof Tables.default_operator_eof] at hsome
      cases hsome
    refine (Inside.next_of_peek hpeek).trans ((Inside.next (by rwa [current_next])).trans ?_)
    apply Outcome.andThen_inside (hop _ _)
    intro right t _
    exact .refl t
  induction budget generalizing left s with
  | nil =>
    rw [climb_round]
    split
    · exact .refl s
    · rename_i op hsome
      apply Outcome.andThen_inside (hrun left hsome)
      intro _ t' _
      exact .refl t'
  | cons _ budget ih =>
    rw [climb_round]
    split
    · exact .refl s
    · rename_i op hsome
      apply Outcome.andThen_inside (hrun left hsome)
      intro left' t' _
      exact ih left' t'

theorem parseExpr_inside (levels : Nat) : OperandParser.Inside (parseExpr .default levels) := by
  induction levels with
  | zero =>
    intro cutoff s
    exact .refl s
  | succ levels ih =>
    intro cutoff s
    unfold parseExpr
    split
    · exact .refl s
    · rename_i rule hrule
      have hs : s.current.kind ≠ .eof := by
        intro hkind
        rw [hkind] at hrule
        cases hrule
      apply Outcome.andThen_inside (rule.run_inside ih hs)
      intro left s' _
      exact climb_inside ih cutoff _ left s'

/-- An attempt at a statement passes no end of input. A result that has no value may stop there. -/
theorem parseStmt_inside (levels : Nat) {s : TokenStream} (hs : s.current.kind ≠ .eof) :
    Inside s (parseStmt .default levels s).rest := by
  have hop := parseExpr_inside levels
  unfold parseStmt
  cases Tables.default.statementRule s.current.kind with
  | binding =>
    apply Outcome.andThen_inside (expectPeek_inside s (by decide))
    intro _ s₁ _
    apply Outcome.andThen_inside (expectPeek_inside s₁ (by decide))
    intro _ s₂ hsign
    have hkind : s₂.current.kind ≠ .eof := by
      rw [(expectPeek_found hsign).2]
      decide
    refine (Inside.next hkind).trans (Outcome.andThen_inside (hop _ _) ?_)
    intro _ s₃ _
    exact .skipPeek s₃
  | result =>
    simp only [StatementRule.run]
    apply (Inside.next hs).trans
    split
    · exact .refl _
    · apply Outcome.andThen_inside (hop _ _)
      intro _ s₁ _
      exact .skipPeek s₁
  | expression =>
    apply Outcome.andThen_inside (hop _ _)
    intro _ s₁ _
    exact .skipPeek s₁

/-! ## Attempts by number -/

namespace TokenStream

/-- What each attempt at a statement comes to and which tokens it leaves, up to the end of input. -/
def outcomes (t : Tables) (levels : Nat) (s : TokenStream) : List (Outcome Stmt) :=
  if _h : s.atEnd then []
  else parseStmt t levels s :: outcomes t levels (s.round t levels).2
termination_by s.pending.length
decreasing_by exact round_length_lt t levels (pending_ne_nil_of_not_atEnd (by simpa using _h))

theorem outcomes_of_atEnd {t : Tables} {levels : Nat} {s : TokenStream} (h : s.atEnd = true) :
    s.outcomes t levels = [] := by
  rw [outcomes, dif_pos h]

theorem outcomes_of_not_atEnd {t : Tables} {levels : Nat} {s : TokenStream}
    (h : s.atEnd = false) :
    s.outcomes t levels = parseStmt t levels s :: (s.round t levels).2.outcomes t levels := by
  rw [outcomes, dif_neg (by simp [h])]

theorem round_fst (t : Tables) (levels : Nat) (s : TokenStream) :
    (s.round t levels).1 = (parseStmt t levels s).result := by
  cases h : parseStmt t levels s with
  | found => rw [round_of_found h]; rfl
  | failed => rw [round_of_failed h]; rfl

theorem map_result_outcomes (t : Tables) (levels : Nat) (s : TokenStream) :
    (s.outcomes t levels).map Outcome.result = s.rounds t levels := by
  induction hn : s.pending.length using Nat.strongRecOn generalizing s with
  | ind n ih =>
    cases hend : s.atEnd with
    | true => rw [outcomes_of_atEnd hend, rounds_of_atEnd hend, List.map_nil]
    | false =>
      have hlt := round_length_lt t levels (pending_ne_nil_of_not_atEnd hend)
      rw [outcomes_of_not_atEnd hend, rounds_of_not_atEnd hend, List.map_cons, round_fst,
        ih _ (by omega) _ rfl]

/-- Giving up the rest of a failed statement stops at its last token. -/
theorem afterFailure_inside {s : TokenStream} (cause : Cause) (hs : s.current.kind ≠ .eof) :
    Inside s (s.afterFailure cause) := by
  have hskip : ∀ {s : TokenStream}, s.current.kind ≠ .eof →
      Inside s (s.skipPeek .semicolon).next := by
    intro s hs
    refine (Inside.skipPeek s).trans (.next ?_)
    unfold skipPeek
    split
    · rename_i hkind
      rw [current_next, hkind]
      decide
    · exact hs
  have hend : s.skipToStatementEnd.current.kind ≠ .eof := by
    unfold skipToStatementEnd
    generalize s.pending = budget
    induction budget generalizing s with
    | nil => exact hs
    | cons _ budget ih =>
      unfold skipToStatementEnd.go
      split
      · exact hs
      · rename_i hkind
        exact ih (by rw [current_next]; exact (not_or.1 hkind).2)
  unfold afterFailure
  split
  · exact (Inside.skipToStatementEnd s).trans (hskip hend)
  · exact hskip hs

/-- At the end of input there is nothing more to give up. -/
theorem afterFailure_of_nil {s : TokenStream} (cause : Cause) (h : s.pending = []) :
    s.afterFailure cause = s.next := by
  have hpeek : s.peek.kind = .eof := peek_kind_of_short (by simp [h])
  have hskip : s.skipPeek .semicolon = s := if_neg (by simp [hpeek])
  unfold afterFailure
  split
  · rw [skipToStatementEnd_eq, if_pos (.inr hpeek), hskip]
  · rw [hskip]

end TokenStream

/-- What a diagnostic says of the token that it is about. -/
def Cause.Describes (cause : Cause) (t : Token) : Prop :=
  match cause with
  | .unexpectedToken expected received text =>
    expected ∈ [TokenKind.identifier, .assign, .closeParen] ∧ expected ≠ received ∧
      received = t.kind ∧ text = t.text
  | .noPrefixRule kind text =>
    Tables.default.prefixRule kind = none ∧ kind = t.kind ∧ text = t.text
  | .badInteger text => t.kind = .integer ∧ literalValue? text = none ∧ text = t.text
  | .nestingTooDeep limit => limit = 128

/-- `Attempted s a o b`: an attempt at token `a` of the stream `s` comes to the outcome `o`, and the
next attempt is at token `b`. A statement ends at a token `i` that was passed or stood on. -/
inductive Attempted (s : TokenStream) : Nat → Outcome Stmt → Nat → Prop where
  | found {a i r : Nat} {statement : Stmt} (hi : a ≤ i) (hr : i ≤ r) (hend : r ≤ s.pending.length)
    (hstart : statement.span.start = (s.token a).span.start)
    (hstop : statement.span.stop = (s.token i).span.stop) :
    Attempted s a (.found statement (s.skip r)) (r + 1)
  | failed {a r b : Nat} {d : Diagnostic} (hr : a ≤ r) (hend : r ≤ s.pending.length) (hb : r < b)
    (hlast : b ≤ max s.pending.length (r + 1))
    (hposition : d.position = (s.token (r + d.cause.ahead)).span.start)
    (hcause : d.cause.Describes (s.token (r + d.cause.ahead))) :
    Attempted s a (.failed d (s.skip r)) b

theorem Attempted.lt {s : TokenStream} {a b : Nat} {o : Outcome Stmt} (h : Attempted s a o b) :
    a < b := by
  cases h with
  | found hi hr => omega
  | failed hr _ hb => omega

/-- Where an attempt stops, and how far on the next one begins. -/
theorem Attempted.rest_eq {s : TokenStream} {a b : Nat} {o : Outcome Stmt}
    (h : Attempted s a o b) :
    ∃ r, o.rest = s.skip r ∧ r ≤ s.pending.length ∧ r < b ∧ b ≤ max s.pending.length (r + 1) := by
  cases h with
  | @found i r statement hi hr hend =>
    exact ⟨r, rfl, hend, Nat.lt_succ_self r, Nat.le_max_right _ _⟩
  | @failed r _ d hr hend hb hlast => exact ⟨r, rfl, hend, hb, hlast⟩

/-- A failure is about the token that its cause names, and describes it. -/
theorem Tables.Fails.describes {d : Diagnostic} {s : TokenStream} (h : Tables.default.Fails d s) :
    d.position = (s.token d.cause.ahead).span.start ∧
      d.cause.Describes (s.token d.cause.ahead) := by
  cases h with
  | deep => exact ⟨rfl, rfl⟩
  | first h => exact ⟨rfl, h, rfl, rfl⟩
  | integer h hv =>
    rw [Tables.default_prefixRule] at h
    exact ⟨rfl, PrefixRule.calledBy_of_default? h, hv, rfl⟩
  | next h hkind =>
    have htoken : s.token 1 = s.peek := s.peek_eq_skip.symm
    rw [Cause.ahead, htoken]
    exact ⟨rfl, hkind, h.symm, rfl, rfl⟩

/-- A tree ends with one of the tokens of its phrase. -/
theorem Phrase.exists_span_stop (x : Phrase) :
    ∃ i, ∃ h : i < x.tokens.length, x.tree.span.stop = x.tokens[i].span.stop := by
  have hmem : x.core.getLast x.core_ne_nil ∈ x.tokens := by
    rw [x.tokens_eq_core]
    exact List.mem_append_right _ (List.mem_append_left _ (List.getLast_mem _))
  obtain ⟨i, hi, heq⟩ := List.getElem_of_mem hmem
  exact ⟨i, hi, by rw [heq, x.tree_span]⟩

/-- A statement starts where the parser stands. -/
theorem Clause.Ahead.span_start {c : Clause} {s : TokenStream} (h : c.Ahead s) (last : Token) :
    (c.statement last).span.start = s.current.span.start := by
  obtain ⟨hvalid, hstarts, -⟩ := h
  cases hvalid with
  | binding | result =>
    rw [hstarts.current_eq]
    rfl
  | expression =>
    rw [hstarts.current_eq_first]
    rfl

/-- A statement stops with a token that is passed or is the current one after it. -/
theorem Clause.Ahead.span_stop {c : Clause} {s : TokenStream} (h : c.Ahead s) {r : Nat}
    (hr : c.rest s = s.skip r) :
    ∃ i ≤ r, (c.statement (c.rest s).current).span.stop = (s.token i).span.stop := by
  obtain ⟨hvalid, hstarts, -⟩ := h
  cases hvalid with
  | binding | result =>
    refine ⟨r, Nat.le_refl r, ?_⟩
    rw [hr]
    rfl
  | @expression x hvalue =>
    obtain ⟨i, hi, hstop⟩ := x.exists_span_stop
    obtain ⟨m, hm⟩ : Reaches (s.skip (x.tokens.length - 1)) (s.skip r) := by
      rw [← hr]
      exact .skipPeek _ _
    rw [skip_skip] at hm
    have hle := skip_inj hm
    refine ⟨i, by omega, ?_⟩
    rw [Starts.token_eq hstarts hi]
    exact hstop

/-- **One attempt.** Every attempt passes a token, and none passes the end of input. -/
theorem round_attempted {s : TokenStream} (heof : ∀ t ∈ s.pending, t.kind ≠ .eof) (levels : Nat)
    {a : Nat} (hend : (s.skip a).atEnd = false) :
    ∃ b, ((s.skip a).round .default levels).2 = s.skip b ∧
      Attempted s a (parseStmt .default levels (s.skip a)) b := by
  have hkind : (s.skip a).current.kind ≠ .eof := of_decide_eq_false hend
  have hlt : a < s.pending.length := by
    refine Nat.lt_of_not_le fun hle => hkind ?_
    rw [← token, token_of_le hle]
    rfl
  obtain ⟨j, hj, hrest⟩ := parseStmt_inside levels hkind
  rw [skip_pending, List.length_drop] at hj
  cases ho : parseStmt .default levels (s.skip a) with
  | found statement r =>
    obtain ⟨c, hahead, _, rfl, hr⟩ := parseStmt_sound ho
    rw [ho, Outcome.rest] at hrest
    obtain ⟨i, hi, hstop⟩ := hahead.span_stop (hr.symm.trans hrest)
    rw [← hr, token_skip] at hstop
    rw [hrest, skip_skip] at hstop ⊢
    rw [round_of_found ho, hrest, skip_skip, next_skip]
    exact ⟨_, rfl, .found (by omega) (by omega) (by omega) (hahead.span_start _) hstop⟩
  | failed d r =>
    rw [ho, Outcome.rest, skip_skip] at hrest
    subst hrest
    obtain ⟨hposition, hcause⟩ := (parseStmt_explained _ _ _ d _ ho).describes
    rw [token_skip] at hposition hcause
    rw [round_of_failed ho]
    obtain ⟨m, hm⟩ := next_reaches_afterFailure (s.skip (a + j)) d.cause
    rw [next_skip, skip_skip] at hm
    refine ⟨_, hm, .failed (by omega) (by omega) (by omega) ?_ hposition hcause⟩
    rcases Nat.lt_or_ge (a + j) s.pending.length with hlt | hge
    · -- some token is current after the failure, and so it is while the rest is given up
      have hcurrent : (s.skip (a + j)).current.kind ≠ .eof := by
        rw [← token, token_of_lt hlt]
        exact heof _ (List.getElem_mem hlt)
      obtain ⟨k, hk, hinside⟩ := afterFailure_inside d.cause hcurrent
      rw [skip_pending, List.length_drop] at hk
      rw [hm, skip_skip] at hinside
      have heq := skip_inj hinside
      omega
    · have hnil : (s.skip (a + j)).pending = [] := List.drop_eq_nil_of_le hge
      rw [afterFailure_of_nil d.cause hnil, next_skip] at hm
      have heq := skip_inj hm
      omega

/-- `Tried levels s a os c`: from token `a` of the stream `s` on, the attempts come to the outcomes
`os`, and the end of input is reached at token `c`. -/
inductive Tried (levels : Nat) (s : TokenStream) : Nat → List (Outcome Stmt) → Nat → Prop where
  | done {a : Nat} (hend : (s.skip a).atEnd = true) : Tried levels s a [] a
  | attempt {a b c : Nat} {os : List (Outcome Stmt)} (hend : (s.skip a).atEnd = false)
    (hround : ((s.skip a).round .default levels).2 = s.skip b)
    (h : Attempted s a (parseStmt .default levels (s.skip a)) b) (hs : Tried levels s b os c) :
    Tried levels s a (parseStmt .default levels (s.skip a) :: os) c

theorem Tried.le {levels : Nat} {s : TokenStream} {a c : Nat} {os : List (Outcome Stmt)}
    (h : Tried levels s a os c) : a ≤ c := by
  induction h with
  | done => exact Nat.le_refl _
  | attempt _ _ h _ ih => exact Nat.le_trans (Nat.le_of_lt h.lt) ih

/-- **All attempts.** -/
theorem outcomes_tried {s : TokenStream} (heof : ∀ t ∈ s.pending, t.kind ≠ .eof) (levels a : Nat) :
    ∃ c, Tried levels s a ((s.skip a).outcomes .default levels) c := by
  induction hn : (s.skip a).pending.length using Nat.strongRecOn generalizing a with
  | ind n ih =>
    cases hend : (s.skip a).atEnd with
    | true =>
      rw [outcomes_of_atEnd hend]
      exact ⟨a, .done hend⟩
    | false =>
      have hlt := round_length_lt .default levels (pending_ne_nil_of_not_atEnd hend)
      obtain ⟨b, hround, h⟩ := round_attempted heof levels hend
      rw [hround] at hlt
      obtain ⟨c, hs⟩ := ih _ (by omega) b rfl
      rw [outcomes_of_not_atEnd hend, hround]
      exact ⟨c, .attempt hend hround h hs⟩

/-- A statement that the attempts come to is found by one of them. -/
theorem Tried.exists_found {levels : Nat} {s : TokenStream} {a c : Nat} {os : List (Outcome Stmt)}
    (h : Tried levels s a os c) {statement : Stmt} (hmem : .ok statement ∈ os.map Outcome.result) :
    ∃ k r, parseStmt .default levels (s.skip k) = .found statement r := by
  induction h with
  | done => cases hmem
  | @attempt a b c os hend hround h hs ih =>
    rcases List.mem_cons.1 hmem with heq | hmem
    · cases ho : parseStmt .default levels (s.skip a) with
      | found found r =>
        rw [ho] at heq
        cases heq
        exact ⟨a, r, ho⟩
      | failed d r =>
        rw [ho] at heq
        cases heq
    · exact ih hmem

/-! ## Places in order -/

/-- `Placed s item k j`: the item of an attempt is about the tokens of the stream `s` from number
`k` up to number `j`, exclusive. A diagnostic is only about the place where a token starts. -/
inductive Placed (s : TokenStream) : Except Diagnostic Stmt → Nat → Nat → Prop where
  | statement {statement : Stmt} {k j : Nat} (hkj : k ≤ j)
    (hstart : statement.span.start = (s.token k).span.start)
    (hstop : statement.span.stop = (s.token j).span.stop) : Placed s (.ok statement) k (j + 1)
  | diagnostic {d : Diagnostic} {j : Nat} (hposition : d.position = (s.token j).span.start) :
    Placed s (.error d) j j

theorem Placed.le {s : TokenStream} {item : Except Diagnostic Stmt} {k j : Nat}
    (h : Placed s item k j) : k ≤ j := by
  cases h with
  | statement hkj => exact Nat.le_succ_of_le hkj
  | diagnostic => exact Nat.le_refl _

theorem Cause.ahead_le_one (cause : Cause) : cause.ahead ≤ 1 := by
  cases cause with
  | unexpectedToken => exact Nat.le_refl 1
  | noPrefixRule | badInteger | nestingTooDeep => exact Nat.zero_le 1

/-- An attempt is about tokens that the next attempt does not begin before. -/
theorem Attempted.placed {s : TokenStream} {a b : Nat} {o : Outcome Stmt} (h : Attempted s a o b) :
    ∃ k j, Placed s o.result k j ∧ a ≤ k ∧ j ≤ b := by
  cases h with
  | @found i r statement hi hr _ hstart hstop =>
    exact ⟨a, i + 1, .statement hi hstart hstop, Nat.le_refl a, Nat.succ_le_succ hr⟩
  | @failed r _ d hr _ hb _ hposition _ =>
    have hahead := d.cause.ahead_le_one
    exact ⟨_, _, .diagnostic hposition, by omega, by omega⟩

/-- **What the attempts come to stands in order.** -/
theorem Tried.placed {levels : Nat} {s : TokenStream} {a c : Nat} {os : List (Outcome Stmt)}
    (h : Tried levels s a os c) :
    ∃ ps : List (Except Diagnostic Stmt × Nat × Nat), ps.map Prod.fst = os.map Outcome.result ∧
      (∀ p ∈ ps, Placed s p.1 p.2.1 p.2.2 ∧ a ≤ p.2.1) ∧
      ps.Pairwise fun p q => p.2.2 ≤ q.2.1 := by
  induction h with
  | done => exact ⟨[], rfl, fun p hp => (nomatch hp), .nil⟩
  | @attempt a b c os _ _ h _ ih =>
    obtain ⟨ps, hmap, hps, hpairs⟩ := ih
    obtain ⟨k, j, hplaced, ha, hb⟩ := h.placed
    have hkj := hplaced.le
    refine ⟨((parseStmt .default levels (s.skip a)).result, k, j) :: ps, ?_,
      List.forall_mem_cons.2 ⟨⟨hplaced, ha⟩, fun p hp => ?_⟩,
      List.pairwise_cons.2 ⟨fun p hp => ?_, hpairs⟩⟩
    · rw [List.map_cons, List.map_cons, hmap]
    · exact ⟨(hps p hp).1, Nat.le_trans (by omega) (hps p hp).2⟩
    · exact Nat.le_trans hb (hps p hp).2

/-- Three items in the order of a list are those of three entries that are related in turn. -/
theorem three_of_pairwise {α β : Type} {R : α → α → Prop} {f : α → β} {l : List α} {x y z : β}
    (hpairs : l.Pairwise R) (h : [x, y, z].Sublist (l.map f)) :
    ∃ a ∈ l, ∃ b ∈ l, ∃ c ∈ l, f a = x ∧ f b = y ∧ f c = z ∧ R a b ∧ R b c := by
  obtain ⟨entries, hentries, hthree⟩ := List.sublist_map_iff.1 h
  obtain ⟨a, _, rfl, rfl, htwo⟩ := List.map_eq_cons_iff.1 hthree.symm
  obtain ⟨b, _, rfl, rfl, hone⟩ := List.map_eq_cons_iff.1 htwo
  obtain ⟨c, _, rfl, rfl, -⟩ := List.map_eq_cons_iff.1 hone
  have hordered := List.pairwise_cons.1 (hpairs.sublist hentries)
  have hab := hordered.1 b List.mem_cons_self
  have hbc := (List.pairwise_cons.1 hordered.2).1 c List.mem_cons_self
  have hmem := hentries.subset
  simp only [List.cons_subset] at hmem
  exact ⟨a, hmem.1, b, hmem.2.1, c, hmem.2.2.1, rfl, rfl, rfl, hab, hbc⟩

end FrontEnd
