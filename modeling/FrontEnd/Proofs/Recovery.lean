import FrontEnd.Proofs.Failure
import FrontEnd.Proofs.Tokenization

/-!
# Recovery after a failed statement

A statement that fails before its semicolon does not reach past it: the semicolon stays in the
window or behind it, and the next statement is tried after it. There is one exception. If
expressions nest too deeply at the semicolon itself, recovery takes the semicolon for the last token
of the statement that failed, and gives up everything before the semicolon after it.

* `Extends` — a stream that ends with a semicolon, and the same stream with more tokens after it.
* `Contained` — what is found before a semicolon does not change what is found after it.
* `DeepAtEnd` — the last token of a source is one that nests too deeply.

Principal results: `rounds_extends` (the attempts at the statements of a longer stream),
`rounds_afterFailure_ne` (tokens that are given up are missed) and `contained_iff` (the parse of a
source after a semicolon goes on as if it began there, unless that semicolon nests too deeply).
-/

namespace FrontEnd

open TokenStream

/-! ## Where statements fail -/

def Cause.TooDeep (cause : Cause) : Prop := ∃ limit, cause = .nestingTooDeep limit

/-- A failure is reported at the current token or at the one after it, and at the current one if
expressions nest too deeply. -/
theorem parseStmt_located {t : Tables} {levels : Nat} {s r : TokenStream} {d : Diagnostic}
    (h : parseStmt t levels s = .failed d r) :
    d.position = r.current.span.start ∨ d.position = r.peek.span.start ∧ ¬ d.cause.TooDeep := by
  cases parseStmt_explained t levels s d r h with
  | deep | first | integer => exact .inl rfl
  | next =>
    refine .inr ⟨rfl, ?_⟩
    rintro ⟨limit, hcause⟩
    cases hcause

/-! ## Where attempts are placed -/

def placeOf : Except Diagnostic Stmt → Position
  | .ok statement => statement.token.span.start
  | .error d => d.position

/-- The places of a stream: where its tokens start, and where it stops. -/
def TokenStream.places (s : TokenStream) : List Position :=
  s.pending.map (fun token => token.span.start) ++ [s.stop]

namespace TokenStream

theorem current_mem_places (s : TokenStream) : s.current.span.start ∈ s.places := by
  obtain ⟨pending, stop, passed⟩ := s
  cases pending with
  | nil => exact List.mem_singleton.2 rfl
  | cons token r => exact List.mem_cons_self

theorem Reaches.mem_places {s s' : TokenStream} (h : Reaches s s') {p : Position}
    (hp : p ∈ s'.places) : p ∈ s.places := by
  unfold places at hp ⊢
  rw [h.stop_eq] at hp
  rcases List.mem_append.1 hp with hp | hp
  · obtain ⟨token, htoken, rfl⟩ := List.mem_map.1 hp
    exact List.mem_append_left _ (List.mem_map.2 ⟨token, h.mem_pending htoken, rfl⟩)
  · exact List.mem_append_right _ hp

end TokenStream

theorem StatementRule.run_token {rule : StatementRule} {operand : OperandParser}
    {s r : TokenStream} {statement : Stmt} (h : rule.run operand s = .found statement r) :
    statement.token = s.current := by
  cases rule with
  | binding =>
    obtain ⟨_, _, _, h⟩ := Outcome.andThen_eq_found.1 h
    obtain ⟨_, _, _, h⟩ := Outcome.andThen_eq_found.1 h
    obtain ⟨_, _, _, h⟩ := Outcome.andThen_eq_found.1 h
    cases h
    rfl
  | result =>
    simp only [StatementRule.run] at h
    split at h
    · cases h
      rfl
    · obtain ⟨_, _, _, h⟩ := Outcome.andThen_eq_found.1 h
      cases h
      rfl
  | expression =>
    obtain ⟨_, _, _, h⟩ := Outcome.andThen_eq_found.1 h
    cases h
    rfl

/-- An attempt is placed at a token of the stream, or where the stream stops. -/
theorem placeOf_round (t : Tables) (levels : Nat) (s : TokenStream) :
    placeOf (s.round t levels).1 ∈ s.places := by
  have hreach := parseStmt_reaches t levels s
  cases ho : parseStmt t levels s with
  | found statement r =>
    rw [round_of_found ho, placeOf, StatementRule.run_token ho]
    exact s.current_mem_places
  | failed d r =>
    rw [ho] at hreach
    rw [round_of_failed ho, placeOf]
    apply hreach.mem_places
    rcases parseStmt_located ho with h | ⟨h, _⟩
    · rw [h]
      exact r.current_mem_places
    · rw [h, ← current_next]
      exact (Reaches.next r).mem_places r.next.current_mem_places

theorem placeOf_rounds (t : Tables) (levels : Nat) (s : TokenStream) :
    ∀ item ∈ s.rounds t levels, placeOf item ∈ s.places := by
  induction hn : s.pending.length using Nat.strongRecOn generalizing s with
  | ind n ih =>
    intro item hitem
    cases hend : s.atEnd with
    | true =>
      rw [rounds_of_atEnd hend] at hitem
      cases hitem
    | false =>
      have hlt := round_length_lt t levels (pending_ne_nil_of_not_atEnd hend)
      have hreach := (Reaches.next s).trans (round_reaches t levels s)
      rw [rounds_of_not_atEnd hend] at hitem
      rcases List.mem_cons.1 hitem with rfl | hitem
      · exact placeOf_round t levels s
      · exact hreach.mem_places (ih _ (by omega) _ rfl item hitem)

/-- No token is the end of input, and all tokens and the end of input stand at places of their
own. -/
structure TokenStream.Distinct (s : TokenStream) : Prop where
  kind_ne_eof : ∀ token ∈ s.pending, token.kind ≠ .eof
  start_ne_stop : ∀ token ∈ s.pending, token.span.start ≠ s.stop
  start_ne_start : s.pending.Pairwise fun token token' => token.span.start ≠ token'.span.start

namespace TokenStream

theorem Reaches.distinct {s s' : TokenStream} (h : Reaches s s') (hs : s.Distinct) :
    s'.Distinct := by
  refine ⟨fun token htoken => hs.kind_ne_eof token (h.mem_pending htoken), ?_, ?_⟩
  · intro token htoken
    rw [h.stop_eq]
    exact hs.start_ne_stop token (h.mem_pending htoken)
  · obtain ⟨k, rfl⟩ := h
    exact hs.start_ne_start.drop

theorem Distinct.not_atEnd {s : TokenStream} (hs : s.Distinct) {token : Token} {r : List Token}
    (h : s.pending = token :: r) : s.atEnd = false := by
  refine Bool.eq_false_iff.2 fun hend => ?_
  rw [pending_eq_nil_of_atEnd hs.kind_ne_eof hend] at h
  cases h

end TokenStream

theorem Lexer.stream_distinct (l : Lexer) (hsize : l.offset + byteLength l.rest < UInt32.size) :
    l.stream.Distinct := by
  rw [l.stream_eq]
  obtain ⟨hbounds, -⟩ := l.scans_tokens.placed hsize
  refine ⟨fun token htoken => l.scans_tokens.kind_ne_eof htoken, ?_, ?_⟩
  · intro token htoken heq
    have hbound := hbounds token htoken
    have hstop : token.span.start.offset.toNat = l.offset + byteLength l.rest := by
      rw [heq]
      exact UInt32.toNat_ofNat_of_lt' hsize
    omega
  · apply (l.tokens_ordered hsize).imp
    intro token token' hlt heq
    rw [heq] at hlt
    omega

/-! ## Skipping to the end of a statement -/

namespace TokenStream

theorem afterFailure_of_tooDeep (s : TokenStream) {cause : Cause} (h : cause.TooDeep) :
    s.afterFailure cause = (s.skipToStatementEnd.skipPeek .semicolon).next := by
  obtain ⟨limit, rfl⟩ := h
  rfl

theorem afterFailure_of_not_tooDeep (s : TokenStream) {cause : Cause} (h : ¬ cause.TooDeep) :
    s.afterFailure cause = (s.skipPeek .semicolon).next := by
  cases cause with
  | nestingTooDeep limit => exact absurd ⟨limit, rfl⟩ h
  | unexpectedToken => rfl
  | noPrefixRule => rfl
  | badInteger => rfl

/-- Skipping passes the tokens before a semicolon one by one. -/
theorem afterFailure_next {s : TokenStream} {cause : Cause} (h : cause.TooDeep)
    (hsemi : s.peek.kind ≠ .semicolon) (heof : s.peek.kind ≠ .eof) :
    s.afterFailure cause = s.next.afterFailure cause := by
  rw [afterFailure_of_tooDeep s h, afterFailure_of_tooDeep s.next h, skipToStatementEnd_eq,
    if_neg (not_or.2 ⟨hsemi, heof⟩)]

/-- What is skipped after nesting too deeply ends with the first semicolon after the current token,
or it is everything. -/
theorem afterFailure_split {cause : Cause} (h : cause.TooDeep) {token : Token} {r : List Token}
    {s : TokenStream} (hs : s.pending = token :: r) (heof : ∀ u ∈ r, u.kind ≠ .eof) :
    (s.afterFailure cause).pending = [] ∨
      ∃ skipped semicolon, semicolon.kind = .semicolon ∧
        s.pending = skipped ++ semicolon :: (s.afterFailure cause).pending := by
  induction r generalizing token s with
  | nil =>
    left
    have hpeek : s.peek.kind = .eof := peek_kind_of_short (by simp [hs])
    rw [afterFailure_of_tooDeep s h, skipToStatementEnd_eq, if_pos (.inr hpeek), skipPeek,
      if_neg (by rw [hpeek]; decide), next, hs]
    rfl
  | cons u r ih =>
    have hpeek : s.peek = u := by rw [peek, hs]
    have hnext : s.next.pending = u :: r := by rw [next, hs, List.tail_cons]
    by_cases hsemi : u.kind = .semicolon
    · right
      refine ⟨[token], u, hsemi, ?_⟩
      rw [afterFailure_of_tooDeep s h, skipToStatementEnd_eq,
        if_pos (.inl (by rw [hpeek, hsemi])), skipPeek, if_pos (by rw [hpeek, hsemi]), next,
        hnext, hs]
      rfl
    · have hne : u.kind ≠ .eof := heof u List.mem_cons_self
      rw [afterFailure_next h (by rw [hpeek]; exact hsemi) (by rw [hpeek]; exact hne)]
      rcases ih hnext (fun v hv => heof v (List.mem_cons_of_mem _ hv)) with hnil | hsplit
      · exact .inl hnil
      · obtain ⟨skipped, semicolon, hkind, hpending⟩ := hsplit
        right
        refine ⟨token :: skipped, semicolon, hkind, ?_⟩
        rw [hs, ← hnext, hpending]
        rfl

end TokenStream

/-! ## Streams that go on after a semicolon -/

/-- The stream `s` ends with the semicolon `last`, and `s'` goes on after it with the tokens `more`,
up to `stop`. -/
structure Extends (last : Token) (more : List Token) (stop : Position) (s s' : TokenStream) :
    Prop where
  semicolon : last.kind = .semicolon
  ends : s.pending.getLast? = some last
  pending_eq : s'.pending = s.pending ++ more
  stop_eq : s'.stop = stop

/-- Where `s` goes on, `s'` goes on as well; where `s` has come to its end, `s'` has come to the
tokens `more`. -/
def Resumes (last : Token) (more : List Token) (stop : Position) (s s' : TokenStream) : Prop :=
  Extends last more stop s s' ∨ s.pending = [] ∧ s' = ⟨more, stop, s'.passed⟩

namespace Extends

variable {last : Token} {more : List Token} {stop : Position} {s s' : TokenStream}

theorem exists_cons (h : Extends last more stop s s') : ∃ token r, s.pending = token :: r := by
  have hlast := h.ends
  cases hp : s.pending with
  | nil =>
    rw [hp] at hlast
    cases hlast
  | cons token r => exact ⟨token, r, rfl⟩

theorem current_eq (h : Extends last more stop s s') : s'.current = s.current := by
  obtain ⟨token, r, hs⟩ := h.exists_cons
  have hs' : s'.pending = token :: (r ++ more) := by rw [h.pending_eq, hs, List.cons_append]
  rw [current_of_cons hs, current_of_cons hs']

theorem atEnd_eq (h : Extends last more stop s s') : s'.atEnd = s.atEnd := by
  rw [atEnd, h.current_eq, atEnd]

/-- A token behind the current one keeps the semicolon in sight. -/
theorem next_of_two_le (h : Extends last more stop s s') (htwo : 2 ≤ s.pending.length) :
    Extends last more stop s.next s'.next := by
  obtain ⟨token, r, hs⟩ := h.exists_cons
  have hr : r ≠ [] := by
    rintro rfl
    simp [hs] at htwo
  refine ⟨h.semicolon, ?_, ?_, h.stop_eq⟩
  · have hlast := h.ends
    rw [hs, List.getLast?_cons_of_ne_nil hr] at hlast
    rw [next, hs, List.tail_cons, hlast]
  · rw [next, next, h.pending_eq, hs]
    rfl

theorem two_le (h : Extends last more stop s s') (hne : s.current.kind ≠ .semicolon) :
    2 ≤ s.pending.length := by
  obtain ⟨token, r, hs⟩ := h.exists_cons
  have hlast := h.ends
  cases r with
  | nil =>
    rw [hs, List.getLast?_singleton, Option.some.injEq] at hlast
    rw [current_of_cons hs, hlast] at hne
    exact absurd h.semicolon hne
  | cons u r =>
    rw [hs, List.length_cons, List.length_cons]
    omega

theorem peek_eq (h : Extends last more stop s s') (htwo : 2 ≤ s.pending.length) :
    s'.peek = s.peek := by
  rw [← current_next, ← current_next]
  exact (h.next_of_two_le htwo).current_eq

theorem next (h : Extends last more stop s s') : Resumes last more stop s.next s'.next := by
  rcases Nat.lt_or_ge s.pending.length 2 with hlt | hge
  · right
    obtain ⟨token, r, hs⟩ := h.exists_cons
    obtain rfl : r = [] := by
      rw [hs, List.length_cons] at hlt
      exact List.length_eq_zero_iff.1 (by omega)
    refine ⟨by rw [TokenStream.next, hs]; rfl, ?_⟩
    simp [TokenStream.next, h.pending_eq, hs, h.stop_eq]
  · exact .inl (h.next_of_two_le hge)

/-- A semicolon after the current token is passed in both streams. -/
theorem skipPeek_next (h : Extends last more stop s s')
    (hmore : ∀ token, more.head? = some token → token.kind ≠ .semicolon) :
    Resumes last more stop (s.skipPeek .semicolon).next (s'.skipPeek .semicolon).next := by
  rcases Nat.lt_or_ge s.pending.length 2 with hlt | hge
  · obtain ⟨token, r, hs⟩ := h.exists_cons
    obtain rfl : r = [] := by
      rw [hs, List.length_cons] at hlt
      exact List.length_eq_zero_iff.1 (by omega)
    have hpeek : s.peek.kind ≠ .semicolon := by
      rw [peek_of_short hlt]
      exact fun h => nomatch h
    have hpeek' : s'.peek.kind ≠ .semicolon := by
      rw [peek, h.pending_eq, hs]
      cases more with
      | nil => exact fun h => nomatch h
      | cons u more => exact hmore u rfl
    rw [skipPeek, if_neg hpeek, skipPeek, if_neg hpeek']
    exact h.next
  · rw [skipPeek, skipPeek, h.peek_eq hge]
    split
    · exact (h.next_of_two_le hge).next
    · exact h.next

/-- Skipping to a semicolon that is pending leads to the same place in both streams. -/
theorem skipToStatementEnd (h : Extends last more stop s s') (htwo : 2 ≤ s.pending.length) :
    Extends last more stop s.skipToStatementEnd s'.skipToStatementEnd := by
  induction hn : s.pending.length generalizing s s' with
  | zero => omega
  | succ n ih =>
    rw [skipToStatementEnd_eq s, skipToStatementEnd_eq s', h.peek_eq htwo]
    split
    · exact h
    · rename_i hpeek
      have hnext := h.next_of_two_le htwo
      have hlength : s.next.pending.length = n := by
        rw [TokenStream.next, List.length_tail, hn, Nat.add_sub_cancel]
      refine ih hnext (hnext.two_le ?_) hlength
      rw [current_next]
      exact (not_or.1 hpeek).1

/-- Both streams recover in step, unless expressions nest too deeply at the last semicolon. -/
theorem afterFailure (h : Extends last more stop s s') {cause : Cause}
    (hmore : ∀ token, more.head? = some token → token.kind ≠ .semicolon)
    (hdeep : cause.TooDeep → 2 ≤ s.pending.length) :
    Resumes last more stop (s.afterFailure cause) (s'.afterFailure cause) := by
  by_cases hcause : cause.TooDeep
  · rw [afterFailure_of_tooDeep s hcause, afterFailure_of_tooDeep s' hcause]
    exact (h.skipToStatementEnd (hdeep hcause)).skipPeek_next hmore
  · rw [afterFailure_of_not_tooDeep s hcause, afterFailure_of_not_tooDeep s' hcause]
    exact h.skipPeek_next hmore

theorem distinct (h : Extends last more stop s s') (hs' : s'.Distinct) (n : Nat) :
    (⟨more, stop, n⟩ : TokenStream).Distinct := by
  have hmem : ∀ token ∈ more, token ∈ s'.pending := by
    intro token htoken
    rw [h.pending_eq]
    exact List.mem_append_right _ htoken
  refine ⟨fun token htoken => hs'.kind_ne_eof token (hmem token htoken), ?_, ?_⟩
  · intro token htoken
    rw [← h.stop_eq]
    exact hs'.start_ne_stop token (hmem token htoken)
  · have hpairs := hs'.start_ne_start
    rw [h.pending_eq] at hpairs
    exact (List.pairwise_append.1 hpairs).2.1

end Extends

/-- The tokens up to a semicolon are parsed without regard to what follows it. -/
theorem mirrors_extends (last : Token) (more : List Token) (stop : Position) :
    Mirrors id (Extends last more stop) := by
  constructor
  · intro s s' h
    rw [h.current_eq, Token.relocate_id]
  · intro s s' h hne
    exact h.next_of_two_le (h.two_le hne)

/-! ## The attempts at a longer stream -/

/-- Whether the nesting got too deep at the token `last`. -/
def DeepAt (last : Token) (items : List (Except Diagnostic Stmt)) : Prop :=
  ∃ d ∈ diagnosticsOf items, d.cause.TooDeep ∧ d.position = last.span.start

theorem deepAt_cons {last : Token} {item : Except Diagnostic Stmt}
    {items : List (Except Diagnostic Stmt)}
    (h : ∀ d, item = .error d → d.cause.TooDeep → d.position ≠ last.span.start) :
    DeepAt last (item :: items) ↔ DeepAt last items := by
  cases item with
  | ok statement => exact Iff.rfl
  | error d =>
    simp only [DeepAt, diagnosticsOf_error, List.mem_cons, exists_eq_or_imp]
    apply or_iff_right
    rintro ⟨hcause, hposition⟩
    exact h d rfl hcause hposition

/-- What the attempts at a longer stream come to: those at the shorter one, and then those at what
follows, unless the nesting gets too deep at the semicolon between them. -/
structure Continues (last : Token) (more : List Token) (stop : Position) (s s' : TokenStream) :
    Prop where
  contained : ¬ DeepAt last (s.rounds .default maxNesting) → ∃ n,
    s'.rounds .default maxNesting =
      s.rounds .default maxNesting ++ TokenStream.rounds .default maxNesting ⟨more, stop, n⟩
  spilled : DeepAt last (s.rounds .default maxNesting) → ∃ n cause, cause.TooDeep ∧
    s'.rounds .default maxNesting = s.rounds .default maxNesting ++
      (TokenStream.afterFailure ⟨last :: more, stop, n⟩ cause).rounds .default maxNesting

namespace Continues

variable {last : Token} {more : List Token} {stop : Position} {s s' t t' : TokenStream}

theorem of_nil (hs : s.pending = []) (n : Nat) : Continues last more stop s ⟨more, stop, n⟩ := by
  have hend := atEnd_of_nil hs
  refine ⟨fun _ => ⟨n, ?_⟩, ?_⟩
  · rw [rounds_of_atEnd hend, List.nil_append]
  · rintro ⟨d, hd, _⟩
    rw [rounds_of_atEnd hend] at hd
    cases hd

theorem of_round {item : Except Diagnostic Stmt} (hend : s.atEnd = false)
    (hend' : s'.atEnd = false) (hs : s.round .default maxNesting = (item, t))
    (hs' : s'.round .default maxNesting = (item, t'))
    (hitem : ∀ d, item = .error d → d.cause.TooDeep → d.position ≠ last.span.start)
    (h : Continues last more stop t t') : Continues last more stop s s' := by
  have hrounds : s.rounds .default maxNesting = item :: t.rounds .default maxNesting := by
    rw [rounds_of_not_atEnd hend, hs]
  have hrounds' : s'.rounds .default maxNesting = item :: t'.rounds .default maxNesting := by
    rw [rounds_of_not_atEnd hend', hs']
  have hdeep : DeepAt last (s.rounds .default maxNesting) ↔
      DeepAt last (t.rounds .default maxNesting) := by
    rw [hrounds]
    exact deepAt_cons hitem
  constructor
  · intro hnot
    obtain ⟨n, hn⟩ := h.contained (mt hdeep.2 hnot)
    exact ⟨n, by rw [hrounds, hrounds', hn, List.cons_append]⟩
  · intro hat
    obtain ⟨n, cause, hcause, hn⟩ := h.spilled (hdeep.1 hat)
    exact ⟨n, cause, hcause, by rw [hrounds, hrounds', hn, List.cons_append]⟩

theorem of_spill {d : Diagnostic} {n : Nat} (hend : s.atEnd = false) (hend' : s'.atEnd = false)
    (hs : s.round .default maxNesting = (.error d, t))
    (hs' : s'.round .default maxNesting =
      (.error d, TokenStream.afterFailure ⟨last :: more, stop, n⟩ d.cause))
    (ht : t.pending = []) (hcause : d.cause.TooDeep) (hposition : d.position = last.span.start) :
    Continues last more stop s s' := by
  have hitems : s.rounds .default maxNesting = [.error d] := by
    rw [rounds_of_not_atEnd hend, hs, rounds_of_atEnd (atEnd_of_nil ht)]
  have hdeep : DeepAt last (s.rounds .default maxNesting) := by
    rw [hitems]
    exact ⟨d, List.mem_singleton.2 rfl, hcause, hposition⟩
  refine ⟨fun hnot => absurd hdeep hnot, fun _ => ⟨n, d.cause, hcause, ?_⟩⟩
  rw [hitems, rounds_of_not_atEnd hend', hs']
  rfl

end Continues

namespace Extends

variable {last : Token} {more : List Token} {stop : Position} {s s' : TokenStream}

/-- The semicolon is the only token left, or it starts elsewhere than the current token. -/
theorem eq_singleton_or (h : Extends last more stop s s') (hs : s.Distinct) :
    s.pending = [last] ∨ 2 ≤ s.pending.length ∧ s.current.span.start ≠ last.span.start := by
  obtain ⟨token, r, hpending⟩ := h.exists_cons
  have hlast := h.ends
  cases r with
  | nil =>
    left
    rw [hpending, List.getLast?_singleton, Option.some.injEq] at hlast
    rw [hpending, hlast]
  | cons u r =>
    right
    rw [hpending, List.getLast?_cons_cons] at hlast
    have hpairs := hs.start_ne_start
    rw [hpending] at hpairs
    refine ⟨by rw [hpending, List.length_cons, List.length_cons]; omega, ?_⟩
    rw [current_of_cons hpending]
    exact (List.pairwise_cons.1 hpairs).1 last (List.mem_of_getLast? hlast)

end Extends

/-- **The attempts at a longer stream.** -/
theorem rounds_extends {last : Token} {more : List Token} {stop : Position} {s s' : TokenStream}
    (h : Extends last more stop s s') (hs : s.Distinct)
    (hmore : ∀ token, more.head? = some token → token.kind ≠ .semicolon) :
    Continues last more stop s s' := by
  induction hn : s.pending.length using Nat.strongRecOn generalizing s s' with
  | ind n ih =>
    obtain ⟨token, r, hpending⟩ := h.exists_cons
    have hend := hs.not_atEnd hpending
    have hend' : s'.atEnd = false := by rw [h.atEnd_eq, hend]
    have hlt := round_length_lt .default maxNesting (pending_ne_nil_of_not_atEnd hend)
    have hreach := (Reaches.next s).trans (round_reaches .default maxNesting s)
    have hresumes : ∀ t', Resumes last more stop (s.round .default maxNesting).2 t' →
        Continues last more stop (s.round .default maxNesting).2 t' := by
      rintro t' (hext | ⟨hnil, ht'⟩)
      · exact ih _ (by omega) hext (hreach.distinct hs) rfl
      · rw [ht']
        exact .of_nil hnil _
    have hparse := parseStmt_mirrored (mirrors_extends last more stop) maxNesting h
    have hparsed := parseStmt_reaches .default maxNesting s
    cases ho : parseStmt .default maxNesting s with
    | found statement u =>
      rw [ho] at hparse
      generalize ho' : parseStmt .default maxNesting s' = o' at hparse
      cases hparse with
      | found _ hu =>
        rw [Stmt.relocate_id] at ho'
        rw [round_of_found ho] at hresumes
        refine .of_round hend hend' (round_of_found ho) (round_of_found ho') ?_
          (hresumes _ hu.next)
        intro d hd
        cases hd
    | failed d u =>
      rw [ho] at hparse hparsed
      generalize ho' : parseStmt .default maxNesting s' = o' at hparse
      cases hparse with
      | @failed _ _ u' hu =>
        rw [round_of_failed ho] at hresumes
        have hround := round_of_failed ho
        have hround' := round_of_failed ho'
        have hposition : d.cause.TooDeep → d.position = u.current.span.start := by
          intro hcause
          rcases parseStmt_located ho with heq | ⟨_, hnot⟩
          · exact heq
          · exact absurd hcause hnot
        by_cases hspill : d.cause.TooDeep ∧ u.pending = [last]
        · -- The failed attempt took the semicolon for a token of the statement.
          obtain ⟨hcause, hsingle⟩ := hspill
          have hnil : (u.afterFailure d.cause).pending = [] := by
            have hle := (next_reaches_afterFailure u d.cause).length_le
            rw [TokenStream.next, hsingle] at hle
            exact List.length_eq_zero_iff.1 (Nat.le_zero.1 hle)
          have hu' : u' = ⟨last :: more, stop, u'.passed⟩ := by
            rw [← hu.stop_eq, ← List.singleton_append, ← hsingle, ← hu.pending_eq]
          rw [hu'] at hround'
          refine .of_spill hend hend' hround hround' hnil hcause ?_
          rw [hposition hcause, current_of_cons hsingle]
        · refine .of_round hend hend' hround hround' ?_ (hresumes _ (hu.afterFailure hmore ?_))
          · intro d' hd' hcause
            cases hd'
            rw [hposition hcause]
            rcases hu.eq_singleton_or (hparsed.distinct hs) with hsingle | ⟨_, hne⟩
            · exact absurd ⟨hcause, hsingle⟩ hspill
            · exact hne
          · intro hcause
            rcases hu.eq_singleton_or (hparsed.distinct hs) with hsingle | ⟨htwo, _⟩
            · exact absurd ⟨hcause, hsingle⟩ hspill
            · exact htwo

/-! ## What is given up -/

/-- The first attempt does not depend on what follows the semicolon. -/
theorem Extends.round_fst {last : Token} {more : List Token} {stop : Position}
    {s s' : TokenStream} (h : Extends last more stop s s') (levels : Nat) :
    (s'.round .default levels).1 = (s.round .default levels).1 := by
  have hparse := parseStmt_mirrored (mirrors_extends last more stop) levels h
  unfold TokenStream.round
  generalize parseStmt .default levels s = o at hparse
  generalize parseStmt .default levels s' = o' at hparse
  cases hparse with
  | found statement _ => simp only [Stmt.relocate_id]
  | failed d _ => rfl

/-- The first attempt is placed at a token up to the first semicolon. -/
theorem placeOf_round_of_semicolon {skipped rest : List Token} {semicolon : Token}
    (hkind : semicolon.kind = .semicolon) {s : TokenStream}
    (hs : s.pending = skipped ++ semicolon :: rest) (levels : Nat) :
    ∃ token ∈ skipped ++ [semicolon],
      placeOf (s.round .default levels).1 = token.span.start := by
  let head : TokenStream := ⟨skipped ++ [semicolon], s.current.span.start, 0⟩
  have hext : Extends semicolon rest s.stop head s := by
    refine ⟨hkind, ?_, ?_, rfl⟩
    · exact List.getLast?_concat
    · rw [hs, List.append_assoc]
      rfl
  have hplace := placeOf_round .default levels head
  rw [← hext.round_fst levels] at hplace
  rcases List.mem_append.1 hplace with hplace | hplace
  · obtain ⟨token, htoken, heq⟩ := List.mem_map.1 hplace
    exact ⟨token, htoken, heq.symm⟩
  · obtain ⟨token, r, hpending⟩ := hext.exists_cons
    refine ⟨token, ?_, ?_⟩
    · rw [show skipped ++ [semicolon] = token :: r from hpending]
      exact List.mem_cons_self
    · rw [List.mem_singleton.1 hplace, ← current_of_cons hpending, ← hext.current_eq]

/-- What is found where too deep nesting makes a parse go on is not what is found where it failed:
the first attempt is missing. -/
theorem rounds_afterFailure_ne {s : TokenStream} (hs : s.Distinct) (hne : s.pending ≠ [])
    {cause : Cause} (hcause : cause.TooDeep) (levels : Nat)
    (hstmt : statementsOf ((s.afterFailure cause).rounds .default levels) =
      statementsOf (s.rounds .default levels)) :
    diagnosticsOf ((s.afterFailure cause).rounds .default levels) ≠
      diagnosticsOf (s.rounds .default levels) := by
  intro hdiag
  obtain ⟨token, r, hpending⟩ := List.exists_cons_of_ne_nil hne
  have hfirst : (s.round .default levels).1 ∈ (s.afterFailure cause).rounds .default levels := by
    have hmem : (s.round .default levels).1 ∈ s.rounds .default levels := by
      rw [rounds_of_not_atEnd (hs.not_atEnd hpending)]
      exact List.mem_cons_self
    cases hitem : (s.round .default levels).1 with
    | ok statement =>
      rw [hitem] at hmem
      rw [← mem_statementsOf, hstmt, mem_statementsOf]
      exact hmem
    | error d =>
      rw [hitem] at hmem
      rw [← mem_diagnosticsOf, hdiag, mem_diagnosticsOf]
      exact hmem
  have heof : ∀ u ∈ r, u.kind ≠ .eof := by
    intro u hu
    exact hs.kind_ne_eof u (by rw [hpending]; exact List.mem_cons_of_mem _ hu)
  rcases afterFailure_split hcause hpending heof with hnil | ⟨skipped, semicolon, hkind, hsplit⟩
  · rw [rounds_of_atEnd (atEnd_of_nil hnil)] at hfirst
    cases hfirst
  · obtain ⟨first, hmem, hplace⟩ := placeOf_round_of_semicolon hkind hsplit levels
    have hlater := placeOf_rounds .default levels (s.afterFailure cause) _ hfirst
    rw [hplace] at hlater
    rw [List.append_cons] at hsplit
    rcases List.mem_append.1 hlater with hlater | hlater
    · obtain ⟨token', hmem', heq⟩ := List.mem_map.1 hlater
      have hpairs := hs.start_ne_start
      rw [hsplit] at hpairs
      exact (List.pairwise_append.1 hpairs).2.2 first hmem token' hmem' heq.symm
    · have hstop := hs.start_ne_stop first (by rw [hsplit]; exact List.mem_append_left _ hmem)
      have hreach := (Reaches.next s).trans (next_reaches_afterFailure s cause)
      rw [List.mem_singleton, hreach.stop_eq] at hlater
      exact hstop hlater

/-! ## Sources joined at a semicolon -/

/-- Parsing `a ++ b` finds what parsing `a` finds and then what parsing `b` finds, further on. -/
structure Contained (a b : String) : Prop where
  statements : (parse (a ++ b)).1.statements = (parse a).1.statements ++
    (parse b).1.statements.map (Stmt.relocate (Position.shift a.utf8ByteSize))
  diagnostics : (parse (a ++ b)).2 =
    (parse a).2 ++ (parse b).2.map (Diagnostic.relocate (Position.shift a.utf8ByteSize))

/-- Whether expressions nest too deeply at the last token of a source. -/
def DeepAtEnd (source : String) : Prop :=
  ∃ last ∈ (tokensOf source).getLast?, ∃ d ∈ (parse source).2,
    d.cause.TooDeep ∧ d.position = last.span.start

theorem streamOf_distinct {source : String} (hsize : source.utf8ByteSize < UInt32.size) :
    (streamOf source).Distinct := by
  refine Lexer.stream_distinct _ ?_
  rw [Lexer.ofSource, Lexer.ofFile, Nat.zero_add, byteLength_toList]
  exact hsize

/-- A semicolon takes in nothing after it, so the tokens that follow are the same as ever. -/
theorem tokensOf_append {a b : String} {last : Token} (hlast : (tokensOf a).getLast? = some last)
    (hkind : last.kind = .semicolon) :
    tokensOf (a ++ b) =
      tokensOf a ++ (tokensOf b).map (Token.relocate (Position.shift a.utf8ByteSize)) := by
  apply tokensOf_append_of_seam
  intro t d ht _
  obtain rfl : last = t := by
    rw [hlast, Option.some.injEq] at ht
    exact ht
  obtain ⟨c, cs, _, hfirst, htext⟩ :=
    (Lexer.ofSource a).scans_tokens.lexeme (List.mem_of_getLast? hlast)
  rw [htext, String.toList_ofList]
  exact Lexeme.continues_of_semicolon (hfirst.symm.trans hkind) d

theorem streamOf_extends {a b : String} {last : Token} (hlast : (tokensOf a).getLast? = some last)
    (hkind : last.kind = .semicolon) :
    Extends last ((tokensOf b).map (Token.relocate (Position.shift a.utf8ByteSize)))
      (.ofBytes Lexer.defaultFile (a ++ b).utf8ByteSize) (streamOf a) (streamOf (a ++ b)) := by
  refine ⟨hkind, ?_, ?_, ?_⟩
  · rw [streamOf_eq]
    exact hlast
  · rw [streamOf_eq, streamOf_eq]
    exact tokensOf_append hlast hkind
  · rw [streamOf_eq]

/-- The stream of `b` as it stands behind `a`. -/
theorem streamOf_shift (a b : String) (n : Nat) :
    (⟨(tokensOf b).map (Token.relocate (Position.shift a.utf8ByteSize)),
        .ofBytes Lexer.defaultFile (a ++ b).utf8ByteSize, n⟩ : TokenStream) =
      (streamOf b).relocate (Position.shift a.utf8ByteSize) n := by
  rw [streamOf_eq, TokenStream.relocate, Position.shift_ofBytes, String.utf8ByteSize_append]
  rfl

theorem deepAtEnd_iff {a : String} {last : Token} (hlast : (tokensOf a).getLast? = some last) :
    DeepAtEnd a ↔ DeepAt last ((streamOf a).rounds .default maxNesting) := by
  rw [DeepAtEnd, hlast, parse_diagnostics]
  simp only [Option.mem_def, Option.some.injEq, exists_eq_left', DeepAt]

/-- What the attempts at `b` have to come to behind `a`. -/
theorem contained_iff_of_rounds {a b : String} {items : List (Except Diagnostic Stmt)}
    (h : (streamOf (a ++ b)).rounds .default maxNesting =
      (streamOf a).rounds .default maxNesting ++ items) (n : Nat) :
    Contained a b ↔
      statementsOf items = statementsOf (TokenStream.rounds .default maxNesting
          ((streamOf b).relocate (Position.shift a.utf8ByteSize) n)) ∧
        diagnosticsOf items = diagnosticsOf (TokenStream.rounds .default maxNesting
          ((streamOf b).relocate (Position.shift a.utf8ByteSize) n)) := by
  rw [rounds_relocate, statementsOf_relocate, diagnosticsOf_relocate, ← parse_statements,
    ← parse_diagnostics]
  have hstmt : (parse (a ++ b)).1.statements = (parse a).1.statements ++ statementsOf items := by
    rw [parse_statements, h, statementsOf_append, parse_statements]
  have hdiag : (parse (a ++ b)).2 = (parse a).2 ++ diagnosticsOf items := by
    rw [parse_diagnostics, h, diagnosticsOf_append, parse_diagnostics]
  constructor
  · rintro ⟨hstmts, hdiags⟩
    rw [hstmt] at hstmts
    rw [hdiag] at hdiags
    exact ⟨List.append_cancel_left hstmts, List.append_cancel_left hdiags⟩
  · rintro ⟨hstmts, hdiags⟩
    exact ⟨by rw [hstmt, hstmts], by rw [hdiag, hdiags]⟩

/-- **Recovery ends at the semicolon, unless it is the semicolon that nests too deeply.** A source
after a semicolon is parsed as it is on its own, and gets no fewer and no other diagnostics; but if
the nesting gets too deep at that very semicolon, this holds only where no token follows it. -/
theorem contained_iff {a b : String} {last : Token} (hsize : (a ++ b).utf8ByteSize < UInt32.size)
    (hlast : (tokensOf a).getLast? = some last) (hkind : last.kind = .semicolon)
    (hfirst : ∀ first ∈ (tokensOf b).head?, first.kind ≠ .semicolon) :
    Contained a b ↔ (DeepAtEnd a → tokensOf b = []) := by
  have hext := streamOf_extends (b := b) hlast hkind
  have hdistinct := streamOf_distinct hsize
  have hsize' : a.utf8ByteSize < UInt32.size := by
    rw [String.utf8ByteSize_append] at hsize
    omega
  have hmore : ∀ token,
      ((tokensOf b).map (Token.relocate (Position.shift a.utf8ByteSize))).head? = some token →
        token.kind ≠ .semicolon := by
    intro token htoken
    rw [List.head?_map] at htoken
    obtain ⟨first, hmem, rfl⟩ := Option.map_eq_some_iff.1 htoken
    exact hfirst first hmem
  have hcontinues := rounds_extends hext (streamOf_distinct hsize') hmore
  rw [deepAtEnd_iff hlast]
  by_cases hdeep : DeepAt last ((streamOf a).rounds .default maxNesting)
  · obtain ⟨n, cause, hcause, hrounds⟩ := hcontinues.spilled hdeep
    rw [contained_iff_of_rounds hrounds (n + 1), ← streamOf_shift]
    cases hb : tokensOf b with
    | nil =>
      have hnil : (TokenStream.afterFailure ⟨[last],
          .ofBytes Lexer.defaultFile (a ++ b).utf8ByteSize, n⟩ cause).pending = [] := by
        have hle := (next_reaches_afterFailure ⟨[last],
          .ofBytes Lexer.defaultFile (a ++ b).utf8ByteSize, n⟩ cause).length_le
        exact List.length_eq_zero_iff.1 (Nat.le_zero.1 hle)
      rw [List.map_nil, rounds_of_atEnd (atEnd_of_nil hnil), rounds_of_atEnd (atEnd_of_nil rfl)]
      exact ⟨fun _ _ => rfl, fun _ => ⟨rfl, rfl⟩⟩
    | cons first r =>
      have hbehind := hext.distinct hdistinct (n + 1)
      rw [hb] at hbehind
      have hsemi : first.kind ≠ .semicolon := hfirst first (by rw [hb]; rfl)
      have heof : first.kind ≠ .eof :=
        hbehind.kind_ne_eof (first.relocate _) (List.mem_map_of_mem List.mem_cons_self)
      have hskip : TokenStream.afterFailure ⟨last :: (first :: r).map
            (Token.relocate (Position.shift a.utf8ByteSize)),
          .ofBytes Lexer.defaultFile (a ++ b).utf8ByteSize, n⟩ cause =
          TokenStream.afterFailure ⟨(first :: r).map
            (Token.relocate (Position.shift a.utf8ByteSize)),
          .ofBytes Lexer.defaultFile (a ++ b).utf8ByteSize, n + 1⟩ cause :=
        afterFailure_next hcause hsemi heof
      rw [hskip]
      refine ⟨fun ⟨hstmt, hdiag⟩ => ?_, fun h => absurd (h hdeep) (List.cons_ne_nil _ _)⟩
      exact absurd hdiag (rounds_afterFailure_ne hbehind (List.cons_ne_nil _ _) hcause _ hstmt)
  · obtain ⟨n, hrounds⟩ := hcontinues.contained hdeep
    rw [streamOf_shift] at hrounds
    refine ⟨fun _ h => absurd h hdeep, fun _ => ?_⟩
    exact (contained_iff_of_rounds hrounds n).2 ⟨rfl, rfl⟩

/-- What follows a failed binding is parsed as ever. -/
theorem contained_after_failed_binding : Contained "let x 5;" "y" := by
  have hlast : (tokensOf "let x 5;").getLast? =
      some ⟨.semicolon, ";", ⟨.ofBytes "shell" 7, .ofBytes "shell" 8⟩⟩ := by decide +kernel
  have hfirst : ∀ first ∈ (tokensOf "y").head?, first.kind ≠ .semicolon := by decide +kernel
  apply (contained_iff (by decide +kernel) hlast rfl hfirst).2
  rintro ⟨last, _, d, hd, ⟨limit, hcause⟩, _⟩
  have hdiag : (parse "let x 5;").2 =
      [⟨.unexpectedToken .assign .integer "5", .ofBytes "shell" 6⟩] := by decide +kernel
  rw [hdiag, List.mem_singleton] at hd
  rw [hd] at hcause
  cases hcause

/-- As many opening parentheses as expressions may nest, and a semicolon. -/
def deepSource : String := String.ofList (List.replicate maxNesting '(' ++ [';'])

/-- After a semicolon that nests too deeply, the first statement is lost. -/
theorem not_contained_after_deepSource :
    (deepSource ++ "x; y;").utf8ByteSize < UInt32.size ∧
      (tokensOf deepSource).getLast?.map Token.kind = some .semicolon ∧
      (tokensOf "x; y;").head?.map Token.kind = some .identifier ∧
      ¬ Contained deepSource "x; y;" := by
  refine ⟨by decide +kernel, by decide +kernel, by decide +kernel, ?_⟩
  intro h
  have hlost : (parse (deepSource ++ "x; y;")).1.statements.length = 1 := by decide +kernel
  have hkept : (parse "x; y;").1.statements.length = 2 := by decide +kernel
  have hlength := congrArg List.length h.statements
  rw [List.length_append, List.length_map, hlost, hkept] at hlength
  omega

end FrontEnd
