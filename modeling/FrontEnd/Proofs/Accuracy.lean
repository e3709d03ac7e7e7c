import FrontEnd.Proofs.Attempts

/-!
# Diagnostics are accurate and in order

Every diagnostic is about one token of its source: it is reported where that token starts, and says
what that token is. Along the list the places never go back. An attempt that fails gives up at least
the token that the parser stands on, so the number of that token grows from one diagnostic to the
next. The token that a diagnostic is about is that one, or the one after it if another token was
expected there; hence two diagnostics may be about one token, if the first of them expected another,
and three may not.

The end of input needs care, since it has every number from some number on. A diagnostic about it is
the last one.

* `NumberedBy` — a diagnostic and the number of the token that the parser stood on.

Principal results: `Tried.numbered` (the diagnostics of a stream, numbered) and
`parse_diagnostics_accurate`, which says of sources what follows from it.
-/

namespace FrontEnd

open TokenStream

/-- Only a token that another was expected for comes after the current one. -/
theorem Cause.eq_of_ahead_pos {cause : Cause} (h : 0 < cause.ahead) :
    ∃ expected received text, cause = .unexpectedToken expected received text := by
  cases cause with
  | unexpectedToken expected received text => exact ⟨expected, received, text, rfl⟩
  | noPrefixRule | badInteger | nestingTooDeep => exact absurd h (Nat.lt_irrefl 0)

/-- A diagnostic that arises while the parser stands on token `r` of the stream `s`. -/
structure Diagnostic.NumberedBy (s : TokenStream) (d : Diagnostic) (r : Nat) : Prop where
  position_eq : d.position = (s.token (r + d.cause.ahead)).span.start
  describes : d.cause.Describes (s.token (r + d.cause.ahead))

/-- The diagnostics of the attempts from token `a` on are numbered by growing numbers. All but the
last are about tokens before the end of input. -/
theorem Tried.numbered {levels : Nat} {s : TokenStream} {a c : Nat} {os : List (Outcome Stmt)}
    (h : Tried levels s a os c) :
    ∃ ps : List (Diagnostic × Nat),
      ps.map Prod.fst = diagnosticsOf (os.map Outcome.result) ∧
      (∀ p ∈ ps, a ≤ p.2 ∧ a < s.pending.length ∧ p.1.NumberedBy s p.2) ∧
      ps.Pairwise fun p q => p.2 < q.2 ∧ p.2 + p.1.cause.ahead < s.pending.length := by
  induction h with
  | done => exact ⟨[], rfl, fun p hp => (nomatch hp), .nil⟩
  | @attempt a b c os hend _ h _ ih =>
    obtain ⟨ps, hmap, hps, hpairs⟩ := ih
    have hlt : a < s.pending.length := by
      have hpos := List.length_pos_iff.2 (pending_ne_nil_of_not_atEnd hend)
      rw [skip_pending, List.length_drop] at hpos
      omega
    generalize parseStmt .default levels (s.skip a) = o at h
    cases h with
    | @found i r statement hi hr =>
      refine ⟨ps, hmap, fun p hp => ?_, hpairs⟩
      obtain ⟨hle, -, hnumbered⟩ := hps p hp
      exact ⟨by omega, hlt, hnumbered⟩
    | @failed r _ d hr _ hb _ hposition hcause =>
      refine ⟨(d, r) :: ps, ?_, ?_, List.pairwise_cons.2 ⟨fun p hp => ?_, hpairs⟩⟩
      · rw [List.map_cons, List.map_cons, Outcome.result, diagnosticsOf_error, hmap]
      · refine List.forall_mem_cons.2 ⟨⟨hr, hlt, hposition, hcause⟩, fun p hp => ?_⟩
        obtain ⟨hle, -, hnumbered⟩ := hps p hp
        exact ⟨by omega, hlt, hnumbered⟩
      · -- there is one more attempt, so the next token is not the end of input either
        obtain ⟨hle, hnext, -⟩ := hps p hp
        have hahead := d.cause.ahead_le_one
        show r < p.2 ∧ r + d.cause.ahead < s.pending.length
        omega

theorem parseFile_numbered_by (file source : String) :
    ∃ ps : List (Diagnostic × Nat), (parseFile file source).2 = ps.map Prod.fst ∧
      (∀ p ∈ ps, p.1.position = (endless file source (p.2 + p.1.cause.ahead)).span.start ∧
        p.1.cause.Describes (endless file source (p.2 + p.1.cause.ahead))) ∧
      ps.Pairwise fun p q => p.2 < q.2 ∧
        (endless file source (p.2 + p.1.cause.ahead)).kind ≠ .eof := by
  have heof := stream_kind_ne_eof file source
  obtain ⟨c, h⟩ := outcomes_tried heof maxNesting 0
  obtain ⟨ps, hmap, hps, hpairs⟩ := h.numbered
  rw [skip_zero, map_result_outcomes, ← parseFile_diagnostics] at hmap
  refine ⟨ps, hmap.symm, fun p hp => ?_, hpairs.imp fun ⟨hlt, hend⟩ => ⟨hlt, ?_⟩⟩
  · obtain ⟨-, -, hposition, hdescribes⟩ := hps p hp
    rw [endless_eq_token]
    exact ⟨hposition, hdescribes⟩
  · rw [endless_eq_token, token_of_lt hend]
    exact heof _ (List.getElem_mem hend)

/-- **Diagnostics are accurate and in order.** Every diagnostic of a source of less than four
gibibytes is reported where one of its tokens starts, and describes that token. Their offsets never
go down. Of two that are at one offset the earlier one expected another token there, and no three
are at one offset. -/
theorem parse_diagnostics_accurate (source : String) (hsize : source.utf8ByteSize < UInt32.size) :
    (∀ d ∈ (parse source).2, ∃ t ∈ tokenize source,
        d.position = t.span.start ∧ d.cause.Describes t) ∧
      (parse source).2.Pairwise (fun d d' => d.position.offset ≤ d'.position.offset ∧
        (d.position.offset = d'.position.offset →
          ∃ expected received text, d.cause = .unexpectedToken expected received text)) ∧
      ∀ d d' d'', [d, d', d''].Sublist (parse source).2 →
        ¬ (d.position.offset = d'.position.offset ∧
          d'.position.offset = d''.position.offset) := by
  obtain ⟨ps, hmap, hps, hpairs⟩ := parseFile_numbered_by Lexer.defaultFile source
  have hoffset : ∀ p ∈ ps, p.1.position.offset.toNat =
      (endless Lexer.defaultFile source (p.2 + p.1.cause.ahead)).start := by
    intro p hp
    rw [(hps p hp).1]
    rfl
  -- of two diagnostics the later one is about no earlier token, and about a later one if the first
  -- of them is about the token that the parser stands on
  have hordered : ps.Pairwise fun p q =>
      p.2 + p.1.cause.ahead ≤ q.2 + q.1.cause.ahead ∧
      p.1.position.offset.toNat ≤ q.1.position.offset.toNat ∧
      (p.1.position.offset = q.1.position.offset →
        p.2 + p.1.cause.ahead = q.2 + q.1.cause.ahead) := by
    refine hpairs.imp_of_mem ?_
    rintro p q hp hq ⟨hlt, hkind⟩
    have hahead := p.1.cause.ahead_le_one
    have hle : p.2 + p.1.cause.ahead ≤ q.2 + q.1.cause.ahead := by omega
    refine ⟨hle, ?_, fun heq => ?_⟩
    · rw [hoffset p hp, hoffset q hq]
      exact endless_start_le _ hsize hle
    · refine Nat.le_antisymm hle (Nat.le_of_not_lt fun hnext => ?_)
      have hstart := endless_start_lt _ hsize hnext hkind
      rw [← hoffset p hp, ← hoffset q hq, heq] at hstart
      exact Nat.lt_irrefl _ hstart
  rw [parse, hmap]
  refine ⟨fun d hd => ?_, List.pairwise_map.2 ?_, fun d d' d'' hsub => ?_⟩
  · obtain ⟨p, hp, rfl⟩ := List.mem_map.1 hd
    obtain ⟨hposition, hdescribes⟩ := hps p hp
    refine ⟨_, ?_, hposition, hdescribes⟩
    rw [tokenize_eq_tokensIn]
    exact endless_mem _ _ _
  · refine (hordered.and hpairs).imp ?_
    rintro p q ⟨⟨-, hle, hsame⟩, hlt, -⟩
    refine ⟨UInt32.le_iff_toNat_le.2 hle, fun heq => Cause.eq_of_ahead_pos ?_⟩
    have hnumber := hsame heq
    omega
  · obtain ⟨p, -, p', -, p'', -, rfl, rfl, rfl, ⟨⟨-, -, hsame⟩, hlt, -⟩, ⟨-, -, hsame'⟩, hlt', -⟩ :=
      three_of_pairwise (hordered.and hpairs) hsub
    rintro ⟨hfirst, hsecond⟩
    have hnumber := hsame hfirst
    have hnumber' := hsame' hsecond
    have hahead := p.1.cause.ahead_le_one
    omega

/-- In the second line the assignment sign is not the name that is expected there; and then no
statement begins with it. -/
theorem parse_diagnostics_accurate_two_lines :
    let source := "let x 5;\nlet = 1;"
    source.utf8ByteSize < UInt32.size ∧
      (parse source).2 =
        [⟨.unexpectedToken .assign .integer "5", .ofBytes "shell" 6⟩,
          ⟨.unexpectedToken .identifier .assign "=", .ofBytes "shell" 13⟩,
          ⟨.noPrefixRule .assign "=", .ofBytes "shell" 13⟩] ∧
      ∀ d ∈ (parse source).2, ∃ t ∈ tokenize source,
        d.position = t.span.start ∧ d.cause.Describes t := by
  intro source
  have hsize : source.utf8ByteSize < UInt32.size := by decide +kernel
  exact ⟨hsize, by decide +kernel, (parse_diagnostics_accurate source hsize).1⟩

end FrontEnd
