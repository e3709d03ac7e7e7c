import FrontEnd.Proofs.Procedure
import FrontEnd.Proofs.Progress

/-!
# The procedures agree with the functions

Unless the end of input is an operator, every procedure of the parser ends, and it does what the
functions do: it answers with what they answer, and it leaves the parser that they leave. Two
reasons are needed for its end, since neither is enough alone. Every operand opens a level of
nesting, of which there are finitely many; and every operator uses up a token. A rule by which an
expression begins at the end of input may be applied again and again without using up a token, but
only as deep as the levels go.

* `Parser.Grows`, `Parser.Within` — what a procedure leaves alone in the state, at every moment.
* `Script.Attempts` — a script comes to an outcome: it moves on in the stream and changes nothing
  else. There is one such lemma for every kind of script and for every procedure that parses.
* `Script.Completes` — the same for scripts that record diagnostics.
* `Procedure.eval` — what the functions make of a procedure.
* `Procedure.Keeps` — what a procedure leaves alone, by whether it records diagnostics.

Principal results: `Parser.moveTo_moveTo` (two moves are one), `Parser.expression_attempts` (the
recursion, by the levels that are left), `Parser.climbing_attempts` (the operator loop, by the
tokens that are left), `Procedure.ends` and `Procedure.runs_iff` (every procedure).
-/

namespace FrontEnd

open TokenStream

variable {α β : Type}

/-! ## Moving on in steps -/

namespace TokenStream

theorem drawn_succ (s : TokenStream) (k : Nat) :
    s.drawn (k + 1) = s.next.peek :: s.next.drawn k := by
  obtain ⟨pending, stop, passed⟩ := s
  rcases pending with _ | ⟨_, _ | ⟨_, _ | ⟨_, _⟩⟩⟩ <;>
    simp [drawn, next, peek, closing, List.replicate_succ]

/-- What comes into sight over some steps and over some more after them. -/
theorem drawn_add (s : TokenStream) (j k : Nat) :
    s.drawn (j + k) = s.drawn j ++ (s.skip j).drawn k := by
  induction j generalizing s with
  | zero => simp [drawn]
  | succ j ih =>
    rw [Nat.add_right_comm, drawn_succ, drawn_succ, ih, List.cons_append, next_eq_skip, skip_skip,
      Nat.add_comm 1 j]

end TokenStream

namespace Parser

variable {p m n : Parser} {s s' : TokenStream}

@[simp] theorem moveTo_self (p : Parser) : p.moveTo p.tokens = p := by
  simp [moveTo, drawn]

theorem moveTo_skip (p : Parser) (k : Nat) :
    p.moveTo (p.tokens.skip k) =
      { p with
        tokens := p.tokens.skip k
        records := p.records ++ (p.tokens.drawn k).map LogRecord.drawn } := by
  rw [moveTo, skip_passed, Nat.add_sub_cancel_left]

/-- Two moves are one. -/
theorem moveTo_moveTo (h : Reaches p.tokens s) (h' : Reaches s s') :
    (p.moveTo s).moveTo s' = p.moveTo s' := by
  obtain ⟨j, rfl⟩ := h
  obtain ⟨k, rfl⟩ := h'
  have hrecords : p.records ++ (p.tokens.drawn (j + k)).map LogRecord.drawn =
      p.records ++ (p.tokens.drawn j).map LogRecord.drawn ++
        ((p.tokens.skip j).drawn k).map LogRecord.drawn := by
    rw [← Array.toList_inj]
    simp only [Array.toList_appendList, drawn_add, List.map_append, List.append_assoc]
  have hsecond := (p.moveTo (p.tokens.skip j)).moveTo_skip k
  simp only [moveTo_skip p j, skip_skip] at hsecond
  rw [skip_skip, moveTo_skip p (j + k), hrecords, moveTo_skip p j, hsecond]

/-! ## What an attempt leaves alone -/

/-- The state `m` has the rules and the input of `p`, at least the levels of nesting that are open
in `p`, within the limit, and the diagnostics of `p` and perhaps more. -/
structure Grows (p m : Parser) : Prop where
  tables : m.tables = p.tables
  stop : m.tokens.stop = p.tokens.stop
  le_depth : p.depth ≤ m.depth
  depth_le : m.depth ≤ max p.depth maxNesting
  diagnostics : p.diagnostics.toList <+: m.diagnostics.toList

/-- The state `m` in addition has no more diagnostics than `p`. -/
structure Within (p m : Parser) : Prop extends p.Grows m where
  same : m.diagnostics = p.diagnostics

theorem Grows.refl (p : Parser) : p.Grows p :=
  ⟨rfl, rfl, Nat.le_refl _, Nat.le_max_left _ _, List.prefix_rfl⟩

theorem Grows.trans (h : p.Grows m) (h' : m.Grows n) : p.Grows n where
  tables := h'.tables.trans h.tables
  stop := h'.stop.trans h.stop
  le_depth := Nat.le_trans h.le_depth h'.le_depth
  depth_le := Nat.le_trans h'.depth_le (Nat.max_le.2 ⟨h.depth_le, Nat.le_max_right _ _⟩)
  diagnostics := h.diagnostics.trans h'.diagnostics

theorem Within.trans (h : p.Within m) (h' : m.Within n) : p.Within n :=
  ⟨h.toGrows.trans h'.toGrows, h'.same.trans h.same⟩

theorem Within.moveTo (h : Reaches p.tokens s) : p.Within (p.moveTo s) :=
  ⟨⟨rfl, h.stop_eq, Nat.le_refl _, Nat.le_max_left _ _, List.prefix_rfl⟩, rfl⟩

theorem Within.deeper (h : p.depth < maxNesting) : p.Within { p with depth := p.depth + 1 } :=
  ⟨⟨rfl, rfl, Nat.le_succ _, Nat.le_trans h (Nat.le_max_right _ _), List.prefix_rfl⟩, rfl⟩

end Parser

/-! ## Attempts

An attempt moves on in the stream and leaves the rest of the state as it was. -/

/-- The script, begun in the state `p`, comes to the outcome `o`. -/
structure Script.Attempts (x : Script α) (p : Parser) (o : Outcome α) : Prop where
  reaches : Reaches p.tokens o.rest
  runs : ∃ moments, x.Runs p o.result (p.moveTo o.rest) moments ∧ ∀ m ∈ moments, p.Within m

namespace Script.Attempts

variable {p : Parser} {x : Script α} {f : α → Script β} {o : Outcome α}
  {g : α → TokenStream → Outcome β}

theorem pure (a : α) (p : Parser) : Attempts (pure a) p (.found a p.tokens) where
  reaches := .refl _
  runs := ⟨[], by rw [Outcome.rest, p.moveTo_self]; exact .answer _ _, by simp⟩

theorem fail (d : Diagnostic) (p : Parser) :
    Attempts (fail d : Script α) p (.failed d p.tokens) where
  reaches := .refl _
  runs := ⟨[], by rw [Outcome.rest, p.moveTo_self]; exact .answer _ _, by simp⟩

theorem bind_failed {d : Diagnostic} {s : TokenStream} (hx : x.Attempts p (.failed d s)) :
    (x >>= f).Attempts p (.failed d s) :=
  ⟨hx.reaches, hx.runs.imp fun _ hm => ⟨hm.1.bind_error, hm.2⟩⟩

theorem bind (hx : x.Attempts p o)
    (hf : ∀ a s, o = .found a s → (f a).Attempts (p.moveTo s) (g a s)) :
    (x >>= f).Attempts p (o.andThen g) := by
  obtain ⟨hreach, moments, hruns, hwithin⟩ := hx
  cases o with
  | failed d s => exact bind_failed ⟨hreach, moments, hruns, hwithin⟩
  | found a s =>
    obtain ⟨hreach', moments', hruns', hwithin'⟩ := hf a s rfl
    have hmove : (p.moveTo s).moveTo (g a s).rest = p.moveTo (g a s).rest :=
      Parser.moveTo_moveTo hreach hreach'
    rw [hmove] at hruns'
    refine ⟨hreach.trans hreach', moments ++ moments', hruns.bind hruns', ?_⟩
    exact List.forall_mem_append.2
      ⟨hwithin, fun m hm => (Parser.Within.moveTo hreach).trans (hwithin' m hm)⟩

theorem bind_found {a : α} {s : TokenStream} {o : Outcome β} (hx : x.Attempts p (.found a s))
    (hf : (f a).Attempts (p.moveTo s) o) : (x >>= f).Attempts p o :=
  bind (g := fun _ _ => o) hx fun _ _ hs => by
    cases hs
    exact hf

theorem state_bind {f : Parser → Script β} {o : Outcome β} (h : (f p).Attempts p o) :
    (state >>= f).Attempts p o :=
  ⟨h.reaches, h.runs.imp fun _ hm => ⟨.look hm.1, hm.2⟩⟩

/-- The attempt and its outcome branch at the same question. -/
theorem ite {c : Prop} [Decidable c] {x y : Script α} {o o' : Outcome α}
    (hx : c → x.Attempts p o) (hy : ¬ c → y.Attempts p o') :
    (if c then x else y).Attempts p (if c then o else o') := by
  split
  · exact hx ‹_›
  · exact hy ‹_›

/-- An action that moves on in the stream, or stays and fails. -/
theorem perform {action : Action} {o : Outcome Unit} (h : action.perform p = p.attempt o)
    (hreach : Reaches p.tokens o.rest) : (perform action).Attempts p o := by
  refine ⟨hreach, [p.moveTo o.rest], .perform h, ?_⟩
  intro m hm
  rw [List.mem_singleton.1 hm]
  exact .moveTo hreach

theorem expectPeek (kind : TokenKind) (p : Parser) :
    (Script.perform (.expectPeek kind)).Attempts p (p.tokens.expectPeek kind) :=
  perform rfl (expectPeek_reaches _ _)

theorem advance_bind {f : Unit → Script β} {o : Outcome β} (h : (f ()).Attempts p.advance o) :
    (Script.perform .advance >>= f).Attempts p o :=
  bind_found (a := ()) (perform rfl (.next _)) h

theorem skipPeek_bind {kind : TokenKind} {f : Unit → Script β} {o : Outcome β}
    (h : (f ()).Attempts (p.moveTo (p.tokens.skipPeek kind)) o) :
    (skipPeek kind >>= f).Attempts p o := by
  have hskip : (skipPeek kind).Attempts p (.found () (p.tokens.skipPeek kind)) := by
    apply state_bind
    unfold TokenStream.skipPeek
    split
    · exact perform rfl (.next _)
    · exact pure () p
  exact bind_found hskip h

theorem run {procedure : Procedure} {o : Outcome procedure.Answer}
    (h : procedure.body.Attempts p o) : (run procedure).Attempts p o := by
  obtain ⟨hreach, moments, hruns, hwithin⟩ := h
  exact ⟨hreach, moments ++ [], .call hruns (.answer _ _), by simpa using hwithin⟩

end Script.Attempts

/-! ## Every procedure of an expression ends -/

open Procedure Script

namespace Parser

variable {p : Parser} {operand : OperandParser}

/-- In the level of `p`, and by its rules, operands come to what `operand` says. -/
def Operands (p : Parser) (operand : OperandParser) : Prop :=
  ∀ q : Parser, q.tables = p.tables → q.depth = p.depth →
    ∀ cutoff, (expression cutoff).body.Attempts q (operand cutoff q.tokens)

theorem beginning_attempts (hop : p.Operands operand) (rule : PrefixRule) :
    (beginning rule).body.Attempts p (rule.run operand p.tokens) := by
  cases rule with
  | identifier => exact .state_bind (.pure _ p)
  | integer =>
    apply Attempts.state_bind
    simp only [PrefixRule.run]
    cases literalValue? p.tokens.current.text with
    | some value => exact .pure _ p
    | none => exact .fail _ p
  | boolean => exact .state_bind (.pure _ p)
  | unary =>
    apply Attempts.state_bind
    apply Attempts.advance_bind
    apply Attempts.bind (.run (hop p.advance rfl rfl _))
    intro right s _
    exact .pure _ (p.advance.moveTo s)
  | grouping =>
    apply Attempts.advance_bind
    apply Attempts.bind (.run (hop p.advance rfl rfl _))
    intro inner s _
    apply Attempts.bind (.expectPeek _ (p.advance.moveTo s))
    intro _ s' _
    exact .pure _ ((p.advance.moveTo s).moveTo s')

theorem continuing_attempts (hop : p.Operands operand) (rule : InfixRule) (left : Expr)
    (power : BindingPower) :
    (continuing rule left power).body.Attempts p (rule.run operand left power p.tokens) := by
  apply Attempts.state_bind
  apply Attempts.advance_bind
  apply Attempts.bind (.run (hop p.advance rfl rfl _))
  intro right s _
  exact .pure _ (p.advance.moveTo s)

/-- An operator that is found has its power. -/
theorem currentPower_advance {cutoff : BindingPower} {op : Operator}
    (h : p.tables.operatorAbove? cutoff p.tokens.peek.kind = some op) :
    p.advance.currentPower = op.power := by
  have hcurrent : p.advance.currentPower = p.tables.power p.tokens.peek.kind :=
    congrArg (fun token : Token => p.tables.power token.kind) p.tokens.current_next
  rw [hcurrent]
  unfold Tables.operatorAbove? at h
  unfold Tables.power
  cases hop : p.tables.operator p.tokens.peek.kind with
  | none => simp [hop] at h
  | some op' =>
    simp only [hop, Option.ite_none_right_eq_some, Option.some.injEq] at h
    rw [h.2]

/-- The operator loop asks for the operator that comes next and is above the cut-off. -/
theorem climbing_body (cutoff : BindingPower) (left : Expr) :
    (climbing cutoff left).body = (do
      let p ← state
      match p.tables.operatorAbove? cutoff p.tokens.peek.kind with
      | none => return left
      | some op => extend cutoff left op) := by
  refine congrArg Script.look (funext fun p => ?_)
  show (if p.tokens.peek.kind ≠ .semicolon ∧ cutoff < p.peekPower then
      match p.tables.operator p.tokens.peek.kind with
      | none => return left
      | some op => extend cutoff left op
    else return left) =
      match p.tables.operatorAbove? cutoff p.tokens.peek.kind with
      | none => return left
      | some op => extend cutoff left op
  unfold peekPower Tables.power Tables.operatorAbove?
  cases p.tables.operator p.tokens.peek.kind with
  | none => exact ite_self _
  | some op =>
    dsimp only
    split <;> rfl

/-- The operator loop ends because every operator uses up a token. -/
theorem climbing_attempts (heof : p.tables.operator .eof = none) (hforward : operand.Forward)
    (hop : p.Operands operand) (cutoff : BindingPower) (left : Expr) :
    (climbing cutoff left).body.Attempts p
      (climb p.tables operand cutoff p.tokens.pending left p.tokens) := by
  induction hn : p.tokens.pending.length using Nat.strongRecOn generalizing p left with
  | ind n ih =>
    rw [climb_eq heof hforward, climbing_body]
    apply Attempts.state_bind
    cases hsome : p.tables.operatorAbove? cutoff p.tokens.peek.kind with
    | none => exact .pure left p
    | some op =>
      have htwo := two_le_of_operatorAbove? heof hsome
      apply Attempts.advance_bind
      apply Attempts.state_bind
      rw [currentPower_advance hsome]
      apply Attempts.bind (.run (continuing_attempts (p := p.advance) hop op.rule left op.power))
      intro left' s' hrun
      have hlt := InfixRule.run_length_lt hforward hrun htwo
      have hless : s'.pending.length < n := by omega
      exact .run (ih _ hless (p := p.advance.moveTo s') heof hop left' rfl)

/-- An expression, once a level is open for it. -/
theorem nested_attempts (heof : p.tables.operator .eof = none) {levels : Nat}
    (hop : p.Operands (parseExpr p.tables levels)) (cutoff : BindingPower) :
    (nested cutoff).body.Attempts p (parseExpr p.tables (levels + 1) cutoff p.tokens) := by
  rw [parseExpr]
  apply Attempts.state_bind
  dsimp only
  cases p.tables.prefixRule p.tokens.current.kind with
  | none => exact .fail _ p
  | some rule =>
    apply Attempts.bind (.run (beginning_attempts hop rule))
    intro left s _
    exact .run (climbing_attempts (p := p.moveTo s) heof (parseExpr_reaches _ _) hop cutoff left)

/-- The level that is opened for an expression is closed however the expression ends. -/
theorem expression_attempts_of_nested {cutoff : BindingPower} {o : Outcome Expr}
    (hdepth : p.depth < maxNesting)
    (h : (nested cutoff).body.Attempts { p with depth := p.depth + 1 } o) :
    (expression cutoff).body.Attempts p o := by
  obtain ⟨hreach, moments, hruns, hwithin⟩ := h
  have hdeeper := Within.deeper hdepth
  have henter : Action.enterNesting.perform p = (.ok (), { p with depth := p.depth + 1 }) := by
    simp only [Action.perform, enterNesting, if_pos hdepth]
  have hexit : Action.exitNesting.perform ({ p with depth := p.depth + 1 }.moveTo o.rest) =
      (.ok (), p.moveTo o.rest) := rfl
  refine ⟨hreach, [{ p with depth := p.depth + 1 }] ++ (moments ++ [p.moveTo o.rest]), ?_, ?_⟩
  · exact (Runs.perform henter).bind (.call hruns ((Runs.perform hexit).bind (.answer _ _)))
  · intro m hm
    simp only [List.mem_append, List.mem_singleton] at hm
    rcases hm with rfl | hm | rfl
    · exact hdeeper
    · exact hdeeper.trans (hwithin m hm)
    · exact .moveTo hreach

/-- The recursion ends because every operand opens a level of nesting. -/
theorem expression_attempts (heof : p.tables.operator .eof = none) (cutoff : BindingPower) :
    (expression cutoff).body.Attempts p (p.operand cutoff p.tokens) := by
  unfold operand
  induction hlevels : p.levels generalizing p cutoff with
  | zero =>
    have hdepth : ¬ p.depth < maxNesting := by
      unfold levels at hlevels
      omega
    have henter : Action.enterNesting.perform p = p.attempt
        (.failed ⟨.nestingTooDeep maxNesting, p.tokens.current.span.start⟩ p.tokens) := by
      simp only [Action.perform, enterNesting, if_neg hdepth, attempt, Outcome.result,
        Outcome.rest, moveTo_self]
    exact .bind_failed (.perform henter (.refl _))
  | succ levels ih =>
    have hdepth : p.depth < maxNesting := by
      unfold Parser.levels at hlevels
      omega
    refine expression_attempts_of_nested hdepth (nested_attempts ?_ ?_ cutoff)
    · exact heof
    · intro q htables hqdepth cutoff'
      have hq : q.levels = levels := by
        unfold Parser.levels at hlevels ⊢
        rw [hqdepth]
        simp only
        omega
      have h := ih (p := q) (by rw [htables]; exact heof) cutoff' hq
      rwa [htables] at h

theorem operands_operand (heof : p.tables.operator .eof = none) : p.Operands p.operand := by
  intro q htables hdepth cutoff
  have h := expression_attempts (p := q) (by rw [htables]; exact heof) cutoff
  rwa [Parser.operand, htables, levels, hdepth] at h

/-! ## Every statement ends -/

theorem reading_attempts (hop : p.Operands operand) (rule : StatementRule) :
    (reading rule).body.Attempts p (rule.run operand p.tokens) := by
  cases rule with
  | binding =>
    apply Attempts.state_bind
    apply Attempts.bind (.expectPeek _ p)
    intro _ s₁ _
    apply Attempts.state_bind
    apply Attempts.bind (.expectPeek _ (p.moveTo s₁))
    intro _ s₂ _
    apply Attempts.advance_bind
    apply Attempts.bind (.run (hop (((p.moveTo s₁).moveTo s₂).advance) rfl rfl _))
    intro value s₃ _
    apply Attempts.skipPeek_bind
    apply Attempts.state_bind
    exact .pure _ _
  | result =>
    apply Attempts.state_bind
    apply Attempts.advance_bind
    apply Attempts.state_bind
    refine Attempts.ite (p := p.advance) (fun _ => .pure _ p.advance) fun _ => ?_
    apply Attempts.bind (.run (hop p.advance rfl rfl _))
    intro value s _
    apply Attempts.skipPeek_bind
    apply Attempts.state_bind
    exact .pure _ _
  | expression =>
    apply Attempts.state_bind
    apply Attempts.bind (.run (hop p rfl rfl _))
    intro value s _
    apply Attempts.skipPeek_bind
    exact .pure _ _

theorem statement_attempts (heof : p.tables.operator .eof = none) :
    statement.body.Attempts p (parseStmt p.tables p.levels p.tokens) :=
  .state_bind (.run (reading_attempts (operands_operand heof) _))

theorem skipping_attempts (p : Parser) :
    skipping.body.Attempts p (.found () p.tokens.skipToStatementEnd) := by
  induction hn : p.tokens.pending.length using Nat.strongRecOn generalizing p with
  | ind n ih =>
    apply Attempts.state_bind
    rw [skipToStatementEnd_eq]
    split
    · exact .pure () p
    · rename_i hpeek
      have htwo := two_le_of_peek (not_or.1 hpeek).2
      have hless : p.advance.tokens.pending.length < n := by
        show p.tokens.next.pending.length < n
        rw [next_eq_skip, skip_pending, List.length_drop]
        omega
      exact .advance_bind (.run (ih _ hless p.advance rfl))

/-- What is given up after a failure. -/
theorem afterFailure_attempts (cause : Cause) (p : Parser) :
    (do
      leave cause
      skipPeek .semicolon
      Script.perform .advance
      return none : Script (Option Stmt)).Attempts p
      (.found none (p.tokens.afterFailure cause)) := by
  have hrest (q : Parser) : (do
      skipPeek .semicolon
      Script.perform .advance
      return none : Script (Option Stmt)).Attempts q
      (.found none (q.tokens.skipPeek .semicolon).next) :=
    .skipPeek_bind (.advance_bind (.pure none _))
  cases cause with
  | nestingTooDeep limit => exact .bind_found (.run (skipping_attempts p)) (hrest (p.moveTo _))
  | unexpectedToken => exact hrest p
  | noPrefixRule => exact hrest p
  | badInteger => exact hrest p

end Parser

/-! ## Every program ends -/

namespace Script

/-- The script, begun in the state `p`, ends with the result and in the state `q`, and nothing that
was recorded in `p` is lost on the way. -/
def Completes (x : Script α) (p : Parser) (result : Except Diagnostic α) (q : Parser) : Prop :=
  ∃ moments, x.Runs p result q moments ∧ ∀ m ∈ moments, p.Grows m

variable {p q r : Parser} {x : Script α} {f : α → Script β}

theorem Attempts.completes {o : Outcome α} (h : x.Attempts p o) :
    x.Completes p o.result (p.moveTo o.rest) :=
  h.runs.imp fun _ hm => ⟨hm.1, fun m hmem => (hm.2 m hmem).toGrows⟩

namespace Completes

theorem grows {result : Except Diagnostic α} (h : x.Completes p result q) : p.Grows q := by
  obtain ⟨moments, hruns, hgrows⟩ := h
  rcases hruns.end_mem with rfl | hmem
  · exact .refl _
  · exact hgrows q hmem

theorem pure (a : α) (p : Parser) : Completes (pure a) p (.ok a) p := ⟨[], .answer _ _, by simp⟩

theorem perform {action : Action} {result : Except Diagnostic Unit}
    (h : action.perform p = (result, q)) (hgrows : p.Grows q) :
    (perform action).Completes p result q :=
  ⟨[q], .perform h, fun m hm => by rwa [List.mem_singleton.1 hm]⟩

theorem state_bind {f : Parser → Script β} {result : Except Diagnostic β}
    (h : (f p).Completes p result q) : (state >>= f).Completes p result q :=
  h.imp fun _ hm => ⟨.look hm.1, hm.2⟩

theorem bind {a : α} {result : Except Diagnostic β} (hx : x.Completes p (.ok a) q)
    (hf : (f a).Completes q result r) : (x >>= f).Completes p result r := by
  have hpq := hx.grows
  obtain ⟨moments, hruns, hgrows⟩ := hx
  obtain ⟨moments', hruns', hgrows'⟩ := hf
  exact ⟨moments ++ moments', hruns.bind hruns',
    List.forall_mem_append.2 ⟨hgrows, fun m hm => hpq.trans (hgrows' m hm)⟩⟩

theorem call {procedure : Procedure} {result : Except Diagnostic procedure.Answer}
    {go : Except Diagnostic procedure.Answer → Script α} {result' : Except Diagnostic α}
    (hx : procedure.body.Completes p result q) (hgo : (go result).Completes q result' r) :
    (call procedure go).Completes p result' r := by
  have hpq := hx.grows
  obtain ⟨moments, hruns, hgrows⟩ := hx
  obtain ⟨moments', hruns', hgrows'⟩ := hgo
  exact ⟨moments ++ moments', .call hruns hruns',
    List.forall_mem_append.2 ⟨hgrows, fun m hm => hpq.trans (hgrows' m hm)⟩⟩

theorem run {procedure : Procedure} {result : Except Diagnostic procedure.Answer}
    (h : procedure.body.Completes p result q) : (run procedure).Completes p result q :=
  h.call ⟨[], .answer _ _, by simp⟩

end Completes

end Script

namespace Parser

variable {p : Parser}

theorem Grows.advance (p : Parser) : p.Grows p.advance := (Within.moveTo (.next _)).toGrows

theorem Grows.note (p : Parser) (statement : Stmt) :
    p.Grows { p with records := p.records.push (.parsed statement) } :=
  ⟨rfl, rfl, Nat.le_refl _, Nat.le_max_left _ _, List.prefix_rfl⟩

theorem Grows.report (p : Parser) (d : Diagnostic) : p.Grows (p.report d) :=
  ⟨rfl, rfl, Nat.le_refl _, Nat.le_max_left _ _, by simp [Parser.report]⟩

/-- A round catches the error of its statement. -/
theorem round_completes (heof : p.tables.operator .eof = none) :
    Procedure.round.body.Completes p (.ok p.step.1) p.step.2 := by
  have hstatement := (statement_attempts heof).completes
  unfold step parseStatement attempt
  cases ho : parseStmt p.tables p.levels p.tokens with
  | found found rest =>
    rw [ho] at hstatement
    refine hstatement.call ?_
    exact .bind (.perform rfl (.note _ _)) (.bind (.perform rfl (.advance _)) (.pure _ _))
  | failed d rest =>
    rw [ho] at hstatement
    refine hstatement.call ?_
    exact .bind (.perform rfl (.report _ _)) (afterFailure_attempts d.cause _).completes

theorem statements_completes (heof : p.tables.operator .eof = none) (budget : List Token)
    (found : Array Stmt) (hb : p.tokens.pending.length ≤ budget.length) :
    (statements found).body.Completes p (.ok (parseStatements budget p found).1)
      (parseStatements budget p found).2 := by
  induction budget generalizing p found with
  | nil =>
    have hnil : p.tokens.pending = [] := List.length_eq_zero_iff.1 (Nat.le_zero.1 hb)
    apply Completes.state_bind
    rw [if_pos (atEnd_of_nil hnil)]
    exact .pure _ p
  | cons token budget ih =>
    apply Completes.state_bind
    unfold parseStatements
    cases hend : p.tokens.atEnd with
    | true => exact .pure _ p
    | false =>
      have hround := (round_completes heof).run
      have hlt := round_length_lt p.tables p.levels (pending_ne_nil_of_not_atEnd hend)
      obtain ⟨htokens, htables, -⟩ := p.step_spec
      rw [← htokens] at hlt
      rw [← htables] at heof
      simp only [List.length_cons] at hb
      generalize p.step = next at *
      obtain ⟨statement?, q⟩ := next
      have hq : q.tokens.pending.length ≤ budget.length := by
        simp only at hlt
        omega
      cases statement? with
      | none => exact hround.bind (ih heof found hq).run
      | some parsed => exact hround.bind (ih heof (found.push parsed) hq).run

theorem program_completes (heof : p.tables.operator .eof = none) :
    program.body.Completes p (.ok p.parseProgram.1) p.parseProgram.2 := by
  apply Completes.state_bind
  have hstatements := statements_completes heof p.tokens.pending #[] (Nat.le_refl _)
  exact hstatements.run.bind (Completes.state_bind (.pure _ _))

end Parser

namespace Procedure

/-- What the functions of the parser make of a procedure. -/
def eval (procedure : Procedure) (p : Parser) : Except Diagnostic procedure.Answer × Parser :=
  match procedure with
  | expression cutoff => p.parseExpression cutoff
  | nested cutoff => p.attempt (parseExpr p.tables (p.levels + 1) cutoff p.tokens)
  | beginning rule => p.applyPrefix rule
  | continuing rule left power => p.applyInfix rule left power
  | climbing cutoff left =>
    p.attempt (climb p.tables p.operand cutoff p.tokens.pending left p.tokens)
  | statement => p.parseStatement
  | reading rule => p.applyStatement rule
  | skipping => (.ok (), p.moveTo p.tokens.skipToStatementEnd)
  | round => (.ok p.step.1, p.step.2)
  | statements found =>
    (.ok (p.parseStatements p.tokens.pending found).1,
      (p.parseStatements p.tokens.pending found).2)
  | program => (.ok p.parseProgram.1, p.parseProgram.2)

/-- Whether the procedure records the diagnostics of what it calls. -/
def records : Procedure → Bool
  | round | statements _ | program => true
  | _ => false

/-- What the procedure, called in the state `p`, leaves alone in the state `m`. -/
structure Keeps (procedure : Procedure) (p m : Parser) : Prop where
  grows : p.Grows m
  same : procedure.records = false → m.diagnostics = p.diagnostics

theorem Keeps.refl (procedure : Procedure) (p : Parser) : procedure.Keeps p p :=
  ⟨.refl p, fun _ => rfl⟩

theorem ends_of_attempts {procedure : Procedure} {p : Parser} {o : Outcome procedure.Answer}
    (h : procedure.body.Attempts p o) (heval : procedure.eval p = p.attempt o) :
    ∃ moments, procedure.body.Runs p (procedure.eval p).1 (procedure.eval p).2 moments ∧
      ∀ m ∈ moments, procedure.Keeps p m := by
  obtain ⟨moments, hruns, hwithin⟩ := h.runs
  rw [heval]
  exact ⟨moments, hruns, fun m hm => ⟨(hwithin m hm).toGrows, fun _ => (hwithin m hm).same⟩⟩

theorem ends_of_completes {procedure : Procedure} {p : Parser}
    (h : procedure.body.Completes p (procedure.eval p).1 (procedure.eval p).2)
    (hrecords : procedure.records = true) :
    ∃ moments, procedure.body.Runs p (procedure.eval p).1 (procedure.eval p).2 moments ∧
      ∀ m ∈ moments, procedure.Keeps p m := by
  obtain ⟨moments, hruns, hgrows⟩ := h
  exact ⟨moments, hruns, fun m hm => ⟨hgrows m hm, fun hfalse => by simp [hrecords] at hfalse⟩⟩

/-- Every procedure ends, in what the functions of the parser make of it. -/
theorem ends {p : Parser} (heof : p.tables.operator .eof = none) (procedure : Procedure) :
    ∃ moments, procedure.body.Runs p (procedure.eval p).1 (procedure.eval p).2 moments ∧
      ∀ m ∈ moments, procedure.Keeps p m := by
  have hop := Parser.operands_operand heof
  cases procedure with
  | expression cutoff => exact ends_of_attempts (Parser.expression_attempts heof cutoff) rfl
  | nested cutoff => exact ends_of_attempts (Parser.nested_attempts heof hop cutoff) rfl
  | beginning rule => exact ends_of_attempts (Parser.beginning_attempts hop rule) rfl
  | continuing rule left power =>
    exact ends_of_attempts (Parser.continuing_attempts hop rule left power) rfl
  | climbing cutoff left =>
    have hforward := parseExpr_reaches p.tables p.levels
    exact ends_of_attempts (Parser.climbing_attempts heof hforward hop cutoff left) rfl
  | statement => exact ends_of_attempts (Parser.statement_attempts heof) rfl
  | reading rule => exact ends_of_attempts (Parser.reading_attempts hop rule) rfl
  | skipping => exact ends_of_attempts (Parser.skipping_attempts p) rfl
  | round => exact ends_of_completes (Parser.round_completes heof) rfl
  | statements found =>
    exact ends_of_completes (Parser.statements_completes heof _ found (Nat.le_refl _)) rfl
  | program => exact ends_of_completes (Parser.program_completes heof) rfl

/-- The runs of a procedure are the one that the functions of the parser compute. -/
theorem runs_iff {p : Parser} (heof : p.tables.operator .eof = none) (procedure : Procedure)
    (result : Except Diagnostic procedure.Answer) (q : Parser) :
    (∃ moments, procedure.body.Runs p result q moments) ↔ (result, q) = procedure.eval p := by
  obtain ⟨moments, hends, -⟩ := ends heof procedure
  constructor
  · rintro ⟨moments', hruns⟩
    obtain ⟨hresult, hq, -⟩ := hruns.unique hends
    rw [hresult, hq]
  · intro heq
    rw [← heq] at hends
    exact ⟨moments, hends⟩

end Procedure

end FrontEnd
