import FrontEnd.Parser

/-!
# Progress in the token stream

Parsing never goes back. Whatever it finds or fails at, it leaves the stream it was given some
number of tokens on, and an operator costs two of them. The rounds that the operator loop and the
program loop are allowed are therefore always enough, and both loops unroll as if nothing bounded
them.

* `TokenStream.skip`, `TokenStream.Reaches` — the stream some tokens on.
* `TokenStream.round`, `TokenStream.rounds` — what each attempt at a statement comes to, up to the
  end of input.

Principal results: `parseExpr_reaches` and `parseStmt_reaches` (a parse moves forward),
`climb_eq` (the operator loop, one operator at a time) and `parseProgram_eq` (a program is the
statements among the rounds, its diagnostics are the rest of them).
-/

namespace FrontEnd

variable {α β : Type}

namespace TokenStream

def skip (s : TokenStream) (k : Nat) : TokenStream :=
  { s with pending := s.pending.drop k, passed := s.passed + k }

@[simp] theorem skip_pending (s : TokenStream) (k : Nat) :
    (s.skip k).pending = s.pending.drop k := rfl

@[simp] theorem skip_stop (s : TokenStream) (k : Nat) : (s.skip k).stop = s.stop := rfl

@[simp] theorem skip_passed (s : TokenStream) (k : Nat) :
    (s.skip k).passed = s.passed + k := rfl

@[simp] theorem skip_zero (s : TokenStream) : s.skip 0 = s := rfl

@[simp] theorem skip_skip (s : TokenStream) (j k : Nat) : (s.skip j).skip k = s.skip (j + k) := by
  simp only [skip, List.drop_drop, Nat.add_assoc]

theorem skip_length_append (s : TokenStream) (u v : List Token) :
    s.skip (u ++ v).length = (s.skip u.length).skip v.length := by
  rw [List.length_append, skip_skip]

theorem skip_length_cons (s : TokenStream) (token : Token) (u : List Token) :
    s.skip (token :: u).length = (s.skip 1).skip u.length :=
  s.skip_length_append [token] u

theorem next_eq_skip (s : TokenStream) : s.next = s.skip 1 := by
  simp only [next, skip, List.drop_one]

@[simp] theorem next_skip (s : TokenStream) (k : Nat) : (s.skip k).next = s.skip (k + 1) := by
  rw [next_eq_skip, skip_skip]

theorem peek_eq_skip (s : TokenStream) : s.peek = (s.skip 1).current := by
  rw [← current_next, next_eq_skip]

theorem current_of_cons {s : TokenStream} {token : Token} {r : List Token}
    (h : s.pending = token :: r) : s.current = token := by
  simp only [current, h]

theorem current_of_nil {s : TokenStream} (h : s.pending = []) : s.current = s.closing := by
  simp only [current, h]

/-- Near its end the stream shows the end of input. -/
theorem peek_of_short {s : TokenStream} (h : s.pending.length < 2) : s.peek = s.closing := by
  obtain ⟨pending, stop, passed⟩ := s
  rcases pending with _ | ⟨_, _ | ⟨_, _⟩⟩
  · rfl
  · rfl
  · simp only [List.length_cons] at h
    omega

theorem peek_kind_of_short {s : TokenStream} (h : s.pending.length < 2) : s.peek.kind = .eof := by
  rw [peek_of_short h]
  rfl

/-- A token that is not the end of input is one of the pending ones. -/
theorem two_le_of_peek {s : TokenStream} (h : s.peek.kind ≠ .eof) : 2 ≤ s.pending.length := by
  rcases Nat.lt_or_ge s.pending.length 2 with hlt | hge
  · exact absurd (peek_kind_of_short hlt) h
  · exact hge

theorem next_pending_of_nil {s : TokenStream} (h : s.pending = []) : s.next.pending = [] := by
  rw [next, h, List.tail_nil]

theorem atEnd_of_nil {s : TokenStream} (h : s.pending = []) : s.atEnd = true := by
  rw [atEnd, current_of_nil h]
  rfl

theorem pending_ne_nil_of_not_atEnd {s : TokenStream} (h : s.atEnd = false) : s.pending ≠ [] := by
  intro hnil
  rw [atEnd_of_nil hnil] at h
  cases h

/-- A stream of which no token is the end of input ends where there are no tokens left. -/
theorem pending_eq_nil_of_atEnd {s : TokenStream} (heof : ∀ t ∈ s.pending, t.kind ≠ .eof)
    (h : s.atEnd = true) : s.pending = [] := by
  cases hp : s.pending with
  | nil => rfl
  | cons token r =>
    have hkind := heof token (by rw [hp]; exact List.mem_cons_self)
    rw [atEnd, current_of_cons hp] at h
    exact absurd (of_decide_eq_true h) hkind

/-! ### Tokens ahead -/

def Starts (s : TokenStream) (u : List Token) : Prop := u <+: s.pending

theorem starts_append {s : TokenStream} {u v : List Token} :
    s.Starts (u ++ v) ↔ s.Starts u ∧ (s.skip u.length).Starts v := by
  constructor
  · rintro ⟨r, hr⟩
    rw [List.append_assoc] at hr
    refine ⟨⟨v ++ r, hr⟩, ⟨r, ?_⟩⟩
    rw [skip_pending, ← hr, List.drop_left]
  · rintro ⟨⟨r, hr⟩, ⟨r', hr'⟩⟩
    rw [skip_pending, ← hr, List.drop_left] at hr'
    exact ⟨r', by rw [← hr, ← hr', List.append_assoc]⟩

theorem starts_cons {s : TokenStream} {token : Token} {u : List Token} :
    s.Starts (token :: u) ↔ s.Starts [token] ∧ (s.skip 1).Starts u :=
  starts_append (u := [token])

theorem starts_three {s : TokenStream} {a b c : Token} {u : List Token} :
    s.Starts (a :: b :: c :: u) ↔
      s.Starts [a] ∧ (s.skip 1).Starts [b] ∧ (s.skip 2).Starts [c] ∧ (s.skip 3).Starts u := by
  rw [starts_cons, @starts_cons _ b, @starts_cons _ c, skip_skip, skip_skip]

theorem Starts.current_eq {s : TokenStream} {token : Token} {u : List Token}
    (h : s.Starts (token :: u)) : s.current = token := by
  obtain ⟨r, hr⟩ := h
  exact current_of_cons hr.symm

/-- A current token that is not the end of input stands at the head of the stream. -/
theorem starts_current {s : TokenStream} (h : s.current.kind ≠ .eof) : s.Starts [s.current] := by
  cases hp : s.pending with
  | nil =>
    rw [current_of_nil hp] at h
    exact absurd rfl h
  | cons token r => exact ⟨r, by rw [current_of_cons hp, hp]; rfl⟩

theorem pending_eq_cons {s : TokenStream} (h : s.current.kind ≠ .eof) :
    s.pending = s.current :: s.next.pending := by
  obtain ⟨r, hr⟩ := starts_current h
  rw [next, ← hr]
  rfl

/-- Skipping, one token at a time. -/
theorem skipToStatementEnd_eq (s : TokenStream) :
    s.skipToStatementEnd =
      if s.peek.kind = .semicolon ∨ s.peek.kind = .eof then s else s.next.skipToStatementEnd := by
  cases hp : s.pending with
  | nil =>
    have hpeek : s.peek.kind = .eof := peek_kind_of_short (by simp [hp])
    rw [skipToStatementEnd, hp, skipToStatementEnd.go, if_pos (.inr hpeek)]
  | cons token r =>
    have hnext : s.next.pending = r := by rw [next, hp, List.tail_cons]
    rw [skipToStatementEnd, hp, skipToStatementEnd.go, skipToStatementEnd, hnext]

/-! ### Later in the stream -/

def Reaches (s s' : TokenStream) : Prop := ∃ k, s' = s.skip k

namespace Reaches

variable {s s' s'' : TokenStream}

theorem refl (s : TokenStream) : Reaches s s := ⟨0, rfl⟩

theorem trans (h : Reaches s s') (h' : Reaches s' s'') : Reaches s s'' := by
  obtain ⟨j, rfl⟩ := h
  obtain ⟨k, rfl⟩ := h'
  exact ⟨j + k, skip_skip s j k⟩

theorem next (s : TokenStream) : Reaches s s.next := ⟨1, next_eq_skip s⟩

theorem step (h : Reaches s s') : Reaches s.next s'.next := by
  obtain ⟨k, rfl⟩ := h
  exact ⟨k, by rw [next_skip, next_eq_skip, skip_skip, Nat.add_comm]⟩

theorem skipPeek (s : TokenStream) (kind : TokenKind) : Reaches s (s.skipPeek kind) := by
  unfold TokenStream.skipPeek
  split
  · exact next s
  · exact refl s

theorem skipToStatementEnd (s : TokenStream) : Reaches s s.skipToStatementEnd := by
  unfold TokenStream.skipToStatementEnd
  generalize s.pending = budget
  induction budget generalizing s with
  | nil => exact refl s
  | cons _ budget ih =>
    unfold TokenStream.skipToStatementEnd.go
    split
    · exact refl s
    · exact (next s).trans (ih s.next)

theorem length_le (h : Reaches s s') : s'.pending.length ≤ s.pending.length := by
  obtain ⟨k, rfl⟩ := h
  rw [skip_pending, List.length_drop]
  omega

theorem mem_pending (h : Reaches s s') {token : Token} (hm : token ∈ s'.pending) :
    token ∈ s.pending := by
  obtain ⟨k, rfl⟩ := h
  exact List.mem_of_mem_drop hm

theorem stop_eq (h : Reaches s s') : s'.stop = s.stop := by
  obtain ⟨k, rfl⟩ := h
  rfl

end Reaches

end TokenStream

open TokenStream

/-! ## Every parse moves forward -/

/-- An operand parser that never goes back. -/
def OperandParser.Forward (operand : OperandParser) : Prop :=
  ∀ cutoff s, Reaches s (operand cutoff s).rest

theorem Outcome.andThen_reaches {s : TokenStream} {o : Outcome α}
    {f : α → TokenStream → Outcome β} (ho : Reaches s o.rest)
    (hf : ∀ a t, o = .found a t → Reaches t (f a t).rest) : Reaches s (o.andThen f).rest := by
  cases o with
  | found a t => exact ho.trans (hf a t rfl)
  | failed d t => exact ho

theorem expectPeek_reaches (s : TokenStream) (kind : TokenKind) :
    Reaches s (s.expectPeek kind).rest := by
  unfold TokenStream.expectPeek
  split
  · exact .next s
  · exact .refl s

theorem PrefixRule.run_reaches (rule : PrefixRule) {operand : OperandParser}
    (hop : operand.Forward) (s : TokenStream) : Reaches s (rule.run operand s).rest := by
  cases rule with
  | identifier => exact .refl s
  | integer =>
    simp only [PrefixRule.run]
    split <;> exact .refl s
  | boolean => exact .refl s
  | unary =>
    refine (Reaches.next s).trans (Outcome.andThen_reaches (hop _ _) ?_)
    intro right t _
    exact .refl t
  | grouping =>
    refine (Reaches.next s).trans (Outcome.andThen_reaches (hop _ _) ?_)
    intro inner t _
    apply Outcome.andThen_reaches (expectPeek_reaches t _)
    intro _ t' _
    exact .refl t'

theorem InfixRule.run_reaches (rule : InfixRule) {operand : OperandParser}
    (hop : operand.Forward) (left : Expr) (power : BindingPower) (s : TokenStream) :
    Reaches s.next (rule.run operand left power s).rest := by
  apply Outcome.andThen_reaches (hop _ _)
  intro right t _
  exact .refl t

theorem climb_reaches (t : Tables) {operand : OperandParser} (hop : operand.Forward)
    (cutoff : BindingPower) (budget : List Token) (left : Expr) (s : TokenStream) :
    Reaches s (climb t operand cutoff budget left s).rest := by
  induction budget generalizing left s with
  | nil =>
    unfold climb
    split
    · exact .refl s
    · rename_i op _
      refine (Reaches.next s).trans ((Reaches.next _).trans ?_)
      apply Outcome.andThen_reaches (op.rule.run_reaches hop _ _ _)
      intro _ t' _
      exact .refl t'
  | cons _ budget ih =>
    unfold climb
    split
    · exact .refl s
    · rename_i op _
      refine (Reaches.next s).trans ((Reaches.next _).trans ?_)
      apply Outcome.andThen_reaches (op.rule.run_reaches hop _ _ _)
      intro left' t' _
      exact ih left' t'

theorem parseExpr_reaches (t : Tables) (levels : Nat) :
    OperandParser.Forward (parseExpr t levels) := by
  induction levels with
  | zero =>
    intro cutoff s
    exact .refl s
  | succ levels ih =>
    intro cutoff s
    unfold parseExpr
    split
    · exact .refl s
    · rename_i rule _
      apply Outcome.andThen_reaches (rule.run_reaches ih s)
      intro left s' _
      exact climb_reaches t ih cutoff _ left s'

theorem StatementRule.run_reaches (rule : StatementRule) {operand : OperandParser}
    (hop : operand.Forward) (s : TokenStream) : Reaches s (rule.run operand s).rest := by
  cases rule with
  | binding =>
    apply Outcome.andThen_reaches (expectPeek_reaches s _)
    intro _ s₁ _
    apply Outcome.andThen_reaches (expectPeek_reaches s₁ _)
    intro _ s₂ _
    refine (Reaches.next s₂).trans (Outcome.andThen_reaches (hop _ _) ?_)
    intro _ s₃ _
    exact .skipPeek s₃ _
  | result =>
    simp only [StatementRule.run]
    apply (Reaches.next s).trans
    split
    · exact .refl _
    · apply Outcome.andThen_reaches (hop _ _)
      intro _ s₁ _
      exact .skipPeek s₁ _
  | expression =>
    apply Outcome.andThen_reaches (hop _ _)
    intro _ s₁ _
    exact .skipPeek s₁ _

theorem parseStmt_reaches (t : Tables) (levels : Nat) (s : TokenStream) :
    Reaches s (parseStmt t levels s).rest :=
  (t.statementRule s.current.kind).run_reaches (parseExpr_reaches t levels) s

/-! ## The operator loop

If the end of input is no operator, every operator that is found leaves a token behind it, and the
loop runs out of tokens before it runs out of rounds. -/

theorem Tables.operatorAbove?_eof {t : Tables} (heof : t.operator .eof = none)
    (cutoff : BindingPower) : t.operatorAbove? cutoff .eof = none := by
  simp only [Tables.operatorAbove?, heof]

theorem Tables.operator_setOperator_eof {t : Tables} {kind : TokenKind} (op : Operator)
    (hkind : kind ≠ .eof) : (t.setOperator kind op).operator .eof = t.operator .eof :=
  if_neg hkind.symm

/-- An operator and the first token of its right operand are pending. -/
theorem two_le_of_operatorAbove? {t : Tables} (heof : t.operator .eof = none)
    {cutoff : BindingPower} {s : TokenStream} {op : Operator}
    (h : t.operatorAbove? cutoff s.peek.kind = some op) : 2 ≤ s.pending.length := by
  refine two_le_of_peek fun hk => ?_
  rw [hk, Tables.operatorAbove?_eof heof] at h
  cases h

/-- After an operator and its right operand two tokens fewer are pending. -/
theorem InfixRule.run_length_lt {rule : InfixRule} {operand : OperandParser}
    (hop : operand.Forward) {left left' : Expr} {power : BindingPower} {s s' : TokenStream}
    (h : rule.run operand left power s.next = .found left' s') (h2 : 2 ≤ s.pending.length) :
    s'.pending.length + 2 ≤ s.pending.length := by
  have hle := (rule.run_reaches hop left power s.next).length_le
  rw [h] at hle
  simp only [Outcome.rest, next_eq_skip, skip_skip, skip_pending, List.length_drop] at hle
  omega

/-- One round of the operator loop. -/
theorem climb_round (t : Tables) (operand : OperandParser) (cutoff : BindingPower)
    (budget : List Token) (left : Expr) (s : TokenStream) :
    climb t operand cutoff budget left s =
      match t.operatorAbove? cutoff s.peek.kind with
      | none => .found left s
      | some op =>
        (op.rule.run operand left op.power s.next).andThen fun left s =>
          match budget with
          | [] => .found left s
          | _ :: budget => climb t operand cutoff budget left s := by
  exact climb.eq_def t operand cutoff budget left s

/-- Budgets with a round for every token but one make no difference. -/
theorem climb_budget {t : Tables} (heof : t.operator .eof = none) {operand : OperandParser}
    (hop : operand.Forward) (cutoff : BindingPower) (b b' : List Token) (left : Expr)
    (s : TokenStream) (hb : s.pending.length ≤ b.length + 1)
    (hb' : s.pending.length ≤ b'.length + 1) :
    climb t operand cutoff b left s = climb t operand cutoff b' left s := by
  induction b generalizing b' left s with
  | nil =>
    rw [climb_round, climb_round t operand cutoff b']
    cases hsome : t.operatorAbove? cutoff s.peek.kind with
    | none => rfl
    | some op =>
      have h2 := two_le_of_operatorAbove? heof hsome
      simp only [List.length_nil] at hb
      omega
  | cons _ b ih =>
    rw [climb_round, climb_round t operand cutoff b']
    cases hsome : t.operatorAbove? cutoff s.peek.kind with
    | none => rfl
    | some op =>
      have h2 := two_le_of_operatorAbove? heof hsome
      dsimp only
      cases hrun : op.rule.run operand left op.power s.next with
      | failed d r => rfl
      | found left' s' =>
        have hlt := InfixRule.run_length_lt hop hrun h2
        simp only [List.length_cons] at hb
        simp only [Outcome.andThen_found]
        cases b' with
        | nil =>
          simp only [List.length_nil] at hb'
          omega
        | cons _ b' =>
          simp only [List.length_cons] at hb'
          exact ih b' left' s' (by omega) (by omega)

/-- The operator loop, one operator at a time. -/
theorem climb_eq {t : Tables} (heof : t.operator .eof = none) {operand : OperandParser}
    (hop : operand.Forward) (cutoff : BindingPower) (left : Expr) (s : TokenStream) :
    climb t operand cutoff s.pending left s =
      match t.operatorAbove? cutoff s.peek.kind with
      | none => .found left s
      | some op =>
        (op.rule.run operand left op.power s.next).andThen fun left s =>
          climb t operand cutoff s.pending left s := by
  rw [climb_round]
  cases hop' : t.operatorAbove? cutoff s.peek.kind with
  | none => rfl
  | some op =>
    have h2 := two_le_of_operatorAbove? heof hop'
    dsimp only
    cases hrun : op.rule.run operand left op.power s.next with
    | failed d r => rfl
    | found left' s' =>
      have hlt := InfixRule.run_length_lt hop hrun h2
      cases hp : s.pending with
      | nil => simp [hp] at h2
      | cons token r =>
        simp only [Outcome.andThen_found]
        refine climb_budget heof hop cutoff r s'.pending left' s' ?_ (by omega)
        simp only [hp, List.length_cons] at hlt
        omega

/-! ## The program loop -/

namespace TokenStream

/-- One attempt at a statement: what it comes to, and the stream where the next one begins. -/
def round (t : Tables) (levels : Nat) (s : TokenStream) :
    Except Diagnostic Stmt × TokenStream :=
  match parseStmt t levels s with
  | .found statement rest => (.ok statement, rest.next)
  | .failed d rest => (.error d, rest.afterFailure d.cause)

theorem round_of_found {t : Tables} {levels : Nat} {s rest : TokenStream} {statement : Stmt}
    (h : parseStmt t levels s = .found statement rest) :
    s.round t levels = (.ok statement, rest.next) := by
  simp only [round, h]

theorem round_of_failed {t : Tables} {levels : Nat} {s rest : TokenStream} {d : Diagnostic}
    (h : parseStmt t levels s = .failed d rest) :
    s.round t levels = (.error d, rest.afterFailure d.cause) := by
  simp only [round, h]

/-- After a failure at least the current token is given up. -/
theorem next_reaches_afterFailure (s : TokenStream) (cause : Cause) :
    Reaches s.next (s.afterFailure cause) := by
  unfold afterFailure
  split
  · exact ((Reaches.skipToStatementEnd s).trans (Reaches.skipPeek _ _)).step
  · exact (Reaches.skipPeek s _).step

/-- An attempt passes a token, whatever it comes to. -/
theorem round_reaches (t : Tables) (levels : Nat) (s : TokenStream) :
    Reaches s.next (s.round t levels).2 := by
  have hnext := (parseStmt_reaches t levels s).step
  cases ho : parseStmt t levels s with
  | found statement rest =>
    rw [round_of_found ho]
    rwa [ho] at hnext
  | failed d rest =>
    rw [round_of_failed ho]
    rw [ho] at hnext
    exact hnext.trans (next_reaches_afterFailure rest d.cause)

theorem round_length_lt (t : Tables) (levels : Nat) {s : TokenStream} (h : s.pending ≠ []) :
    (s.round t levels).2.pending.length < s.pending.length := by
  have hle := (round_reaches t levels s).length_le
  have hpos := List.length_pos_iff.2 h
  rw [next_eq_skip, skip_pending, List.length_drop] at hle
  omega

/-- What the attempts at statements come to, up to the end of input. -/
def rounds (t : Tables) (levels : Nat) (s : TokenStream) : List (Except Diagnostic Stmt) :=
  if _h : s.atEnd then []
  else (s.round t levels).1 :: rounds t levels (s.round t levels).2
termination_by s.pending.length
decreasing_by exact round_length_lt t levels (pending_ne_nil_of_not_atEnd (by simpa using _h))

theorem rounds_of_atEnd {t : Tables} {levels : Nat} {s : TokenStream} (h : s.atEnd = true) :
    s.rounds t levels = [] := by
  rw [rounds, dif_pos h]

theorem rounds_of_not_atEnd {t : Tables} {levels : Nat} {s : TokenStream} (h : s.atEnd = false) :
    s.rounds t levels = (s.round t levels).1 :: (s.round t levels).2.rounds t levels := by
  rw [rounds, dif_neg (by simp [h])]

end TokenStream

def statementsOf (items : List (Except Diagnostic Stmt)) : List Stmt :=
  items.filterMap fun
    | .ok statement => some statement
    | .error _ => none

def diagnosticsOf (items : List (Except Diagnostic Stmt)) : List Diagnostic :=
  items.filterMap fun
    | .ok _ => none
    | .error d => some d

theorem mem_statementsOf {statement : Stmt} {items : List (Except Diagnostic Stmt)} :
    statement ∈ statementsOf items ↔ .ok statement ∈ items := by
  constructor
  · intro h
    obtain ⟨item, hitem, heq⟩ := List.mem_filterMap.1 h
    cases item with
    | ok statement' =>
      cases heq
      exact hitem
    | error d => cases heq
  · intro h
    exact List.mem_filterMap.2 ⟨_, h, rfl⟩

theorem mem_diagnosticsOf {d : Diagnostic} {items : List (Except Diagnostic Stmt)} :
    d ∈ diagnosticsOf items ↔ .error d ∈ items := by
  constructor
  · intro h
    obtain ⟨item, hitem, heq⟩ := List.mem_filterMap.1 h
    cases item with
    | ok statement => cases heq
    | error d' =>
      cases heq
      exact hitem
  · intro h
    exact List.mem_filterMap.2 ⟨_, h, rfl⟩

@[simp] theorem statementsOf_nil : statementsOf [] = [] := rfl

@[simp] theorem statementsOf_ok (statement : Stmt) (items : List (Except Diagnostic Stmt)) :
    statementsOf (.ok statement :: items) = statement :: statementsOf items := rfl

@[simp] theorem statementsOf_error (d : Diagnostic) (items : List (Except Diagnostic Stmt)) :
    statementsOf (.error d :: items) = statementsOf items := rfl

@[simp] theorem statementsOf_append (items items' : List (Except Diagnostic Stmt)) :
    statementsOf (items ++ items') = statementsOf items ++ statementsOf items' :=
  List.filterMap_append

@[simp] theorem diagnosticsOf_nil : diagnosticsOf [] = [] := rfl

@[simp] theorem diagnosticsOf_ok (statement : Stmt) (items : List (Except Diagnostic Stmt)) :
    diagnosticsOf (.ok statement :: items) = diagnosticsOf items := rfl

@[simp] theorem diagnosticsOf_error (d : Diagnostic) (items : List (Except Diagnostic Stmt)) :
    diagnosticsOf (.error d :: items) = d :: diagnosticsOf items := rfl

@[simp] theorem diagnosticsOf_append (items items' : List (Except Diagnostic Stmt)) :
    diagnosticsOf (items ++ items') = diagnosticsOf items ++ diagnosticsOf items' :=
  List.filterMap_append

namespace Parser

/-- An attempt answers with what it found. -/
theorem attempt_eq_ok {p q : Parser} {o : Outcome α} {a : α} (h : p.attempt o = (.ok a, q)) :
    o = .found a q.tokens := by
  cases o with
  | found value rest =>
    obtain ⟨hvalue, rfl⟩ := Prod.mk.inj h
    rw [Except.ok.inj hvalue]
    rfl
  | failed d rest => cases (Prod.mk.inj h).1

/-- What a step of the program loop leaves: the stream after the attempt, the same rules and
nesting, and one diagnostic more if the attempt failed. -/
theorem step_spec (p : Parser) :
    p.step.2.tokens = (p.tokens.round p.tables p.levels).2 ∧
      p.step.2.tables = p.tables ∧ p.step.2.depth = p.depth ∧
      p.step.1.toList = statementsOf [(p.tokens.round p.tables p.levels).1] ∧
      p.step.2.diagnostics.toList =
        p.diagnostics.toList ++ diagnosticsOf [(p.tokens.round p.tables p.levels).1] := by
  unfold step parseStatement attempt
  cases ho : parseStmt p.tables p.levels p.tokens with
  | found statement rest =>
    rw [TokenStream.round_of_found ho]
    exact ⟨rfl, rfl, rfl, rfl, by simp [Outcome.result, advance, moveTo]⟩
  | failed d rest =>
    rw [TokenStream.round_of_failed ho]
    exact ⟨rfl, rfl, rfl, rfl, by simp [Outcome.result, Outcome.rest, report, moveTo]⟩

theorem parseStatements_spec (budget : List Token) (p : Parser) (found : Array Stmt)
    (hb : p.tokens.pending.length ≤ budget.length) :
    (parseStatements budget p found).1.toList =
        found.toList ++ statementsOf (p.tokens.rounds p.tables p.levels) ∧
      (parseStatements budget p found).2.diagnostics.toList =
        p.diagnostics.toList ++ diagnosticsOf (p.tokens.rounds p.tables p.levels) := by
  induction budget generalizing p found with
  | nil =>
    have hnil : p.tokens.pending = [] := List.length_eq_zero_iff.1 (Nat.le_zero.1 hb)
    rw [TokenStream.rounds_of_atEnd (TokenStream.atEnd_of_nil hnil)]
    simp [parseStatements]
  | cons token budget ih =>
    unfold parseStatements
    cases hend : p.tokens.atEnd with
    | true => simp [TokenStream.rounds_of_atEnd hend]
    | false =>
      have hlt := TokenStream.round_length_lt p.tables p.levels
        (TokenStream.pending_ne_nil_of_not_atEnd hend)
      obtain ⟨htokens, htables, hdepth, hstmt, hdiag⟩ := p.step_spec
      have hlevels : p.step.2.levels = p.levels := by rw [levels, levels, hdepth]
      simp only [List.length_cons] at hb
      have ih' := fun found' => ih p.step.2 found' (by rw [htokens]; omega)
      simp only [htables, hlevels, htokens, hdiag] at ih'
      rw [TokenStream.rounds_of_not_atEnd hend]
      generalize (p.tokens.round p.tables p.levels).1 = item at *
      generalize hstep : p.step = r at *
      obtain ⟨statement?, q⟩ := r
      cases item with
      | ok statement =>
        cases statement? with
        | none => simp at hstmt
        | some statement' =>
          simp only [Option.toList_some, statementsOf_ok, statementsOf_nil, List.cons.injEq,
            and_true] at hstmt
          subst hstmt
          simpa using ih' (found.push statement')
      | error d =>
        cases statement? with
        | none => simpa using ih' found
        | some statement' => simp at hstmt

/-- The program loop stops at the end of input, further on in the same stream. -/
theorem parseStatements_end (budget : List Token) (p : Parser) (found : Array Stmt)
    (hb : p.tokens.pending.length ≤ budget.length) :
    (parseStatements budget p found).2.tokens.atEnd = true ∧
      Reaches p.tokens (parseStatements budget p found).2.tokens := by
  induction budget generalizing p found with
  | nil =>
    have hnil : p.tokens.pending = [] := List.length_eq_zero_iff.1 (Nat.le_zero.1 hb)
    exact ⟨atEnd_of_nil hnil, .refl _⟩
  | cons token budget ih =>
    unfold parseStatements
    cases hend : p.tokens.atEnd with
    | true => exact ⟨hend, .refl _⟩
    | false =>
      have hlt := round_length_lt p.tables p.levels (pending_ne_nil_of_not_atEnd hend)
      have hreach := (Reaches.next p.tokens).trans (round_reaches p.tables p.levels p.tokens)
      have htokens := p.step_spec.1
      rw [← htokens] at hlt hreach
      simp only [List.length_cons] at hb
      generalize hstep : p.step = r at *
      obtain ⟨statement?, q⟩ := r
      have hq : q.tokens.pending.length ≤ budget.length := by
        simp only at hlt
        omega
      cases statement? with
      | none => exact ⟨(ih q found hq).1, hreach.trans (ih q found hq).2⟩
      | some statement => exact ⟨(ih q _ hq).1, hreach.trans (ih q _ hq).2⟩

/-- A program is the statements among the rounds, and its diagnostics are the rest of them. -/
theorem parseProgram_eq (p : Parser) :
    p.parseProgram.1.statements = statementsOf (p.tokens.rounds p.tables p.levels) ∧
      p.parseProgram.2.diagnostics.toList =
        p.diagnostics.toList ++ diagnosticsOf (p.tokens.rounds p.tables p.levels) := by
  have h := parseStatements_spec p.tokens.pending p #[] (Nat.le_refl _)
  simp only [List.nil_append] at h
  exact h

/-- If no token is the end of input, a program spans its source. -/
theorem parseProgram_span {p : Parser} (heof : ∀ t ∈ p.tokens.pending, t.kind ≠ .eof) :
    p.parseProgram.1.span = ⟨.ofBytes p.tokens.stop.file 0, p.tokens.stop⟩ := by
  obtain ⟨hend, hreach⟩ := parseStatements_end p.tokens.pending p #[] (Nat.le_refl _)
  have hnil := pending_eq_nil_of_atEnd (fun t ht => heof t (hreach.mem_pending ht)) hend
  show Span.mk _ (parseStatements p.tokens.pending p #[]).2.tokens.current.span.stop = _
  rw [current_of_nil hnil, closing, hreach.stop_eq]
  rfl

end Parser

theorem parseFile_statements (file source : String) :
    (parseFile file source).1.statements =
      statementsOf ((Lexer.ofFile file source).stream.rounds .default maxNesting) :=
  (Parser.ofFile file source).parseProgram_eq.1

theorem parseFile_diagnostics (file source : String) :
    (parseFile file source).2 =
      diagnosticsOf ((Lexer.ofFile file source).stream.rounds .default maxNesting) :=
  (Parser.ofFile file source).parseProgram_eq.2

end FrontEnd
