import FrontEnd.Proofs.Progress

/-!
# Moving a source

Parsing never looks at a position, it only hands positions on. Streams that show the same tokens at
different places are therefore parsed alike, and what is found in one is found in the other, moved.
The same holds as long as only the tokens up to the end of the current statement agree.

* `Expr.relocate`, `Stmt.relocate`, `Diagnostic.relocate`, `TokenStream.relocate` — everything at
  the place that a map of positions gives it.
* `Mirrors` — a relation between streams that show the same tokens until a semicolon is passed.

Principal results: `parseExpr_mirrored` and `parseStmt_mirrored` (streams that mirror each other
have outcomes that do), and `rounds_relocate` (parsing commutes with moving the source).
-/

namespace FrontEnd

open TokenStream

variable {α β γ δ : Type}

/-! ## Trees and streams at another place -/

section

variable (f : Position → Position)

def Span.relocate (span : Span) : Span := ⟨f span.start, f span.stop⟩

def Token.relocate (token : Token) : Token := ⟨token.kind, token.text, token.span.relocate f⟩

def Identifier.relocate (name : Identifier) : Identifier :=
  ⟨name.token.relocate f, name.value, name.span.relocate f⟩

def Expr.relocate : Expr → Expr
  | .identifier name => .identifier (name.relocate f)
  | .integer token value span => .integer (token.relocate f) value (span.relocate f)
  | .boolean token value span => .boolean (token.relocate f) value (span.relocate f)
  | .unary token operator right span =>
    .unary (token.relocate f) operator right.relocate (span.relocate f)
  | .binary token left operator right span =>
    .binary (token.relocate f) left.relocate operator right.relocate (span.relocate f)

def Stmt.relocate : Stmt → Stmt
  | .binding token name value span =>
    .binding (token.relocate f) (name.relocate f) (value.relocate f) (span.relocate f)
  | .result token value span =>
    .result (token.relocate f) (value.map (Expr.relocate f)) (span.relocate f)
  | .expression token value span =>
    .expression (token.relocate f) (value.relocate f) (span.relocate f)

def Diagnostic.relocate (d : Diagnostic) : Diagnostic := ⟨d.cause, f d.position⟩

/-- The stream at another place, with `n` more tokens behind it. -/
def TokenStream.relocate (n : Nat) (s : TokenStream) : TokenStream :=
  ⟨s.pending.map (Token.relocate f), f s.stop, n + s.passed⟩

@[simp] theorem Token.relocate_kind (token : Token) : (token.relocate f).kind = token.kind := rfl

@[simp] theorem Token.relocate_text (token : Token) : (token.relocate f).text = token.text := rfl

@[simp] theorem Token.relocate_span (token : Token) :
    (token.relocate f).span = token.span.relocate f := rfl

@[simp] theorem Expr.relocate_span (e : Expr) : (e.relocate f).span = e.span.relocate f := by
  cases e <;> rfl

/-- The text of an expression does not depend on its place. -/
@[simp] theorem Expr.relocate_text (e : Expr) : (e.relocate f).text = e.text := by
  induction e with
  | identifier | integer | boolean => rfl
  | unary token operator right span ih => rw [relocate, text, text, ih]
  | binary token left operator right span ihl ihr => rw [relocate, text, text, ihl, ihr]

@[simp] theorem Stmt.relocate_text (statement : Stmt) :
    (statement.relocate f).text = statement.text := by
  cases statement with
  | binding => simp [relocate, text, Identifier.relocate, Identifier.text]
  | result token value span => cases value <;> simp [relocate, text]
  | expression => simp [relocate, text]

@[simp] theorem Token.relocate_id (token : Token) : token.relocate id = token := rfl

theorem Expr.relocate_id (e : Expr) : e.relocate id = e := by
  induction e with
  | identifier | integer | boolean => rfl
  | unary token operator right span ih => rw [relocate, ih]; rfl
  | binary token left operator right span ihl ihr => rw [relocate, ihl, ihr]; rfl

theorem Stmt.relocate_id (statement : Stmt) : statement.relocate id = statement := by
  cases statement with
  | binding token name value span => rw [relocate, Expr.relocate_id]; rfl
  | result token value span =>
    have hvalue : value.map (Expr.relocate id) = value := by
      rw [show Expr.relocate id = id from funext Expr.relocate_id, Option.map_id_fun, id]
    rw [relocate, hvalue]
    rfl
  | expression token value span => rw [relocate, Expr.relocate_id]; rfl

/-- Moving an expression twice is moving it once. -/
theorem Expr.relocate_relocate (g : Position → Position) (e : Expr) :
    (e.relocate g).relocate f = e.relocate (f ∘ g) := by
  induction e with
  | identifier | integer | boolean => rfl
  | unary token operator right span ih =>
    rw [relocate, relocate, ih]
    rfl
  | binary token left operator right span ihl ihr =>
    rw [relocate, relocate, ihl, ihr]
    rfl

theorem Stmt.relocate_relocate (g : Position → Position) (statement : Stmt) :
    (statement.relocate g).relocate f = statement.relocate (f ∘ g) := by
  cases statement with
  | binding token name value span =>
    rw [relocate, relocate, Expr.relocate_relocate]
    rfl
  | result token value span =>
    cases value with
    | none => rfl
    | some value =>
      rw [relocate, relocate, Option.map_some, Option.map_some, Expr.relocate_relocate]
      rfl
  | expression token value span =>
    rw [relocate, relocate, Expr.relocate_relocate]
    rfl

namespace TokenStream

variable (n : Nat)

@[simp] theorem relocate_current (s : TokenStream) :
    (s.relocate f n).current = s.current.relocate f := by
  obtain ⟨pending, stop, passed⟩ := s
  cases pending <;> rfl

@[simp] theorem relocate_peek (s : TokenStream) : (s.relocate f n).peek = s.peek.relocate f := by
  obtain ⟨pending, stop, passed⟩ := s
  rcases pending with _ | ⟨_, _ | ⟨_, _⟩⟩ <;> rfl

@[simp] theorem relocate_next (s : TokenStream) : (s.relocate f n).next = s.next.relocate f n := by
  obtain ⟨pending, stop, passed⟩ := s
  simp only [relocate, next, List.map_tail, Nat.add_assoc]

theorem relocate_skipPeek (s : TokenStream) (kind : TokenKind) :
    (s.relocate f n).skipPeek kind = (s.skipPeek kind).relocate f n := by
  simp only [skipPeek, relocate_peek, Token.relocate_kind, relocate_next]
  split <;> rfl

theorem relocate_skipToStatementEnd (s : TokenStream) :
    (s.relocate f n).skipToStatementEnd = s.skipToStatementEnd.relocate f n := by
  unfold skipToStatementEnd
  generalize hb : s.pending = budget
  have hb' : (s.relocate f n).pending = budget.map (Token.relocate f) := by rw [← hb]; rfl
  rw [hb']
  clear hb hb'
  induction budget generalizing s with
  | nil => rfl
  | cons token budget ih =>
    simp only [List.map_cons, skipToStatementEnd.go, relocate_peek, Token.relocate_kind,
      relocate_next]
    split
    · rfl
    · exact ih s.next

theorem relocate_afterFailure (s : TokenStream) (cause : Cause) :
    (s.relocate f n).afterFailure cause = (s.afterFailure cause).relocate f n := by
  unfold afterFailure
  split
  · rw [relocate_skipToStatementEnd, relocate_skipPeek, relocate_next]
  · rw [relocate_skipPeek, relocate_next]

end TokenStream

end

/-! ## Streams that mirror each other -/

/-- A relation between streams under which the current tokens are the same up to their places, and
which holds on after every token but a semicolon. -/
structure Mirrors (f : Position → Position) (R : TokenStream → TokenStream → Prop) : Prop where
  current : ∀ {s s'}, R s s' → s'.current = s.current.relocate f
  next : ∀ {s s'}, R s s' → s.current.kind ≠ .semicolon → R s.next s'.next

/-- The relation `R` where the statement has not ended yet. -/
def WithinStatement (R : TokenStream → TokenStream → Prop) (s s' : TokenStream) : Prop :=
  R s s' ∧ s.current.kind ≠ .semicolon

/-- Outcomes that are the same up to places: what is found corresponds by `g`, and the streams that
are left by `F`; the streams left by a failure correspond by `R`. -/
inductive Outcome.Mirrored (f : Position → Position) (F R : TokenStream → TokenStream → Prop)
    (g : α → β) : Outcome α → Outcome β → Prop where
  | found (value : α) {s s' : TokenStream} (h : F s s') :
    Mirrored f F R g (.found value s) (.found (g value) s')
  | failed (d : Diagnostic) {s s' : TokenStream} (h : R s s') :
    Mirrored f F R g (.failed d s) (.failed (d.relocate f) s')

variable {f : Position → Position} {F F' R : TokenStream → TokenStream → Prop}

theorem Outcome.Mirrored.andThen {g : α → β} {g' : γ → δ} {o : Outcome α} {o' : Outcome β}
    {k : α → TokenStream → Outcome γ} {k' : β → TokenStream → Outcome δ}
    (h : Outcome.Mirrored f F R g o o')
    (hk : ∀ a s s', F s s' → Outcome.Mirrored f F' R g' (k a s) (k' (g a) s')) :
    Outcome.Mirrored f F' R g' (o.andThen k) (o'.andThen k') := by
  cases h with
  | found value hs => exact hk value _ _ hs
  | failed d hs => exact .failed d hs

/-- An operand parser with mirrored outcomes, which stops before a semicolon. -/
def OperandParser.Mirrored (f : Position → Position) (R : TokenStream → TokenStream → Prop)
    (operand : OperandParser) : Prop :=
  ∀ cutoff {s s'}, R s s' →
    Outcome.Mirrored f (WithinStatement R) R (Expr.relocate f) (operand cutoff s) (operand cutoff s')

namespace Mirrors

variable {s s' : TokenStream}

theorem peek (hR : Mirrors f R) (h : WithinStatement R s s') :
    s'.peek = s.peek.relocate f := by
  rw [← current_next, ← current_next]
  exact hR.current (hR.next h.1 h.2)

theorem skipPeek (hR : Mirrors f R) (h : WithinStatement R s s') (kind : TokenKind) :
    R (s.skipPeek kind) (s'.skipPeek kind) := by
  unfold TokenStream.skipPeek
  rw [hR.peek h, Token.relocate_kind]
  split
  · exact hR.next h.1 h.2
  · exact h.1

theorem expectPeek (hR : Mirrors f R) (h : WithinStatement R s s') {kind : TokenKind}
    (hk : kind ≠ .semicolon) :
    Outcome.Mirrored f (WithinStatement R) R id (s.expectPeek kind) (s'.expectPeek kind) := by
  unfold TokenStream.expectPeek
  rw [hR.peek h, Token.relocate_kind, Token.relocate_text, Token.relocate_span]
  split
  · rename_i hpeek
    refine .found () ⟨hR.next h.1 h.2, ?_⟩
    rwa [current_next, hpeek]
  · exact .failed _ h.1

end Mirrors

/-- Expressions begin alike. -/
theorem PrefixRule.run_mirrored (hR : Mirrors f R) (rule : PrefixRule) {operand : OperandParser}
    (hop : OperandParser.Mirrored f R operand) {s s' : TokenStream} (h : WithinStatement R s s') :
    Outcome.Mirrored f (WithinStatement R) R (Expr.relocate f) (rule.run operand s)
      (rule.run operand s') := by
  have hnext := hR.next h.1 h.2
  cases rule with
  | identifier =>
    simp only [PrefixRule.run, hR.current h.1]
    exact .found (Expr.identifier (.ofToken s.current)) h
  | integer =>
    simp only [PrefixRule.run, hR.current h.1, Token.relocate_text, Token.relocate_span]
    cases literalValue? s.current.text with
    | some value => exact .found (Expr.integer s.current value s.current.span) h
    | none => exact .failed ⟨.badInteger s.current.text, s.current.span.start⟩ h.1
  | boolean =>
    simp only [PrefixRule.run, hR.current h.1, Token.relocate_kind, Token.relocate_span]
    exact .found (Expr.boolean s.current (s.current.kind = .trueWord) s.current.span) h
  | unary =>
    simp only [PrefixRule.run, hR.current h.1, Token.relocate_text, Token.relocate_span]
    refine (hop .unary hnext).andThen fun right r r' hr => ?_
    rw [Expr.relocate_span]
    exact .found (Expr.unary s.current s.current.text right
      ⟨s.current.span.start, right.span.stop⟩) hr
  | grouping =>
    simp only [PrefixRule.run]
    refine (hop .lowest hnext).andThen fun inner r r' hr => ?_
    exact (hR.expectPeek hr (by decide)).andThen fun _ _ _ hr' => .found inner hr'

theorem InfixRule.run_mirrored (hR : Mirrors f R) (rule : InfixRule) {operand : OperandParser}
    (hop : OperandParser.Mirrored f R operand) (left : Expr) (power : BindingPower)
    {s s' : TokenStream} (h : WithinStatement R s s') :
    Outcome.Mirrored f (WithinStatement R) R (Expr.relocate f) (rule.run operand left power s)
      (rule.run operand (left.relocate f) power s') := by
  simp only [InfixRule.run, hR.current h.1, Token.relocate_text]
  refine (hop _ (hR.next h.1 h.2)).andThen fun right r r' hr => ?_
  rw [Expr.relocate_span, Expr.relocate_span]
  exact .found (Expr.binary s.current left s.current.text right
    ⟨left.span.start, right.span.stop⟩) hr

/-- No operator is found at a semicolon. -/
theorem Tables.ne_semicolon_of_operatorAbove? {t : Tables} {cutoff : BindingPower}
    {kind : TokenKind} {op : Operator} (h : t.operatorAbove? cutoff kind = some op) :
    kind ≠ .semicolon := by
  unfold operatorAbove? at h
  split at h
  · split at h
    · rename_i hk
      exact hk.1
    · cases h
  · cases h

theorem climb_mirrored (hR : Mirrors f R) {t : Tables} (heof : t.operator .eof = none)
    {operand : OperandParser} (hfwd : operand.Forward) (hop : OperandParser.Mirrored f R operand)
    (cutoff : BindingPower) (left : Expr) {s s' : TokenStream} (h : WithinStatement R s s') :
    Outcome.Mirrored f (WithinStatement R) R (Expr.relocate f)
      (climb t operand cutoff s.pending left s)
      (climb t operand cutoff s'.pending (left.relocate f) s') := by
  induction hn : s.pending.length using Nat.strongRecOn generalizing left s s' with
  | ind n ih =>
    rw [climb_eq heof hfwd, climb_eq heof hfwd, hR.peek h, Token.relocate_kind]
    cases hsome : t.operatorAbove? cutoff s.peek.kind with
    | none => exact .found left h
    | some op =>
      have h2 := two_le_of_operatorAbove? heof hsome
      have hnext : WithinStatement R s.next s'.next := by
        refine ⟨hR.next h.1 h.2, ?_⟩
        rw [current_next]
        exact Tables.ne_semicolon_of_operatorAbove? hsome
      have hrun := op.rule.run_mirrored hR hop left op.power hnext
      dsimp only
      cases hleft : op.rule.run operand left op.power s.next with
      | failed d r =>
        rw [hleft] at hrun
        generalize op.rule.run operand (left.relocate f) op.power s'.next = o' at hrun
        cases hrun with
        | failed _ hr => exact .failed d hr
      | found left' r =>
        have hlt := InfixRule.run_length_lt hfwd hleft h2
        rw [hleft] at hrun
        generalize op.rule.run operand (left.relocate f) op.power s'.next = o' at hrun
        cases hrun with
        | found _ hr => exact ih _ (by omega) left' hr rfl

/-- **Streams that mirror each other hold the same expressions.** -/
theorem parseExpr_mirrored (hR : Mirrors f R) {t : Tables} (heof : t.operator .eof = none)
    (hsemi : t.prefixRule .semicolon = none) (levels : Nat) :
    OperandParser.Mirrored f R (parseExpr t levels) := by
  induction levels with
  | zero =>
    intro cutoff s s' h
    simp only [parseExpr, hR.current h]
    exact .failed ⟨.nestingTooDeep maxNesting, s.current.span.start⟩ h
  | succ levels ih =>
    intro cutoff s s' h
    simp only [parseExpr, hR.current h, Token.relocate_kind]
    cases hrule : t.prefixRule s.current.kind with
    | none =>
      exact .failed ⟨.noPrefixRule s.current.kind s.current.text, s.current.span.start⟩ h
    | some rule =>
      have hne : s.current.kind ≠ .semicolon := by
        intro hk
        rw [hk, hsemi] at hrule
        cases hrule
      refine (rule.run_mirrored hR ih ⟨h, hne⟩).andThen fun left r r' hr => ?_
      exact climb_mirrored hR heof (parseExpr_reaches t levels) ih cutoff left hr

theorem StatementRule.run_mirrored (hR : Mirrors f R) (rule : StatementRule)
    {operand : OperandParser} (hop : OperandParser.Mirrored f R operand) {s s' : TokenStream}
    (h : R s s') (hne : rule ≠ .expression → s.current.kind ≠ .semicolon) :
    Outcome.Mirrored f R R (Stmt.relocate f) (rule.run operand s) (rule.run operand s') := by
  cases rule with
  | binding =>
    have hs : WithinStatement R s s' := ⟨h, hne (by decide)⟩
    simp only [StatementRule.run, hR.current h]
    refine (hR.expectPeek hs (by decide)).andThen fun _ s₁ s₁' hs₁ => ?_
    simp only [hR.current hs₁.1]
    refine (hR.expectPeek hs₁ (by decide)).andThen fun _ s₂ s₂' hs₂ => ?_
    refine (hop .lowest (hR.next hs₂.1 hs₂.2)).andThen fun value s₃ s₃' hs₃ => ?_
    have hend := hR.skipPeek hs₃ .semicolon
    simp only [hR.current hend]
    exact .found (Stmt.binding s.current (.ofToken s₁.current) value
      ⟨s.current.span.start, (s₃.skipPeek .semicolon).current.span.stop⟩) hend
  | result =>
    have hnext := hR.next h (hne (by decide))
    simp only [StatementRule.run, hR.current h, hR.current hnext, Token.relocate_kind]
    split
    · exact .found (Stmt.result s.current none
        ⟨s.current.span.start, s.next.current.span.stop⟩) hnext
    · refine (hop .lowest hnext).andThen fun value s₁ s₁' hs₁ => ?_
      have hend := hR.skipPeek hs₁ .semicolon
      simp only [hR.current hend]
      exact .found (Stmt.result s.current (some value)
        ⟨s.current.span.start, (s₁.skipPeek .semicolon).current.span.stop⟩) hend
  | expression =>
    simp only [StatementRule.run, hR.current h]
    refine (hop .lowest h).andThen fun value s₁ s₁' hs₁ => ?_
    rw [Expr.relocate_span]
    exact .found (Stmt.expression s.current value ⟨s.current.span.start, value.span.stop⟩)
      (hR.skipPeek hs₁ .semicolon)

/-- **Streams that mirror each other hold the same statements.** -/
theorem parseStmt_mirrored (hR : Mirrors f R) (levels : Nat) {s s' : TokenStream} (h : R s s') :
    Outcome.Mirrored f R R (Stmt.relocate f) (parseStmt .default levels s)
      (parseStmt .default levels s') := by
  have hop := parseExpr_mirrored hR (t := .default) rfl rfl levels
  simp only [parseStmt, hR.current h, Token.relocate_kind]
  refine StatementRule.run_mirrored hR _ hop h fun hrule hk => hrule ?_
  rw [hk]
  rfl

/-! ## Parsing commutes with moving the source -/

def relocateItem (f : Position → Position) : Except Diagnostic Stmt → Except Diagnostic Stmt
  | .ok statement => .ok (statement.relocate f)
  | .error d => .error (d.relocate f)

theorem statementsOf_relocate (f : Position → Position) (items : List (Except Diagnostic Stmt)) :
    statementsOf (items.map (relocateItem f)) = (statementsOf items).map (Stmt.relocate f) := by
  induction items with
  | nil => rfl
  | cons item items ih => cases item <;> simp [relocateItem, ih]

theorem diagnosticsOf_relocate (f : Position → Position) (items : List (Except Diagnostic Stmt)) :
    diagnosticsOf (items.map (relocateItem f)) =
      (diagnosticsOf items).map (Diagnostic.relocate f) := by
  induction items with
  | nil => rfl
  | cons item items ih => cases item <;> simp [relocateItem, ih]

/-- A stream and the same stream at another place mirror each other throughout. -/
theorem mirrors_relocate (f : Position → Position) (n : Nat) :
    Mirrors f fun s s' => s' = s.relocate f n := by
  constructor
  · rintro s _ rfl
    exact relocate_current f n s
  · rintro s _ rfl _
    exact relocate_next f n s

theorem round_relocate (f : Position → Position) (n levels : Nat) (s : TokenStream) :
    (s.relocate f n).round .default levels =
      (relocateItem f (s.round .default levels).1,
        (s.round .default levels).2.relocate f n) := by
  have h := parseStmt_mirrored (mirrors_relocate f n) levels (s := s) rfl
  unfold TokenStream.round
  generalize parseStmt .default levels s = o at h
  generalize parseStmt .default levels (s.relocate f n) = o' at h
  cases h with
  | found statement hr => simp only [hr, relocate_next, relocateItem]
  | failed d hr => simp only [hr, Diagnostic.relocate, relocate_afterFailure, relocateItem]

/-- **Parsing commutes with moving the source.** -/
theorem rounds_relocate (f : Position → Position) (n levels : Nat) (s : TokenStream) :
    (s.relocate f n).rounds .default levels = (s.rounds .default levels).map (relocateItem f) := by
  induction hm : s.pending.length using Nat.strongRecOn generalizing s with
  | ind m ih =>
    have hend : (s.relocate f n).atEnd = s.atEnd := by simp [atEnd]
    cases h : s.atEnd with
    | true =>
      rw [rounds_of_atEnd h, rounds_of_atEnd (hend.trans h)]
      rfl
    | false =>
      have hlt := round_length_lt .default levels (pending_ne_nil_of_not_atEnd h)
      rw [rounds_of_not_atEnd h, rounds_of_not_atEnd (hend.trans h), round_relocate,
        ih _ (by omega) _ rfl]
      rfl

end FrontEnd
