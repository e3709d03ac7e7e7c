import FrontEnd.Proofs.Layout

/-!
# Extensions leave alone what they do not touch

A rule is looked up only by the kind of a token that is in the window. Two tables that have the same
rules for the tokens of a stream can therefore not be told apart by parsing it: whatever is parsed,
found or failed, comes to the same outcome and leaves the same tokens. So a source is read as before
when rules are registered for kinds of token that it does not have.

* `Tables.AgreeAt`, `Tables.AgreeOn` — tables with the same rules for a kind, or for a stream.
* `OperandParser.SameFrom` — operand parsers that do the same from a place on.
* `Registration`, `Parser.register` — one rule put in force.
* `Parser.SameProgram` — parsers that find the same program and record the same.

Principal results: `parseExpr_congr`, `parseStmt_congr` (tables that agree parse alike),
`Parser.parseProgram_withTables` (a whole program) and `Parser.parseProgram_registered`, for all
registrations.
-/

namespace FrontEnd

open TokenStream

variable {α β : Type} {t t' : Tables} {s r : TokenStream}

/-! ## Tables that agree -/

/-- The tables have the same rules for the kind. -/
structure Tables.AgreeAt (t t' : Tables) (kind : TokenKind) : Prop where
  statement : t.statement kind = t'.statement kind
  prefixRule : t.prefixRule kind = t'.prefixRule kind
  operator : t.operator kind = t'.operator kind

instance (t t' : Tables) (kind : TokenKind) : Decidable (t.AgreeAt t' kind) :=
  decidable_of_iff (t.statement kind = t'.statement kind ∧ t.prefixRule kind = t'.prefixRule kind ∧
      t.operator kind = t'.operator kind)
    ⟨fun ⟨hs, hp, ho⟩ => ⟨hs, hp, ho⟩, fun ⟨hs, hp, ho⟩ => ⟨hs, hp, ho⟩⟩

/-- The tables have the same rules for every token of the stream, and for the end of input. -/
def Tables.AgreeOn (t t' : Tables) (s : TokenStream) : Prop :=
  ∀ token ∈ s.closing :: s.pending, t.AgreeAt t' token.kind

namespace Tables

theorem AgreeAt.statementRule {kind : TokenKind} (h : t.AgreeAt t' kind) :
    t.statementRule kind = t'.statementRule kind := by
  rw [Tables.statementRule, Tables.statementRule, h.statement]

theorem AgreeAt.operatorAbove? {kind : TokenKind} (h : t.AgreeAt t' kind) (cutoff : BindingPower) :
    t.operatorAbove? cutoff kind = t'.operatorAbove? cutoff kind := by
  rw [Tables.operatorAbove?, Tables.operatorAbove?, h.operator]

theorem AgreeAt.trans {t'' : Tables} {kind : TokenKind} (h : t.AgreeAt t' kind)
    (h' : t'.AgreeAt t'' kind) : t.AgreeAt t'' kind :=
  ⟨h.statement.trans h'.statement, h.prefixRule.trans h'.prefixRule, h.operator.trans h'.operator⟩

theorem AgreeOn.of_reaches (h : t.AgreeOn t' s) (hr : Reaches s r) : t.AgreeOn t' r := by
  intro token hmem
  rcases List.mem_cons.1 hmem with rfl | hmem
  · rw [closing, hr.stop_eq]
    exact h _ List.mem_cons_self
  · exact h token (List.mem_cons_of_mem _ (hr.mem_pending hmem))

theorem AgreeOn.current (h : t.AgreeOn t' s) : t.AgreeAt t' s.current.kind := by
  apply h
  cases hp : s.pending with
  | nil =>
    rw [current_of_nil hp]
    exact List.mem_cons_self
  | cons token rest =>
    rw [current_of_cons hp]
    exact List.mem_cons_of_mem _ List.mem_cons_self

theorem AgreeOn.peek (h : t.AgreeOn t' s) : t.AgreeAt t' s.peek.kind := by
  rw [← current_next]
  exact (h.of_reaches (.next s)).current

end Tables

/-! ## Parsing by tables that agree -/

theorem Outcome.andThen_congr {o : Outcome α} {f g : α → TokenStream → Outcome β}
    (h : ∀ a r, o = .found a r → f a r = g a r) : o.andThen f = o.andThen g := by
  cases o with
  | found a r => exact h a r rfl
  | failed d r => rfl

/-- The operand parsers do the same wherever they are called from here on. -/
def OperandParser.SameFrom (operand operand' : OperandParser) (s : TokenStream) : Prop :=
  ∀ cutoff r, Reaches s r → operand cutoff r = operand' cutoff r

section

variable {operand operand' : OperandParser}

theorem OperandParser.SameFrom.of_reaches (h : operand.SameFrom operand' s) (hr : Reaches s r) :
    operand.SameFrom operand' r :=
  fun cutoff r' hr' => h cutoff r' (hr.trans hr')

theorem PrefixRule.run_congr (rule : PrefixRule) (h : operand.SameFrom operand' s) :
    rule.run operand s = rule.run operand' s := by
  cases rule with
  | identifier | integer | boolean => rfl
  | unary | grouping => simp only [run, h _ _ (.next s)]

theorem InfixRule.run_congr (rule : InfixRule) (h : operand.SameFrom operand' s) (left : Expr)
    (power : BindingPower) : rule.run operand left power s = rule.run operand' left power s := by
  simp only [run, h _ _ (.next s)]

/-- The operator loop looks at the token after the current one only, round after round. -/
theorem climb_congr (hagree : t.AgreeOn t' s) (h : operand.SameFrom operand' s)
    (hop : operand.Forward) (cutoff : BindingPower) (budget : List Token) (left : Expr) :
    climb t operand cutoff budget left s = climb t' operand' cutoff budget left s := by
  induction budget generalizing left s with
  | nil =>
    rw [climb_round, climb_round t', ← hagree.peek.operatorAbove?]
    cases t.operatorAbove? cutoff s.peek.kind with
    | none => rfl
    | some op =>
      dsimp only
      rw [op.rule.run_congr (h.of_reaches (.next s))]
  | cons token budget ih =>
    rw [climb_round, climb_round t', ← hagree.peek.operatorAbove?]
    cases t.operatorAbove? cutoff s.peek.kind with
    | none => rfl
    | some op =>
      dsimp only
      rw [← op.rule.run_congr (h.of_reaches (.next s))]
      refine Outcome.andThen_congr fun left' r hfound => ?_
      have hreach : Reaches s r := by
        have hrun := op.rule.run_reaches hop left op.power s.next
        rw [hfound] at hrun
        exact ((Reaches.next s).trans (.next s.next)).trans hrun
      exact ih (hagree.of_reaches hreach) (h.of_reaches hreach) left'

theorem StatementRule.run_congr (rule : StatementRule) (h : operand.SameFrom operand' s) :
    rule.run operand s = rule.run operand' s := by
  cases rule with
  | binding =>
    refine Outcome.andThen_congr fun _ r hr => ?_
    have hname : Reaches s r := by
      have hreach := expectPeek_reaches s .identifier
      rwa [hr] at hreach
    refine Outcome.andThen_congr fun _ r' hr' => ?_
    have hsign : Reaches r r' := by
      have hreach := expectPeek_reaches r .assign
      rwa [hr'] at hreach
    rw [h _ _ ((hname.trans hsign).trans (.next r'))]
  | result => simp only [run, h _ _ (.next s)]
  | expression => simp only [run, h _ _ (.refl s)]

end

/-- **Tables that agree on a stream parse the same expressions from it.** -/
theorem parseExpr_congr (hagree : t.AgreeOn t' s) (levels : Nat) :
    OperandParser.SameFrom (parseExpr t levels) (parseExpr t' levels) s := by
  induction levels with
  | zero => exact fun cutoff r hr => rfl
  | succ levels ih =>
    intro cutoff r hr
    have hagree' := hagree.of_reaches hr
    rw [parseExpr, parseExpr, ← hagree'.current.prefixRule]
    cases t.prefixRule r.current.kind with
    | none => rfl
    | some rule =>
      dsimp only
      rw [← rule.run_congr (ih.of_reaches hr)]
      refine Outcome.andThen_congr fun left r' hfound => ?_
      have hreach : Reaches r r' := by
        have hrun := rule.run_reaches (parseExpr_reaches t levels) r
        rwa [hfound] at hrun
      exact climb_congr (hagree'.of_reaches hreach) (ih.of_reaches (hr.trans hreach))
        (parseExpr_reaches t levels) cutoff r'.pending left

theorem parseStmt_congr (hagree : t.AgreeOn t' s) (levels : Nat) :
    parseStmt t levels s = parseStmt t' levels s := by
  rw [parseStmt, parseStmt, ← hagree.current.statementRule]
  exact StatementRule.run_congr _ (parseExpr_congr hagree levels)

/-! ## Programs -/

namespace Parser

variable {p : Parser}

def withTables (p : Parser) (t : Tables) : Parser := { p with tables := t }

theorem step_withTables (h : p.tables.AgreeOn t p.tokens) :
    (p.withTables t).step = (p.step.1, p.step.2.withTables t) := by
  have hstmt : parseStmt t p.levels p.tokens = parseStmt p.tables p.levels p.tokens :=
    (parseStmt_congr h p.levels).symm
  have hattempt : (p.withTables t).parseStatement =
      (p.parseStatement.1, p.parseStatement.2.withTables t) := by
    show (p.withTables t).attempt (parseStmt t p.levels p.tokens) = _
    rw [hstmt]
    rfl
  rw [step, hattempt, step]
  rcases p.parseStatement with ⟨_ | statement, q⟩
  · rfl
  · rfl

/-- The whole loop goes on as it did, one step after another. -/
theorem parseStatements_withTables (h : p.tables.AgreeOn t p.tokens) (budget : List Token)
    (found : Array Stmt) :
    parseStatements budget (p.withTables t) found =
      ((parseStatements budget p found).1, (parseStatements budget p found).2.withTables t) := by
  induction budget generalizing p found with
  | nil => rfl
  | cons token budget ih =>
    have hnext : p.step.2.tables.AgreeOn t p.step.2.tokens := by
      obtain ⟨htokens, htables, -⟩ := p.step_spec
      rw [htokens, htables]
      exact h.of_reaches ((Reaches.next _).trans (round_reaches _ _ _))
    unfold parseStatements
    rw [step_withTables h, show (p.withTables t).tokens = p.tokens from rfl]
    cases p.tokens.atEnd with
    | true => rfl
    | false =>
      generalize p.step = result at hnext
      obtain ⟨statement?, q⟩ := result
      cases statement? with
      | none => exact ih hnext found
      | some statement => exact ih hnext (found.push statement)

/-- **Tables that agree on a stream parse the same program from it**, with the same records, and
leave the parser in the same state but for its rules. -/
theorem parseProgram_withTables (h : p.tables.AgreeOn t p.tokens) :
    (p.withTables t).parseProgram = (p.parseProgram.1, p.parseProgram.2.withTables t) := by
  rw [parseProgram, show (p.withTables t).tokens = p.tokens from rfl, parseStatements_withTables h]
  rfl

end Parser

/-! ## Registrations -/

/-- A rule to be put in force for a kind of token. -/
inductive Registration where
  | statement (kind : TokenKind) (rule : StatementRule)
  | prefixRule (kind : TokenKind) (rule : PrefixRule)
  | operator (kind : TokenKind) (op : Operator)

def Registration.kind : Registration → TokenKind
  | statement kind _ => kind
  | prefixRule kind _ => kind
  | operator kind _ => kind

namespace Parser

variable {p : Parser}

def register (p : Parser) : Registration → Parser
  | .statement kind rule => p.setStatement kind rule
  | .prefixRule kind rule => p.setPrefix kind rule
  | .operator kind op => p.setOperator kind op

/-- Nothing but the rules changes, and of these only the ones for the kind. -/
theorem register_spec (p : Parser) (registration : Registration) :
    p.register registration = p.withTables (p.register registration).tables ∧
      ∀ kind ≠ registration.kind, p.tables.AgreeAt (p.register registration).tables kind := by
  cases registration with
  | statement kind' rule => exact ⟨rfl, fun kind h => ⟨(if_neg h).symm, rfl, rfl⟩⟩
  | prefixRule kind' rule => exact ⟨rfl, fun kind h => ⟨rfl, (if_neg h).symm, rfl⟩⟩
  | operator kind' op => exact ⟨rfl, fun kind h => ⟨rfl, rfl, (if_neg h).symm⟩⟩

def registerAll (p : Parser) (registrations : List Registration) : Parser :=
  registrations.foldl register p

theorem registerAll_spec (p : Parser) (registrations : List Registration) :
    p.registerAll registrations = p.withTables (p.registerAll registrations).tables ∧
      ∀ kind, (∀ r ∈ registrations, kind ≠ r.kind) →
        p.tables.AgreeAt (p.registerAll registrations).tables kind := by
  induction registrations generalizing p with
  | nil => exact ⟨rfl, fun kind _ => ⟨rfl, rfl, rfl⟩⟩
  | cons r rs ih =>
    obtain ⟨hsame, hagree⟩ := p.register_spec r
    obtain ⟨hsame', hagree'⟩ := ih (p.register r)
    constructor
    · have hwith : (p.register r).withTables = p.withTables := by
        rw [hsame]
        rfl
      rw [hwith] at hsame'
      exact hsame'
    · intro kind hkind
      obtain ⟨hkind, hkinds⟩ := List.forall_mem_cons.1 hkind
      exact (hagree kind hkind).trans (hagree' kind hkinds)

/-- Parsers that were given different rules differ in their rules only. -/
theorem registerAll_eq_withTables (p : Parser) (registrations others : List Registration) :
    p.registerAll others =
      (p.registerAll registrations).withTables (p.registerAll others).tables := by
  rw [(p.registerAll_spec registrations).1]
  exact (p.registerAll_spec others).1

theorem registerAll_tokens (p : Parser) (registrations : List Registration) :
    (p.registerAll registrations).tokens = p.tokens := by
  rw [(p.registerAll_spec registrations).1]
  rfl

/-- The parsers find the same program and record the same. -/
structure SameProgram (p q : Parser) : Prop where
  program : p.parseProgram.1 = q.parseProgram.1
  diagnostics : p.parseProgram.2.diagnostics = q.parseProgram.2.diagnostics
  records : p.parseProgram.2.records = q.parseProgram.2.records
  log : p.parseProgram.2.log = q.parseProgram.2.log

theorem sameProgram_withTables (h : p.tables.AgreeOn t p.tokens) :
    p.SameProgram (p.withTables t) := by
  have hrun := parseProgram_withTables h
  constructor <;> rw [hrun] <;> rfl

theorem agreeOn_ofFile {file source : String}
    (h : ∀ token ∈ tokensIn file source, t.AgreeAt t' token.kind) :
    t.AgreeOn t' (Lexer.ofFile file source).stream := by
  rw [stream_ofFile]
  intro token hmem
  apply h
  rcases List.mem_cons.1 hmem with rfl | hmem
  · exact List.mem_append_right _ (List.mem_singleton.2 rfl)
  · exact List.mem_append_left _ hmem

/-- **Extensions leave alone what they do not touch.** Two parsers for a source, each with whatever
rules it has been given, find the same program and make the same diagnostics and log records if
their rules agree on the end of input and on every kind of token that the source has. So it makes no
difference to register rules for other kinds, whatever their powers. -/
theorem parseProgram_registered (file source : String) (registrations : List Registration) :
    let p := (Parser.ofFile file source).registerAll registrations
    (∀ others : List Registration,
      let q := (Parser.ofFile file source).registerAll others
      (∀ token ∈ tokensIn file source, p.tables.AgreeAt q.tables token.kind) → p.SameProgram q) ∧
    ∀ more : List Registration,
      (∀ r ∈ more, ∀ token ∈ tokensIn file source, token.kind ≠ r.kind) →
        p.SameProgram (p.registerAll more) := by
  intro p
  have htokens : p.tokens = (Lexer.ofFile file source).stream := registerAll_tokens _ _
  constructor
  · intro others q h
    have hsame : q = p.withTables q.tables := registerAll_eq_withTables _ _ _
    rw [hsame]
    apply sameProgram_withTables
    rw [htokens]
    exact agreeOn_ofFile h
  · intro more h
    obtain ⟨hsame, hagree⟩ := p.registerAll_spec more
    rw [hsame]
    apply sameProgram_withTables
    rw [htokens]
    exact agreeOn_ofFile fun token ht => hagree token.kind fun r hr => h r hr token ht

/-- The assignment sign made an operator, and the unknown character a name: further operators, and
an assignment sign that is first given another power, make no difference. -/
theorem parseProgram_registered_assignment :
    let source := "a = b + c; @"
    let extended := (Parser.ofFile "shell" source).registerAll
      [.operator .assign ⟨.equals, .binary⟩, .prefixRule .illegal .identifier]
    let other := (Parser.ofFile "shell" source).registerAll
      [.operator .assign ⟨.call, .binaryLowest⟩, .prefixRule .illegal .identifier,
        .statement .star .binding, .operator .assign ⟨.equals, .binary⟩]
    let further := extended.registerAll
      [.operator .minus ⟨.call, .binary⟩, .statement .bang .result]
    extended.parseProgram.1.text = "(a = (b + c))@" ∧ extended.parseProgram.2.diagnostics = #[] ∧
      extended.SameProgram other ∧ extended.SameProgram further := by
  intro source extended other further
  obtain ⟨hagree, habsent⟩ := parseProgram_registered "shell" source
    [.operator .assign ⟨.equals, .binary⟩, .prefixRule .illegal .identifier]
  exact ⟨by decide +kernel, by decide +kernel, hagree _ (by decide +kernel),
    habsent _ (by decide +kernel)⟩

end Parser

end FrontEnd
