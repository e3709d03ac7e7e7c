import FrontEnd.Proofs.Rejection

/-!
# A rejected token is the first one that does not fit

A diagnostic that is not about nesting blames one token. What stands before that token can still be
completed to a statement, and what stands there together with it cannot: the statement fails in the
same way, whatever comes after. So nothing is blamed too early, and nothing too late.

* `Viable` — the beginnings of phrases.
* `TokenStream.token` — a token by its place, with the end of input repeated.
* `Diagnostic.PointsAt` — the token that a diagnostic is about.

Principal results: `Rejects.viable` and `Clause.Rejects.viable` (what has been read when a token is
rejected can be completed) and `parseStatement_correct_prefix`, which says both of every parser.
-/

namespace FrontEnd

open TokenStream

/-! ## Beginnings of phrases -/

/-- A name, which is all that it takes to complete what lacks an expression. -/
def Token.filler : Token := ⟨.identifier, "x", .null⟩

theorem derives_filler (l : Level) : Derives l [.filler] (.identifier .filler) :=
  (Derives.identifier rfl).loosen l.le_unary

/-- The tokens `v` can be completed to a phrase of the level `l` that nests in `levels` levels. -/
def Viable (l : Level) (levels : Nat) (v : List Token) : Prop :=
  ∃ w x, Derives l (v ++ w) x ∧ x.need ≤ levels

namespace Viable

variable {l : Level} {levels : Nat} {v : List Token}

theorem nil (l : Level) (levels : Nat) : Viable l (levels + 1) [] :=
  ⟨_, _, derives_filler l, Nat.le_add_left 1 levels⟩

theorem unary {operator : Token} (h : operator.kind = .minus ∨ operator.kind = .bang)
    (hv : Viable .unary levels v) : Viable l (levels + 1) (operator :: v) := by
  obtain ⟨w, x, hx, hneed⟩ := hv
  refine ⟨w, _, (Derives.unary h hx).loosen l.le_unary, ?_⟩
  rw [Phrase.need]
  omega

theorem group {opening : Token} (h : opening.kind = .openParen) (hv : Viable .equality levels v) :
    Viable l (levels + 1) (opening :: v) := by
  obtain ⟨w, x, hx, hneed⟩ := hv
  have hgroup : Derives .unary (opening :: (v ++ w ++ [⟨.closeParen, ")", .null⟩]))
      (.group opening x ⟨.closeParen, ")", .null⟩) := .group h hx rfl
  rw [List.append_assoc] at hgroup
  refine ⟨_, _, hgroup.loosen l.le_unary, ?_⟩
  rw [Phrase.need]
  omega

theorem of_derives {x : Phrase} (hx : Derives l v x) (hneed : x.need ≤ levels) :
    Viable l levels v := by
  refine ⟨[], x, ?_, hneed⟩
  rwa [List.append_nil]

theorem operand {cutoff : BindingPower} {operator : Token} {u : List Token} {x : Phrase}
    (hx : Derives l u x) (hneed : x.need ≤ levels + 1) (h : operator.kind ∈ l.operators)
    (hcut : cutoff < l.power) (hv : Viable (.above l.power) levels v) :
    Viable (.above cutoff) (levels + 1) (u ++ operator :: v) := by
  obtain ⟨w, y, hy, hneedy⟩ := hv
  rw [Level.above_power] at hy
  have hchain := (Derives.chain hx h hy).loosen (Level.above_le_of_lt hcut)
  refine ⟨w, .binary x operator y, ?_, ?_⟩
  · rw [List.append_assoc, List.cons_append]
    exact hchain
  · rw [Phrase.need]
    omega

end Viable

/-- What has been read of an expression when a token is rejected can be completed. -/
theorem Rejects.viable {levels : Nat} {cutoff : BindingPower} {v : List Token} {t : Token}
    {cause : Cause} (h : Rejects levels cutoff v t cause) : Viable (.above cutoff) levels v := by
  induction h with
  | first | integer => exact .nil _ _
  | unary h _ ih => exact .unary h ih
  | inner h _ ih => exact .group h ih
  | closing h hx hneed => exact .group h (.of_derives hx hneed)
  | operand hx hneed h hcut _ ih => exact .operand hx hneed h hcut ih

/-- What has been read of a statement when a token is rejected can be completed, to a clause that
ends with an expression. -/
theorem Clause.Rejects.viable {levels : Nat} (hlevels : 0 < levels) {v : List Token} {t : Token}
    {cause : Cause} (h : Clause.Rejects levels v t cause) :
    ∃ (w : List Token) (c : Clause) (x : Phrase), c.Valid ∧ c.value? = some x ∧ x.need ≤ levels ∧
      c.tokens = v ++ w := by
  have hvalue : ∀ {v : List Token} {t : Token} {cause : Cause},
      FrontEnd.Rejects levels .lowest v t cause →
        ∃ (w : List Token) (x : Phrase), Derives .equality x.tokens x ∧ x.need ≤ levels ∧
          x.tokens = v ++ w := by
    intro v t cause h
    obtain ⟨w, x, hx, hneed⟩ := h.viable
    refine ⟨w, x, ?_, hneed, hx.tokens_eq⟩
    rw [hx.tokens_eq]
    exact hx
  let sign : Token := ⟨.assign, "=", .null⟩
  have hfiller := derives_filler .equality
  cases h with
  | @name word _ hword _ =>
    exact ⟨[.filler, sign, .filler], .binding word .filler sign (.identifier .filler), _,
      .binding hword rfl rfl hfiller, rfl, hlevels, rfl⟩
  | @sign word given _ hword hgiven _ =>
    exact ⟨[sign, .filler], .binding word given sign (.identifier .filler), _,
      .binding hword hgiven rfl hfiller, rfl, hlevels, rfl⟩
  | @binding word given sign _ _ _ hword hgiven hsign hv =>
    obtain ⟨w, x, hx, hneed, htokens⟩ := hvalue hv
    refine ⟨w, .binding word given sign x, x, .binding hword hgiven hsign hx, rfl, hneed, ?_⟩
    rw [tokens_of_value rfl, htokens]
    rfl
  | @result word _ _ _ hword _ hv =>
    obtain ⟨w, x, hx, hneed, htokens⟩ := hvalue hv
    refine ⟨w, .result word (some x), x, .result hword ?_, rfl, hneed, ?_⟩
    · rintro _ ⟨⟩
      exact hx
    · rw [tokens_of_value rfl, htokens]
      rfl
  | expression _ hv =>
    obtain ⟨w, x, hx, hneed, htokens⟩ := hvalue hv
    refine ⟨w, .expression x, x, .expression hx, rfl, hneed, ?_⟩
    rw [tokens_of_value rfl, htokens]
    rfl

/-- A clause that ends with an expression, and is all that is left, is found and used up. -/
theorem Clause.Valid.run_alone {c : Clause} (h : c.Valid) {x : Phrase} (hx : c.value? = some x)
    {levels : Nat} (hneed : x.need ≤ levels) {s : TokenStream} (hs : s.pending = c.tokens) :
    ∃ statement,
      parseStmt .default levels s = .found statement (s.skip (s.pending.length - 1)) := by
  have hne := h.tokens_ne_nil
  have hend : (s.skip c.tokens.length).current.kind = .eof := by
    rw [current_of_nil]
    · rfl
    · rw [skip_pending, hs, List.drop_length]
  have hahead : c.Ahead s := by
    refine ⟨h, ⟨[], by rw [hs, List.append_nil]⟩, ?_⟩
    rw [hend, EndsBefore, hx]
    exact of_decide_eq_true rfl
  have hrest : c.rest s = s.skip (s.pending.length - 1) := by
    rw [rest, hx, hs]
    refine if_neg ?_
    rw [peek_skip_pred hne, hend]
    decide
  rw [← hrest]
  refine ⟨_, hahead.run fun y hy => ?_⟩
  obtain rfl : x = y := Option.some.inj (hx.symm.trans hy)
  exact hneed

/-! ## Tokens by place -/

/-- The token `k` places on, which is the end of input once the tokens are used up. -/
def TokenStream.token (s : TokenStream) (k : Nat) : Token := (s.skip k).current

/-- A stream that has the same tokens in the same places begins with them. -/
theorem TokenStream.Starts.of_token_eq {s s' : TokenStream} {v : List Token} (h : s.Starts v)
    (hv : ∀ t ∈ v, t.kind ≠ .eof) (hsame : ∀ k < v.length, s'.token k = s.token k) :
    s'.Starts v := by
  induction v generalizing s s' with
  | nil => exact List.nil_prefix
  | cons t v ih =>
    obtain ⟨ht, hv'⟩ := List.forall_mem_cons.1 hv
    have hcurrent : s'.current = t := by
      rw [← h.current_eq]
      exact hsame 0 (Nat.zero_lt_succ _)
    refine starts_cons.2 ⟨?_, ih (starts_cons.1 h).2 hv' fun k hk => ?_⟩
    · rw [← hcurrent]
      refine starts_current ?_
      rw [hcurrent]
      exact ht
    · have hnext := hsame (k + 1) (Nat.succ_lt_succ hk)
      rwa [token, token, Nat.add_comm, ← skip_skip, ← skip_skip] at hnext

/-- Whether the cause names the token. Too deep a nesting names none. -/
def Cause.Names (cause : Cause) (t : Token) : Prop :=
  match cause with
  | .unexpectedToken _ received text => received = t.kind ∧ text = t.text
  | .noPrefixRule kind text => kind = t.kind ∧ text = t.text
  | .badInteger text => t.kind = .integer ∧ text = t.text
  | .nestingTooDeep _ => False

/-- A diagnostic is about the token that it names, where it stands. -/
structure Diagnostic.PointsAt (d : Diagnostic) (t : Token) : Prop where
  names : d.cause.Names t
  position_eq : d.position = t.span.start

theorem Rejects.names {levels : Nat} {cutoff : BindingPower} {v : List Token} {t : Token}
    {cause : Cause} (h : Rejects levels cutoff v t cause) : cause.Names t := by
  induction h with
  | first | closing => exact ⟨rfl, rfl⟩
  | integer h => exact ⟨h, rfl⟩
  | unary _ _ ih | inner _ _ ih | operand _ _ _ _ _ ih => exact ih

theorem Clause.Rejects.names {levels : Nat} {v : List Token} {t : Token} {cause : Cause}
    (h : Clause.Rejects levels v t cause) : cause.Names t := by
  cases h with
  | name | sign => exact ⟨rfl, rfl⟩
  | binding _ _ _ hv | result _ _ hv | expression _ hv => exact hv.names

/-! ## Diagnostics of statements -/

/-- A parser at the beginning of a statement, with the rules of the language. -/
structure Parser.AtStatement (p : Parser) : Prop where
  tables_eq : p.tables = .default
  depth_eq : p.depth = 0

theorem Parser.AtStatement.parseStatement_eq {p : Parser} (h : p.AtStatement) :
    p.parseStatement = p.attempt (parseStmt .default maxNesting p.tokens) := by
  rw [parseStatement, levels, h.tables_eq, h.depth_eq]
  rfl

/-- **A diagnostic is about the first token that does not fit.** Let an attempt at a statement fail,
but for too deep a nesting. The diagnostic is about one token `j` places on, where the parser has
come to. The tokens before it can be completed: with some tokens after them, every attempt finds a
statement and uses all of them up. With the token itself they cannot: whatever comes next, every
attempt fails with the same diagnostic. -/
theorem parseStatement_correct_prefix {p q : Parser} {d : Diagnostic} (hp : p.AtStatement)
    (h : p.parseStatement = (.error d, q)) (hcause : ¬ d.cause.TooDeep) :
    ∃ j, j ≤ p.tokens.pending.length ∧ d.PointsAt (p.tokens.token j) ∧
      q.tokens.skip d.cause.ahead = p.tokens.skip j ∧
      (∃ w : List Token, (∀ t ∈ w, t.kind ≠ .eof) ∧
        ∀ p' : Parser, p'.AtStatement → p'.tokens.pending = p.tokens.pending.take j ++ w →
          ∃ statement q', p'.parseStatement = (.ok statement, q') ∧
            q'.tokens = p'.tokens.skip (p'.tokens.pending.length - 1)) ∧
      ∀ p' : Parser, p'.AtStatement → (∀ k ≤ j, p'.tokens.token k = p.tokens.token k) →
        ∃ q', p'.parseStatement = (.error d, q') := by
  rw [hp.parseStatement_eq] at h
  cases ho : parseStmt .default maxNesting p.tokens with
  | found statement r =>
    rw [ho] at h
    cases h
  | failed d' r =>
    rw [ho] at h
    cases h
    obtain ⟨v, t, hrejects, hv, ht, hposition, rfl⟩ := (parseStmt_failed_iff hcause).1 ho
    obtain rfl : p.tokens.token v.length = t := ht
    obtain ⟨w, c, x, hc, hx, hneed, htokens⟩ := hrejects.viable (by decide)
    have heof : ∀ t ∈ v ++ w, t.kind ≠ .eof := by
      rw [← htokens]
      exact fun t ht => (hc.kind_ne t ht).2
    have htake : p.tokens.pending.take v.length = v := (List.prefix_iff_eq_take.1 hv).symm
    refine ⟨v.length, hv.length_le, ?_, ?_, ⟨w, ?_, ?_⟩, ?_⟩
    · exact ⟨hrejects.names, hposition⟩
    · show (p.tokens.skip _).skip _ = _
      rw [skip_skip, Nat.sub_add_cancel hrejects.ahead_le]
    · exact fun t ht => heof t (List.mem_append_right _ ht)
    · intro p' hp' hpending
      rw [htake, ← htokens] at hpending
      obtain ⟨statement, hfound⟩ := hc.run_alone hx hneed hpending
      rw [hp'.parseStatement_eq, hfound]
      exact ⟨statement, _, rfl, rfl⟩
    · intro p' hp' hsame
      have hv' : p'.tokens.Starts v := hv.of_token_eq
        (fun t ht => heof t (List.mem_append_left _ ht)) fun k hk => hsame k (Nat.le_of_lt hk)
      have hfailed := hrejects.run hv' (hsame v.length (Nat.le_refl _))
      rw [← hposition] at hfailed
      rw [hp'.parseStatement_eq, hfailed]
      exact ⟨_, rfl⟩

/-- In `let a = (1;` the semicolon is blamed, and whatever comes after it, it stays so. -/
theorem parseStatement_correct_prefix_unclosed :
    let token := fun (kind : TokenKind) (text : String) => (⟨kind, text, .null⟩ : Token)
    let p : Parser :=
      { Parser.ofFile "shell" "" with
        tokens := ⟨[token .letWord "let", token .identifier "a", token .assign "=",
          token .openParen "(", token .integer "1", token .semicolon ";"], .null, 0⟩ }
    let d : Diagnostic := ⟨.unexpectedToken .closeParen .semicolon ";", .null⟩
    p.AtStatement ∧ ¬ d.cause.TooDeep ∧ ∃ q, p.parseStatement = (.error d, q) ∧
      q.tokens.passed = 4 ∧
      ∀ p' : Parser, p'.AtStatement → (∀ k ≤ 5, p'.tokens.token k = p.tokens.token k) →
        ∃ q', p'.parseStatement = (.error d, q') := by
  intro token p d
  have hp : p.AtStatement := ⟨rfl, rfl⟩
  have hcause : ¬ d.cause.TooDeep := by
    rintro ⟨_, hcause⟩
    cases hcause
  have hfailed : parseStmt .default maxNesting p.tokens = .failed d (p.tokens.skip 4) := by
    decide +kernel
  have hstatement : p.parseStatement = (.error d, p.moveTo (p.tokens.skip 4)) := by
    rw [hp.parseStatement_eq, hfailed]
    rfl
  obtain ⟨j, _, _, hj, _, hall⟩ := parseStatement_correct_prefix hp hstatement hcause
  obtain rfl : 5 = j := by
    have hpassed : 5 = 0 + j := congrArg TokenStream.passed hj
    omega
  exact ⟨hp, hcause, _, hstatement, rfl, hall⟩

end FrontEnd
