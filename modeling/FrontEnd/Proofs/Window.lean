import FrontEnd.Proofs.Balance
import FrontEnd.Proofs.Placement

/-!
# The window

A parser needs no list of its tokens: a lexer that has just read the second token of the window is
enough, since a step of the window reads one token more. Here such a window is moved in lock step
with a parser, by whatever is done with the parser, in whatever order, and whether it succeeds or
fails. The window counts how often it is moved; that number alone says which two tokens it holds and
where its lexer stands. So no token is passed over and none is read twice.

* `Lexer.pulled` — a lexer that tokens have been read from.
* `Window`, `Window.perform?` — two tokens and the lexer behind them, and what an action does to
  them.
* `Script.Drives` — a run of a script on a parser and a window at once.
* `Session` — a parser and a window after any actions and calls of procedures, and how often the
  window was moved.

Principal results: `Lexer.next?_pulled` (what a lexer reads, token by token),
`Window.perform?_after` (one action), `Script.Drives.after` (a run of a script) and
`Session.window` (any session).
-/

namespace FrontEnd

open TokenStream

/-! ## Reading a source token by token -/

namespace Lexer

/-- Reading a token uses up what stands between the cursor and the end of the token. -/
theorem scan_split (l : Lexer) :
    l.scan.2.file = l.file ∧ l.scan.2.cut = l.cut ∧ l.scan.2.position = l.scan.1.span.stop ∧
      ∃ read, l.rest = read ++ l.scan.2.rest ∧ l.scan.2.offset = l.offset + byteLength read := by
  have hblanks : l.rest = l.rest.takeWhile isBlank ++ l.skipBlanks.rest :=
    List.takeWhile_append_dropWhile.symm
  cases h : l.skipBlanks.rest with
  | nil =>
    rw [scan_of_nil h]
    exact ⟨rfl, rfl, rfl, _, hblanks, rfl⟩
  | cons c cs =>
    rw [scan_of_cons h]
    refine ⟨rfl, rfl, rfl, l.rest.takeWhile isBlank ++ (Lexeme.first c cs).text, ?_, ?_⟩
    · rw [List.append_assoc, past, Lexeme.first_text_append, ← h]
      exact hblanks
    · rw [byteLength_append, ← Nat.add_assoc]
      rfl

/-- Reading a token takes it from the tokens that are left. -/
theorem scan_stream (l : Lexer) :
    l.scan.1 = l.stream.current ∧ l.scan.2.stream = { l.stream.next with passed := 0 } := by
  obtain ⟨hfile, -, -, read, hrest, hoffset⟩ := l.scan_split
  have hend : l.scan.2.offset + byteLength l.scan.2.rest = l.offset + byteLength l.rest := by
    rw [hoffset, hrest, byteLength_append, Nat.add_assoc]
  rw [stream_eq, stream_eq, hfile, hend]
  suffices h : l.scan.1 = current ⟨l.tokens, .ofBytes l.file (l.offset + byteLength l.rest), 0⟩ ∧
      l.scan.2.tokens = l.tokens.tail by
    rw [h.2]
    exact ⟨h.1, rfl⟩
  have hscans := l.scans_tokens
  generalize l.tokens = ts at hscans ⊢
  cases hscans with
  | done h =>
    have hlength := l.byteLength_skipBlanks
    rw [h] at hlength
    have hposition : l.skipBlanks.position = .ofBytes l.file (l.offset + byteLength l.rest) := by
      rw [← hlength]
      rfl
    rw [scan_of_nil h, hposition]
    refine ⟨rfl, (Scans.done ?_).tokens_eq⟩
    show l.skipBlanks.rest.dropWhile isBlank = []
    rw [h, List.dropWhile_nil]
  | token h hs =>
    rw [scan_of_cons h]
    exact ⟨rfl, hs.tokens_eq⟩

/-- The cursor after that many tokens have been read, the end of input as often as it is asked. -/
def pulled (l : Lexer) : Nat → Lexer
  | 0 => l
  | n + 1 => (l.pulled n).scan.2

theorem pulled_file (l : Lexer) (n : Nat) : (l.pulled n).file = l.file := by
  induction n with
  | zero => rfl
  | succ n ih => exact (scan_split _).1.trans ih

theorem pulled_split (l : Lexer) (n : Nat) :
    (l.pulled n).cut = l.cut ∧
      ∃ read, l.rest = read ++ (l.pulled n).rest ∧
        (l.pulled n).offset = l.offset + byteLength read := by
  induction n with
  | zero => exact ⟨rfl, [], rfl, rfl⟩
  | succ n ih =>
    obtain ⟨hcut, read, hrest, hoffset⟩ := ih
    obtain ⟨-, hcut', -, read', hrest', hoffset'⟩ := (l.pulled n).scan_split
    refine ⟨hcut'.trans hcut, read ++ read', ?_, ?_⟩
    · rw [List.append_assoc, hrest, hrest']
      rfl
    · rw [byteLength_append, ← Nat.add_assoc, ← hoffset]
      exact hoffset'

theorem pulled_stream (l : Lexer) (n : Nat) :
    (l.pulled n).stream = { l.stream.skip n with passed := 0 } := by
  induction n with
  | zero =>
    rw [pulled, stream_eq]
    rfl
  | succ n ih =>
    rw [pulled, (l.pulled n).scan_stream.2, ih, ← next_skip]
    rfl

theorem scan_pulled (l : Lexer) (n : Nat) : (l.pulled n).scan.1 = l.stream.token n := by
  rw [(scan_stream _).1, pulled_stream]
  rfl

theorem position_pulled (l : Lexer) (n : Nat) :
    (l.pulled (n + 1)).position = (l.stream.token n).span.stop := by
  rw [← scan_pulled]
  exact (scan_split _).2.2.1

/-- The tokens that are left are read in order, each once, and then the end of input for ever. -/
theorem next?_pulled {l : Lexer} (hcut : l.cut = 0) (n : Nat) :
    (l.pulled n).next? = some (l.stream.token n, l.pulled (n + 1)) := by
  rw [next?, if_pos ((l.pulled_split n).1.trans hcut), ← scan_pulled]
  rfl

/-- The lexer has read the source up to the end of the token, and nothing after it. -/
structure StandsAfter (l : Lexer) (source : String) (t : Token) : Prop where
  cut_eq : l.cut = 0
  offset_eq : l.offset = t.stop
  split : ∃ read, source.toList = read ++ l.rest ∧ byteLength read = t.stop

theorem pulled_standsAfter (file : String) {source : String}
    (hsize : source.utf8ByteSize < UInt32.size) (n : Nat) :
    ((ofFile file source).pulled (n + 1)).StandsAfter source (endless file source n) := by
  obtain ⟨hcut, read, hrest, hoffset⟩ := (ofFile file source).pulled_split (n + 1)
  have hread : ((ofFile file source).pulled (n + 1)).offset = byteLength read := by
    rw [hoffset]
    exact Nat.zero_add _
  have hle : byteLength read ≤ source.utf8ByteSize := by
    rw [← byteLength_toList source, show source.toList = _ from hrest, byteLength_append]
    exact Nat.le_add_right _ _
  have hstop : (endless file source n).stop = byteLength read := by
    rw [Token.stop, endless_eq_token, ← position_pulled, position, ← hread]
    rw [← hread] at hle
    exact Position.toNat_offset_ofBytes _ (Nat.lt_of_le_of_lt hle hsize)
  exact ⟨hcut, hread.trans hstop.symm, read, hrest, hstop.symm⟩

end Lexer

/-! ## The window -/

/-- Two tokens, and the lexer that they were read from. -/
structure Window where
  lexer : Lexer
  current : Token
  peek : Token

namespace Window

def ofLexer? (l : Lexer) : Option Window :=
  l.next?.bind fun (current, l) => l.next?.map fun (peek, l) => ⟨l, current, peek⟩

def advance? (w : Window) : Option Window :=
  w.lexer.next?.map fun (token, l) => ⟨l, w.peek, token⟩

/-- How often an action moves the window, and the window after it. -/
def perform? (w : Window) (action : Action) : Option (Nat × Window) :=
  match action with
  | .advance => w.advance?.map (1, ·)
  | .expectPeek kind => if w.peek.kind = kind then w.advance?.map (1, ·) else some (0, w)
  | _ => some (0, w)

/-- The window on token `k` of those that a lexer has yet to read, and the one after it. -/
def after (l : Lexer) (k : Nat) : Window :=
  ⟨l.pulled (k + 2), l.stream.token k, l.stream.token (k + 1)⟩

/-- The window on token `k` of a source and the one after it. -/
def numbered (file source : String) (k : Nat) : Window :=
  ⟨(Lexer.ofFile file source).pulled (k + 2), endless file source k, endless file source (k + 1)⟩

theorem numbered_eq_after (file source : String) (k : Nat) :
    numbered file source k = after (.ofFile file source) k := by
  rw [numbered, endless_eq_token, endless_eq_token]
  rfl

theorem ofLexer?_of_cut {l : Lexer} (hcut : l.cut = 0) : ofLexer? l = some (after l 0) := by
  have hfirst : l.next? = _ := Lexer.next?_pulled hcut 0
  have hsecond := Lexer.next?_pulled hcut 1
  simp only [ofLexer?, hfirst, Option.bind_some, hsecond, Option.map_some]
  rfl

theorem ofLexer?_ofFile (file source : String) :
    ofLexer? (Lexer.ofFile file source) = some (numbered file source 0) := by
  rw [numbered_eq_after]
  exact ofLexer?_of_cut rfl

theorem advance?_after {l : Lexer} (hcut : l.cut = 0) (k : Nat) :
    (after l k).advance? = some (after l (k + 1)) := by
  rw [advance?, after, Lexer.next?_pulled hcut]
  rfl

end Window

/-- The parser stands on token `k` of those that the lexer had yet to read. -/
def Parser.At (l : Lexer) (k : Nat) (p : Parser) : Prop := p.tokens = l.stream.skip k

theorem Parser.At.current_eq {l : Lexer} {k : Nat} {p : Parser} (h : p.At l k) :
    p.tokens.current = l.stream.token k := by
  rw [h]
  rfl

theorem Parser.At.peek_eq {l : Lexer} {k : Nat} {p : Parser} (h : p.At l k) :
    p.tokens.peek = l.stream.token (k + 1) := by
  rw [h, ← current_next, next_skip]
  rfl

def Parser.On (file source : String) (k : Nat) (p : Parser) : Prop :=
  p.tokens = (Lexer.ofFile file source).stream.skip k

theorem Parser.On.current_eq {file source : String} {k : Nat} {p : Parser}
    (h : p.On file source k) : p.tokens.current = endless file source k := by
  rw [endless_eq_token]
  exact Parser.At.current_eq h

theorem Parser.On.peek_eq {file source : String} {k : Nat} {p : Parser}
    (h : p.On file source k) : p.tokens.peek = endless file source (k + 1) := by
  rw [endless_eq_token]
  exact Parser.At.peek_eq h

/-- **One action** on a parser and on its window. -/
theorem Window.perform?_after {l : Lexer} (hcut : l.cut = 0) {k : Nat} {p : Parser}
    (h : p.At l k) (action : Action) :
    ∃ n, (after l k).perform? action = some (n, after l (k + n)) ∧
      (action.perform p).2.At l (k + n) := by
  have hadvance : p.advance.At l (k + 1) := by
    show p.tokens.next = _
    rw [h, next_skip]
  cases action with
  | advance =>
    refine ⟨1, ?_, hadvance⟩
    rw [perform?, advance?_after hcut]
    rfl
  | expectPeek kind =>
    by_cases hkind : (l.stream.token (k + 1)).kind = kind
    · refine ⟨1, ?_, ?_⟩
      · rw [perform?, advance?_after hcut]
        exact if_pos hkind
      · show (p.tokens.expectPeek kind).rest = _
        rw [expectPeek, if_pos (by rw [h.peek_eq, hkind])]
        exact hadvance
    · refine ⟨0, if_neg hkind, ?_⟩
      show (p.tokens.expectPeek kind).rest = _
      rw [expectPeek, if_neg (by rw [h.peek_eq]; exact hkind)]
      exact h
  | enterNesting =>
    refine ⟨0, rfl, ?_⟩
    simp only [Action.perform, Parser.enterNesting]
    by_cases hlt : p.depth < maxNesting
    · rw [if_pos hlt]
      exact h
    · rw [if_neg hlt]
      exact h
  | exitNesting | resetTables | setStatement | setPrefix | setOperator | note | report
  | clearDiagnostics => exact ⟨0, rfl, h⟩

theorem Window.perform?_numbered {file source : String} {k : Nat} {p : Parser}
    (h : p.On file source k) (action : Action) :
    ∃ n, (numbered file source k).perform? action = some (n, numbered file source (k + n)) ∧
      (action.perform p).2.On file source (k + n) := by
  simp only [numbered_eq_after]
  exact perform?_after rfl h action

/-! ## Parser and window in lock step -/

namespace Script

/-- The script, begun with a parser and a window, ends with a result and with the parser and the
window after it. Its actions, those of the procedures it calls included, move the window `n` times
in all. -/
inductive Drives : {α : Type} →
    Script α → Parser → Window → Except Diagnostic α → Parser → Window → Nat → Prop where
  | answer {α : Type} (result : Except Diagnostic α) (p : Parser) (w : Window) :
      Drives (.answer result) p w result p w 0
  | look {α : Type} {go : Parser → Script α} {p q : Parser} {w w' : Window}
      {result : Except Diagnostic α} {n : Nat} (h : Drives (go p) p w result q w' n) :
      Drives (.look go) p w result q w' n
  | act {α : Type} {action : Action} {go : Except Diagnostic Unit → Script α} {p q : Parser}
      {w w' w'' : Window} {result : Except Diagnostic α} {m n : Nat}
      (hw : w.perform? action = some (m, w'))
      (h : Drives (go (action.perform p).1) (action.perform p).2 w' result q w'' n) :
      Drives (.act action go) p w result q w'' (m + n)
  | call {α : Type} {procedure : Procedure} {go : Except Diagnostic procedure.Answer → Script α}
      {p q r : Parser} {w w' w'' : Window} {result : Except Diagnostic procedure.Answer}
      {result' : Except Diagnostic α} {m n : Nat}
      (h : Drives procedure.body p w result q w' m) (h' : Drives (go result) q w' result' r w'' n) :
      Drives (.call procedure go) p w result' r w'' (m + n)

namespace Drives

variable {α : Type} {x : Script α} {p q : Parser} {w w' : Window} {result : Except Diagnostic α}
  {n : Nat}

/-- What happens to the parser does not depend on the window. -/
theorem runs (h : x.Drives p w result q w' n) : ∃ moments, x.Runs p result q moments := by
  induction h with
  | answer result p w => exact ⟨[], .answer result p⟩
  | look _ ih => exact ih.imp fun _ hruns => .look hruns
  | act _ _ ih =>
    obtain ⟨moments, hruns⟩ := ih
    exact ⟨_, .act hruns⟩
  | call _ _ ih ihgo =>
    obtain ⟨moments, hruns⟩ := ih
    obtain ⟨moments', hruns'⟩ := ihgo
    exact ⟨_, .call hruns hruns'⟩

variable {l : Lexer} {k : Nat}

/-- **A run of a script** moves parser and window on by the same number of tokens. -/
theorem after (h : x.Drives p w result q w' n) (hcut : l.cut = 0) (hp : p.At l k)
    (hw : w = .after l k) : w' = .after l (k + n) ∧ q.At l (k + n) := by
  induction h generalizing k with
  | answer => exact ⟨hw, hp⟩
  | look _ ih => exact ih hp hw
  | @act _ action _ p _ _ _ _ _ m n hperform _ ih =>
    subst hw
    obtain ⟨m', hmoved, hat⟩ := Window.perform?_after hcut hp action
    obtain ⟨rfl, rfl⟩ := Prod.mk.inj (Option.some.inj (hperform.symm.trans hmoved))
    rw [← Nat.add_assoc]
    exact ih hat rfl
  | call _ _ ih ihgo =>
    obtain ⟨hw', hq⟩ := ih hp hw
    rw [← Nat.add_assoc]
    exact ihgo hq hw'

/-- The window follows every run of a script on the parser. -/
theorem of_runs_at {moments : List Parser} (h : x.Runs p result q moments) (hcut : l.cut = 0)
    (hp : p.At l k) : ∃ w' n, x.Drives p (.after l k) result q w' n := by
  induction h generalizing k with
  | answer result p => exact ⟨_, 0, .answer result p _⟩
  | look _ ih =>
    obtain ⟨w', n, hdrives⟩ := ih hp
    exact ⟨w', n, .look hdrives⟩
  | @act _ action _ _ _ _ _ _ ih =>
    obtain ⟨m, hmoved, hat⟩ := Window.perform?_after hcut hp action
    obtain ⟨w', n, hdrives⟩ := ih hat
    exact ⟨w', m + n, .act hmoved hdrives⟩
  | call _ _ ih ihgo =>
    obtain ⟨w', m, hdrives⟩ := ih hp
    obtain ⟨rfl, hq⟩ := hdrives.after hcut hp rfl
    obtain ⟨w'', n, hdrives'⟩ := ihgo hq
    exact ⟨w'', m + n, .call hdrives hdrives'⟩

theorem of_runs {file source : String} {moments : List Parser} (h : x.Runs p result q moments)
    (hp : p.On file source k) : ∃ w' n, x.Drives p (.numbered file source k) result q w' n := by
  rw [Window.numbered_eq_after]
  exact of_runs_at h rfl hp

end Drives

end Script

/-! ## Sessions -/

/-- A parser and a window, begun on a source that nothing was read from, after any actions but
making the end of input an operator, and after calls of any procedures, whatever their result. The
window was moved `n` times in all. -/
inductive Session (file source : String) : Nat → Parser → Window → Prop where
  | start {w : Window} (hw : Window.ofLexer? (.ofFile file source) = some w) :
      Session file source 0 (.ofFile file source) w
  | act {m n : Nat} {p : Parser} {w w' : Window} (action : Action) (h : Session file source n p w)
      (hop : ∀ op, action ≠ .setOperator .eof op) (hw : w.perform? action = some (m, w')) :
      Session file source (n + m) (action.perform p).2 w'
  | call {m n : Nat} {p q : Parser} {w w' : Window} {procedure : Procedure}
      {result : Except Diagnostic procedure.Answer} (h : Session file source n p w)
      (hdrives : procedure.body.Drives p w result q w' m) : Session file source (n + m) q w'

namespace Session

variable {file source : String} {n : Nat} {p : Parser} {w : Window}

theorem reachable (h : Session file source n p w) : p.Reachable := by
  induction h with
  | start => exact .start (l := .ofFile file source) rfl
  | act action _ hop _ ih => exact .act action ih hop
  | call _ hdrives ih =>
    obtain ⟨moments, hruns⟩ := hdrives.runs
    exact .call ih hruns

theorem numbered (h : Session file source n p w) :
    w = .numbered file source n ∧ p.On file source n := by
  induction h with
  | start hw =>
    rw [Window.ofLexer?_ofFile] at hw
    exact ⟨(Option.some.inj hw).symm, rfl⟩
  | act action _ _ hw ih =>
    obtain ⟨rfl, hon⟩ := ih
    obtain ⟨m, hmoved, hon'⟩ := Window.perform?_numbered hon action
    obtain ⟨rfl, rfl⟩ := Prod.mk.inj (Option.some.inj (hw.symm.trans hmoved))
    exact ⟨rfl, hon'⟩
  | call _ hdrives ih =>
    rw [Window.numbered_eq_after] at ih ⊢
    exact hdrives.after rfl ih.2 ih.1

/-- **The window invariant.** After any session on a source of less than four gibibytes in which the
window was moved `n` times, parser and window hold tokens `n` and `n + 1` of the source, and the
lexer stands right after the latter. The session can go on with any action and any procedure: each
is carried out on the window too, so that the result is a session in which the window was moved as
often as the action or the procedure moves it. Expecting a token that does not come next fails, and
moves nothing. -/
theorem window (hsize : source.utf8ByteSize < UInt32.size) (h : Session file source n p w) :
    (p.tokens.current = endless file source n ∧ p.tokens.peek = endless file source (n + 1)) ∧
      (w.current = p.tokens.current ∧ w.peek = p.tokens.peek ∧
        w.lexer.StandsAfter source (endless file source (n + 1))) ∧
      p.tokens.passed = n ∧
      (∀ action, (∀ op, action ≠ .setOperator .eof op) → ∃ m w',
        w.perform? action = some (m, w') ∧ Session file source (n + m) (action.perform p).2 w') ∧
      (∀ procedure : Procedure, ∃ result q w' m, (result, q) = procedure.eval p ∧
        procedure.body.Drives p w result q w' m ∧ Session file source (n + m) q w') ∧
      ∀ kind, w.peek.kind ≠ kind → w.perform? (.expectPeek kind) = some (0, w) ∧
        (Action.expectPeek kind).perform p =
          (.error ⟨.unexpectedToken kind w.peek.kind w.peek.text, w.peek.span.start⟩, p) := by
  obtain ⟨rfl, hon⟩ := h.numbered
  refine ⟨⟨hon.current_eq, hon.peek_eq⟩, ⟨hon.current_eq.symm, hon.peek_eq.symm, ?_⟩, ?_,
    fun action hop => ?_, fun procedure => ?_, fun kind hkind => ?_⟩
  · exact Lexer.pulled_standsAfter file hsize (n + 1)
  · rw [show p.tokens = _ from hon, stream_ofFile]
    exact Nat.zero_add n
  · obtain ⟨m, hmoved, -⟩ := Window.perform?_numbered hon action
    exact ⟨m, _, hmoved, h.act action hop hmoved⟩
  · obtain ⟨moments, hruns, -⟩ := Procedure.ends h.reachable.orderly.operator_eof procedure
    obtain ⟨w', m, hdrives⟩ := Script.Drives.of_runs hruns hon
    exact ⟨_, _, w', m, rfl, hdrives, h.call hdrives⟩
  · refine ⟨if_neg hkind, ?_⟩
    rw [Window.numbered, ← hon.peek_eq] at hkind ⊢
    show p.attempt (p.tokens.expectPeek kind) = _
    rw [expectPeek, if_neg hkind, Parser.attempt]
    simp only [Outcome.result, Outcome.rest, Parser.moveTo_self]

/-- A statement that fails where an assignment sign should come next has moved the window once. -/
theorem window_after_failed_let :
    let source := "let x 5;"
    source.utf8ByteSize < UInt32.size ∧ ∃ p w, Session "shell" source 1 p w ∧
      p.tokens.current.text = "x" ∧ w.current.text = "x" ∧ w.peek.text = "5" ∧
      w.lexer.offset = 7 ∧
      w.perform? (.expectPeek .assign) = some (0, w) := by
  intro source
  have hsize : source.utf8ByteSize < UInt32.size := by decide +kernel
  obtain ⟨-, -, -, -, hcall, -⟩ := window hsize (.start (Window.ofLexer?_ofFile "shell" source))
  obtain ⟨result, q, w, m, heval, -, hsession⟩ := hcall .statement
  obtain ⟨⟨hcurrent, hpeek⟩, ⟨hcurrent', hpeek', hlexer⟩, hpassed, -, -, hfails⟩ :=
    window hsize hsession
  have hone : q.tokens.passed = 1 := by
    obtain rfl := congrArg Prod.snd heval
    decide +kernel
  rw [← hpassed, hone] at hsession hcurrent hpeek hlexer
  refine ⟨hsize, q, w, hsession, ?_, ?_, ?_, ?_, (hfails .assign ?_).1⟩
  · rw [hcurrent]
    decide +kernel
  · rw [hcurrent', hcurrent]
    decide +kernel
  · rw [hpeek', hpeek]
    decide +kernel
  · rw [hlexer.offset_eq]
    decide +kernel
  · rw [hpeek', hpeek]
    decide +kernel

end Session

end FrontEnd
