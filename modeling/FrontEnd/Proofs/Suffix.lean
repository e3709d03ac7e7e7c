import FrontEnd.Proofs.Cursor

/-!
# Parsing from the middle of a source

A parser may be begun wherever a lexer has come to a boundary of its source. It then parses what is
behind the boundary as if that were a source of its own, only further on, and the lexer never gets
to a place where no token can be read, whatever is done with the parser.

A procedure may have no end, if the end of input was made an operator; so it is not enough to look
at the runs that have one.

* `Script.Panics` — a script comes to an action that the window cannot follow.
* `Course` — a parser and a window after any actions and calls of procedures.
* `NeverPanics` — no course leads to a place where no token can be read.

Principal results: `Script.Panics.false_of_after` (no script panics at a boundary),
`neverPanics_of_cut` (nor does any course) and `Lexer.Reachable.reads_suffix` (what a cursor reads,
and what a parser makes of it).
-/

namespace FrontEnd

open TokenStream

namespace Script

/-- The script, begun with a parser and a window, comes to an action that the window cannot follow,
as no token can be read where its lexer stands. -/
inductive Panics : {α : Type} → Script α → Parser → Window → Prop where
  | stuck {α : Type} {action : Action} {go : Except Diagnostic Unit → Script α} {p : Parser}
      {w : Window} (hw : w.perform? action = none) : Panics (.act action go) p w
  | look {α : Type} {go : Parser → Script α} {p : Parser} {w : Window} (h : Panics (go p) p w) :
      Panics (.look go) p w
  | act {α : Type} {action : Action} {go : Except Diagnostic Unit → Script α} {p : Parser}
      {w w' : Window} {m : Nat} (hw : w.perform? action = some (m, w'))
      (h : Panics (go (action.perform p).1) (action.perform p).2 w') : Panics (.act action go) p w
  | enter {α : Type} {procedure : Procedure} {go : Except Diagnostic procedure.Answer → Script α}
      {p : Parser} {w : Window} (h : Panics procedure.body p w) : Panics (.call procedure go) p w
  | call {α : Type} {procedure : Procedure} {go : Except Diagnostic procedure.Answer → Script α}
      {p q : Parser} {w w' : Window} {result : Except Diagnostic procedure.Answer} {m : Nat}
      (h : Drives procedure.body p w result q w' m) (h' : Panics (go result) q w') :
      Panics (.call procedure go) p w

/-- **No script panics** on a parser and a window that hold the same tokens. -/
theorem Panics.false_of_after {α : Type} {x : Script α} {p : Parser} {w : Window}
    (h : x.Panics p w) {l : Lexer} (hcut : l.cut = 0) {k : Nat} (hp : p.At l k)
    (hw : w = .after l k) : False := by
  induction h generalizing k with
  | @stuck _ action _ p _ hnone =>
    obtain ⟨m, hmoved, -⟩ := Window.perform?_after hcut hp action
    rw [hw, hmoved] at hnone
    cases hnone
  | look _ ih => exact ih hp hw
  | @act _ action _ p _ _ _ hperform _ ih =>
    subst hw
    obtain ⟨m, hmoved, hat⟩ := Window.perform?_after hcut hp action
    obtain ⟨-, rfl⟩ := Prod.mk.inj (Option.some.inj (hperform.symm.trans hmoved))
    exact ih hat rfl
  | enter _ ih => exact ih hp hw
  | call hdrives _ ih =>
    obtain ⟨hw', hq⟩ := hdrives.after hcut hp hw
    exact ih hq hw'

end Script

/-- A parser and a window, begun as `p₀` and `w₀`, after any actions, and after calls of any
procedures, whatever their result. -/
inductive Course (p₀ : Parser) (w₀ : Window) : Parser → Window → Prop where
  | start : Course p₀ w₀ p₀ w₀
  | act {p : Parser} {w w' : Window} {m : Nat} (action : Action) (h : Course p₀ w₀ p w)
      (hw : w.perform? action = some (m, w')) : Course p₀ w₀ (action.perform p).2 w'
  | call {p q : Parser} {w w' : Window} {m : Nat} {procedure : Procedure}
      {result : Except Diagnostic procedure.Answer} (h : Course p₀ w₀ p w)
      (hdrives : procedure.body.Drives p w result q w' m) : Course p₀ w₀ q w'

theorem Course.exists_after {l : Lexer} (hcut : l.cut = 0) {p₀ p : Parser} {w : Window}
    (h : Course p₀ (.after l 0) p w) (hp₀ : p₀.At l 0) : ∃ k, w = .after l k ∧ p.At l k := by
  induction h with
  | start => exact ⟨0, rfl, hp₀⟩
  | act action _ hw ih =>
    obtain ⟨k, rfl, hat⟩ := ih
    obtain ⟨m, hmoved, hat'⟩ := Window.perform?_after hcut hat action
    obtain ⟨-, rfl⟩ := Prod.mk.inj (Option.some.inj (hw.symm.trans hmoved))
    exact ⟨k + m, rfl, hat'⟩
  | call _ hdrives ih =>
    obtain ⟨k, rfl, hat⟩ := ih
    exact ⟨_, hdrives.after hcut hat rfl⟩

/-- Whatever was done with the parser and its window, the window can follow every action, and no
procedure panics, be it in a run without an end. There is an end if the end of input is no operator,
with what the functions of the parser answer. -/
def NeverPanics (p₀ : Parser) (w₀ : Window) : Prop :=
  ∀ p w, Course p₀ w₀ p w →
    (∀ action : Action, ∃ m w', w.perform? action = some (m, w')) ∧
      ∀ procedure : Procedure, ¬ procedure.body.Panics p w ∧
        (p.tables.operator .eof = none → ∃ result q w' m, (result, q) = procedure.eval p ∧
          procedure.body.Drives p w result q w' m)

/-- **A parser that is begun at a boundary never panics.** -/
theorem neverPanics_of_cut {l : Lexer} (hcut : l.cut = 0) {p₀ : Parser} (hp₀ : p₀.At l 0) :
    NeverPanics p₀ (.after l 0) := by
  intro p w hcourse
  obtain ⟨k, rfl, hat⟩ := hcourse.exists_after hcut hp₀
  refine ⟨fun action => ?_, fun procedure => ⟨fun hpanics => ?_, fun heof => ?_⟩⟩
  · obtain ⟨m, hmoved, -⟩ := Window.perform?_after hcut hat action
    exact ⟨m, _, hmoved⟩
  · exact hpanics.false_of_after hcut hat rfl
  · obtain ⟨moments, hruns, -⟩ := Procedure.ends heof procedure
    obtain ⟨w', m, hdrives⟩ := Script.Drives.of_runs_at hruns hcut hat
    exact ⟨_, _, w', m, rfl, hdrives⟩

/-- A parser that is begun further on finds the same, further on. -/
theorem parseProgram_shift (l : Lexer) (bytes : Nat) :
    let p := Parser.ofLexer { l with offset := bytes + l.offset }
    let q := Parser.ofLexer l
    p.parseProgram.1.statements =
        q.parseProgram.1.statements.map (Stmt.relocate (Position.shift bytes)) ∧
      p.parseProgram.2.diagnostics.toList =
        q.parseProgram.2.diagnostics.toList.map (Diagnostic.relocate (Position.shift bytes)) := by
  intro p q
  have hrounds : p.tokens.rounds p.tables p.levels =
      (q.tokens.rounds q.tables q.levels).map (relocateItem (Position.shift bytes)) := by
    rw [show p.tokens = l.stream.relocate (Position.shift bytes) 0 from l.stream_shift bytes]
    exact rounds_relocate _ 0 maxNesting l.stream
  obtain ⟨hstatements, hdiagnostics⟩ := p.parseProgram_eq
  obtain ⟨hstatements', hdiagnostics'⟩ := q.parseProgram_eq
  rw [hstatements, hdiagnostics, hrounds, statementsOf_relocate, diagnosticsOf_relocate,
    hstatements', hdiagnostics', List.map_append]
  exact ⟨rfl, rfl⟩

namespace Lexer.Reachable

variable {file source : String} {l : Lexer}

/-- **A cursor reads what a cursor of its own reads of the text behind it.** However the cursor came
to its count of bytes, nothing can be read exactly if that is inside the source and no boundary of
it, and then the loop that reads stops where it began; else the loop reads what the cursor says.
From the end of the source on the cursor reads the end of input, and stays.
At a boundary it reads the first token of the text behind the boundary, moved by its count of bytes,
and comes to another boundary. A parser that is begun there never panics, and its program and its
diagnostics are those of the text behind the boundary, moved likewise. -/
theorem reads_suffix (h : l.Reachable file source) :
    (l.next? = none ↔
        l.offset < source.utf8ByteSize ∧ ¬ String.Pos.Raw.IsValid source ⟨l.offset⟩) ∧
      (l.next? = none → l.read = (none, l)) ∧
      (∀ t m, l.next? = some (t, m) → l.read = (some t, m)) ∧
      (source.utf8ByteSize ≤ l.offset →
        l.next? = some (.endOfInput (.ofBytes file l.offset), l)) ∧
      ∀ before after, source = before ++ after → l.offset = before.utf8ByteSize →
        (∃ t m l', (ofFile file after).next? = some (t, m) ∧
          l.next? = some (t.relocate (Position.shift l.offset), l') ∧
          l'.offset = l.offset + m.offset ∧ String.Pos.Raw.IsValid source ⟨l'.offset⟩) ∧
        ∃ p w, Parser.ofLexer? l = some p ∧ Window.ofLexer? l = some w ∧ NeverPanics p w ∧
          p.parseProgram.1.statements = (parseFile file after).1.statements.map
            (Stmt.relocate (Position.shift l.offset)) ∧
          p.parseProgram.2.diagnostics.toList =
            (parseFile file after).2.map (Diagnostic.relocate (Position.shift l.offset)) := by
  have hnone : l.next? = none ↔ l.cut ≠ 0 := by simp [next?]
  refine ⟨?_, read_of_none, fun _ _ => read_of_some, fun hsize => ?_,
    fun before after hsource hoffset => ?_⟩
  · rw [hnone, ne_eq, h.cut_eq_zero_iff, not_or, Nat.not_le]
  · have hl := h.eq_of_size_le hsize
    rw [hl]
    rfl
  · subst hsource
    have hl := h.eq_of_append hoffset
    have hcut : l.cut = 0 := by rw [hl]
    have hmoved : l = { ofFile file after with
        offset := before.utf8ByteSize + (ofFile file after).offset } := hl
    rw [hoffset]
    constructor
    · obtain ⟨-, -, -, read, hread, hbehind⟩ := l.scan_split
      have hscan := (ofFile file after).scan_shift before.utf8ByteSize
      rw [← hmoved] at hscan
      refine ⟨(ofFile file after).scan.1, (ofFile file after).scan.2, l.scan.2, rfl, ?_, ?_,
        isValid_iff_toList.2 ⟨before.toList ++ read, l.scan.2.rest, ?_, ?_⟩⟩
      · rw [next?, if_pos hcut, hscan]
      · rw [hscan]
      · rw [String.toList_append, List.append_assoc, ← hread, hl]
      · rw [hbehind, hoffset, byteLength_append, byteLength_toList]
    · obtain ⟨hstatements, hdiagnostics⟩ :=
        parseProgram_shift (ofFile file after) before.utf8ByteSize
      rw [← hmoved] at hstatements hdiagnostics
      exact ⟨.ofLexer l, .after l 0, if_pos hcut, Window.ofLexer?_of_cut hcut,
        neverPanics_of_cut hcut rfl, hstatements, hdiagnostics⟩

/-- A cursor that is stuck in a character is moved on by hand, to a parenthesis that nothing can
begin with, and then past four gibibytes. -/
theorem reads_suffix_past_character :
    let source := "é;x)"
    let inside := (ofFile "shell" source).advance 1
    let behind := inside.read.2.advance 2
    let beyond := behind.advance 4294967300
    inside.Reachable "shell" source ∧ inside.next? = none ∧ inside.read = (none, inside) ∧
      behind.Reachable "shell" source ∧ source = "é;" ++ "x)" ∧
      behind.offset = "é;".utf8ByteSize ∧
      behind.next?.map Prod.fst = some ⟨.identifier, "x", .ofBytes "shell" (3, 4)⟩ ∧
      (∃ p w, Parser.ofLexer? behind = some p ∧ NeverPanics p w ∧
        p.parseProgram.1.statements.map Stmt.text = ["x"] ∧
        p.parseProgram.2.diagnostics.toList =
          [⟨.noPrefixRule .closeParen ")", .ofBytes "shell" 4⟩]) ∧
      beyond.Reachable "shell" source ∧ source.utf8ByteSize ≤ beyond.offset ∧
      beyond.next? = some (.endOfInput ⟨7, "shell"⟩, beyond) := by
  intro source inside behind beyond
  have hinside : inside.Reachable "shell" source := .advance 1 .start
  have hbehind : behind.Reachable "shell" source := .advance 2 (.read hinside)
  have hbeyond : beyond.Reachable "shell" source := .advance 4294967300 hbehind
  have hsplit : source = "é;" ++ "x)" := by decide +kernel
  obtain ⟨-, hstays, -⟩ := reads_suffix hinside
  obtain ⟨-, -, -, -, hsuffix⟩ := reads_suffix hbehind
  obtain ⟨-, -, -, hend, -⟩ := reads_suffix hbeyond
  have hstuck : inside.next? = none := by decide +kernel
  have hmoved : behind = inside.advance 2 :=
    congrArg (fun read : Option Token × Lexer => read.2.advance 2) (hstays hstuck)
  have hoffset : behind.offset = "é;".utf8ByteSize := by
    rw [hmoved]
    decide +kernel
  have hsize : source.utf8ByteSize ≤ beyond.offset := by
    show source.utf8ByteSize ≤ (behind.advance 4294967300).offset
    rw [hmoved]
    decide +kernel
  obtain ⟨⟨t, m, l, htoken, hnext, -⟩, p, w, hp, -, hpanics, hstatements, hdiagnostics⟩ :=
    hsuffix "é;" "x)" hsplit hoffset
  have hfirst : (ofFile "shell" "x)").next?.map Prod.fst =
      some ⟨.identifier, "x", .ofBytes "shell" (0, 1)⟩ := by decide +kernel
  rw [htoken] at hfirst
  obtain rfl : t = _ := Option.some.inj hfirst
  refine ⟨hinside, hstuck, hstays hstuck, hbehind, hsplit, hoffset, ?_,
    ⟨p, w, hp, hpanics, ?_, ?_⟩, hbeyond, hsize, (hend hsize).trans ?_⟩
  · have hmoved : Token.relocate (Position.shift "é;".utf8ByteSize)
        ⟨.identifier, "x", .ofBytes "shell" (0, 1)⟩ =
          ⟨.identifier, "x", .ofBytes "shell" (3, 4)⟩ := by decide +kernel
    rw [hnext, hoffset]
    exact congrArg some hmoved
  · rw [hstatements, hoffset]
    decide +kernel
  · rw [hdiagnostics, hoffset]
    decide +kernel
  · decide +kernel

end Lexer.Reachable

end FrontEnd
