import Mathlib.Data.List.Forall2
import FrontEnd.Proofs.Printing

/-!
# Layout does not matter

Where tokens stand makes no difference to what is parsed. Two sources with the same tokens, however
they are spaced, broken into lines and named, have the same statements and the same diagnostics, and
a position in the one result is where the same token begins or ends as in the other.

The end of one token may be the beginning of the next, and in another layout it need not be, so no
map of positions takes one layout to another. Both are therefore compared with a third, in which
every place has a number of its own and which is moved to either of them.

* `tokensIn` — the tokens of a named source, the end of input included.
* `Corresponds` — positions where the same token begins, or ends.
* `Stmt.positions` — the positions in a tree, in order.
* `numberedStream` — the layout whose places are numbers.

Principal results: `numberedStream_relocate` (every layout is the numbered one, moved) and
`parseFile_layout` (sources with the same tokens have results that differ in their places only, and
these correspond).
-/

namespace FrontEnd

open TokenStream

/-! ## Positions in trees -/

def Span.positions (span : Span) : List Position := [span.start, span.stop]

def Token.positions (token : Token) : List Position := token.span.positions

def Identifier.positions (name : Identifier) : List Position :=
  name.token.positions ++ name.span.positions

/-- The positions in an expression, node by node. -/
def Expr.positions : Expr → List Position
  | .identifier name => name.positions
  | .integer token _ span => token.positions ++ span.positions
  | .boolean token _ span => token.positions ++ span.positions
  | .unary token _ right span => token.positions ++ right.positions ++ span.positions
  | .binary token left _ right span =>
    token.positions ++ left.positions ++ right.positions ++ span.positions

/-- The positions in a statement, node by node. -/
def Stmt.positions : Stmt → List Position
  | .binding token name value span =>
    token.positions ++ name.positions ++ value.positions ++ span.positions
  | .result token none span => token.positions ++ span.positions
  | .result token (some value) span => token.positions ++ value.positions ++ span.positions
  | .expression token value span => token.positions ++ value.positions ++ span.positions

section

variable (f : Position → Position)

@[simp] theorem Span.positions_relocate (span : Span) :
    (span.relocate f).positions = span.positions.map f := rfl

@[simp] theorem Token.positions_relocate (token : Token) :
    (token.relocate f).positions = token.positions.map f := rfl

@[simp] theorem Identifier.positions_relocate (name : Identifier) :
    (name.relocate f).positions = name.positions.map f := rfl

@[simp] theorem Expr.positions_relocate (e : Expr) :
    (e.relocate f).positions = e.positions.map f := by
  induction e with
  | identifier | integer | boolean => rfl
  | unary token operator right span ih => simp [relocate, positions, ih]
  | binary token left operator right span ihl ihr => simp [relocate, positions, ihl, ihr]

@[simp] theorem Stmt.positions_relocate (statement : Stmt) :
    (statement.relocate f).positions = statement.positions.map f := by
  cases statement with
  | binding => simp [relocate, positions]
  | result token value span => cases value <;> simp [relocate, positions]
  | expression => simp [relocate, positions]

end

/-! ## Tokens and their places -/

/-- What a token is, apart from its place. -/
def Token.spelling (token : Token) : TokenKind × String := (token.kind, token.text)

/-- The tokens of the source called `file`, the end of input included. -/
def tokensIn (file source : String) : List Token :=
  (Lexer.ofFile file source).tokens ++ [.endOfInput (.ofBytes file source.utf8ByteSize)]

theorem tokenize_eq_tokensIn (source : String) :
    tokenize source = tokensIn Lexer.defaultFile source :=
  tokenize_eq source

/-- The name of a source makes no difference to what its tokens are. -/
theorem map_spelling_ofFile (file source : String) :
    (Lexer.ofFile file source).tokens.map Token.spelling =
      (tokensOf source).map Token.spelling := by
  have hfile := (Lexer.ofFile file source).map_relocate_tokens
  have hnone := (Lexer.ofSource source).map_relocate_tokens
  have hsame : (Lexer.ofFile file source).tokens.map (Token.relocate fun _ => .null) =
      (tokensOf source).map (Token.relocate fun _ => .null) := hfile.trans hnone.symm
  have hspelling := congrArg (List.map Token.spelling) hsame
  rw [List.map_map, List.map_map] at hspelling
  exact hspelling

/-- Positions that belong to the same token of two sources: where it begins, or where it ends. -/
inductive Corresponds (ts us : List Token) : Position → Position → Prop where
  | start {k : Nat} {t u : Token} (ht : ts[k]? = some t) (hu : us[k]? = some u) :
    Corresponds ts us t.span.start u.span.start
  | stop {k : Nat} {t u : Token} (ht : ts[k]? = some t) (hu : us[k]? = some u) :
    Corresponds ts us t.span.stop u.span.stop

/-- Every token stands in the source that it was read from. -/
theorem Lexer.Scans.file_eq {l : Lexer} {ts : List Token} (h : Scans l ts) {t : Token}
    (ht : t ∈ ts) : ∀ p ∈ t.positions, p.file = l.file := by
  induction h with
  | done => cases ht
  | token h _ ih =>
    rcases List.mem_cons.1 ht with rfl | ht
    · intro p hp
      rcases List.mem_pair.1 hp with rfl | rfl <;> rfl
    · exact ih ht

theorem file_of_mem_tokensIn {file source : String} {t : Token} (ht : t ∈ tokensIn file source) :
    ∀ p ∈ t.positions, p.file = file := by
  rcases List.mem_append.1 ht with ht | ht
  · exact (Lexer.scans_tokens _).file_eq ht
  · rw [List.mem_singleton.1 ht]
    intro p hp
    rcases List.mem_pair.1 hp with rfl | rfl <;> rfl

theorem Corresponds.file_eq {file file' source source' : String} {p q : Position}
    (h : Corresponds (tokensIn file source) (tokensIn file' source') p q) :
    p.file = file ∧ q.file = file' := by
  cases h with
  | start ht hu =>
    exact ⟨file_of_mem_tokensIn (List.mem_of_getElem? ht) _ List.mem_cons_self,
      file_of_mem_tokensIn (List.mem_of_getElem? hu) _ List.mem_cons_self⟩
  | stop ht hu =>
    have hstop (token : Token) : token.span.stop ∈ [token.span.start, token.span.stop] :=
      List.mem_cons_of_mem _ List.mem_cons_self
    exact ⟨file_of_mem_tokensIn (List.mem_of_getElem? ht) _ (hstop _),
      file_of_mem_tokensIn (List.mem_of_getElem? hu) _ (hstop _)⟩

/-! ## The numbered layout

The token `k` begins at the place `2 * k` and ends at the place `2 * k + 1`. -/

/-- The position that stands for a number: the length of its name. -/
def Position.numbered (k : Nat) : Position := ⟨0, String.ofList (List.replicate k '|')⟩

def Position.number (p : Position) : Nat := p.file.length

@[simp] theorem Position.number_numbered (k : Nat) : (numbered k).number = k := by
  simp [numbered, number]

/-- The token as number `k` of the numbered layout. -/
def Token.numbered (k : Nat) (token : Token) : Token :=
  ⟨token.kind, token.text, ⟨.numbered (2 * k), .numbered (2 * k + 1)⟩⟩

def numberedStream (ts : List Token) : TokenStream :=
  ⟨ts.mapIdx Token.numbered, .numbered (2 * ts.length), 0⟩

/-- The position among the tokens `us`, which end at `stop`, that a number stands for. -/
def placeAmong (us : List Token) (stop : Position) (p : Position) : Position :=
  match us[p.number / 2]? with
  | some token => if p.number % 2 = 0 then token.span.start else token.span.stop
  | none => stop

theorem Token.numbered_relocate {us : List Token} {k : Nat} {u : Token} (hu : us[k]? = some u)
    (stop : Position) {t : Token} (h : t.spelling = u.spelling) :
    (t.numbered k).relocate (placeAmong us stop) = u := by
  obtain ⟨kind, text, span⟩ := u
  obtain ⟨hkind, htext⟩ := Prod.mk.inj h
  have hodd : (2 * k + 1) / 2 = k := by omega
  have hstart : placeAmong us stop (.numbered (2 * k)) = span.start := by
    simp [placeAmong, hu]
  have hstop : placeAmong us stop (.numbered (2 * k + 1)) = span.stop := by
    simp [placeAmong, hodd, hu]
  simp only [numbered, relocate, Span.relocate, hstart, hstop]
  rw [hkind, htext]

/-- **Every layout of the tokens is the numbered one, moved.** -/
theorem numberedStream_relocate {ts us : List Token}
    (h : ts.map Token.spelling = us.map Token.spelling) (stop : Position) :
    (numberedStream ts).relocate (placeAmong us stop) 0 = ⟨us, stop, 0⟩ := by
  have hlength : ts.length = us.length := by
    have := congrArg List.length h
    rwa [List.length_map, List.length_map] at this
  have hpending : (ts.mapIdx Token.numbered).map (Token.relocate (placeAmong us stop)) = us := by
    apply List.ext_getElem
    · rw [List.length_map, List.length_mapIdx, hlength]
    · intro k hk hk'
      have hspelling := congrArg (fun l => l[k]?) h
      rw [List.length_map, List.length_mapIdx] at hk
      simp only [List.getElem?_map, List.getElem?_eq_getElem hk, List.getElem?_eq_getElem hk',
        Option.map_some, Option.some.injEq] at hspelling
      rw [List.getElem_map, List.getElem_mapIdx]
      exact Token.numbered_relocate (List.getElem?_eq_getElem hk') stop hspelling
  have hend : placeAmong us stop (.numbered (2 * ts.length)) = stop := by
    simp [placeAmong, hlength]
  simp only [numberedStream, TokenStream.relocate, hpending, hend]

/-- A number stands for corresponding positions in two layouts. -/
theorem placeAmong_corresponds {ts us : List Token} (hlength : ts.length = us.length)
    (stop stop' p : Position) :
    Corresponds (ts ++ [.endOfInput stop]) (us ++ [.endOfInput stop'])
      (placeAmong ts stop p) (placeAmong us stop' p) := by
  unfold placeAmong
  rcases Nat.lt_or_ge (p.number / 2) ts.length with hlt | hge
  · have hlt' : p.number / 2 < us.length := hlength ▸ hlt
    have ht : (ts ++ [Token.endOfInput stop])[p.number / 2]? = some ts[p.number / 2] := by
      rw [List.getElem?_append_left hlt, List.getElem?_eq_getElem hlt]
    have hu : (us ++ [Token.endOfInput stop'])[p.number / 2]? = some us[p.number / 2] := by
      rw [List.getElem?_append_left hlt', List.getElem?_eq_getElem hlt']
    rw [List.getElem?_eq_getElem hlt, List.getElem?_eq_getElem hlt']
    by_cases heven : p.number % 2 = 0
    · simp only [heven, if_true]
      exact .start ht hu
    · simp only [heven, if_false]
      exact .stop ht hu
  · have ht : (ts ++ [Token.endOfInput stop])[ts.length]? = some (.endOfInput stop) := by simp
    have hu : (us ++ [Token.endOfInput stop'])[ts.length]? = some (.endOfInput stop') := by
      simp [hlength]
    rw [List.getElem?_eq_none hge, List.getElem?_eq_none (hlength ▸ hge)]
    exact .start ht hu

/-! ## Two layouts of one source -/

/-- Results that differ in their places only, and these by `R`. -/
structure AlikeUpTo (R : Position → Position → Prop) (x y : Program × List Diagnostic) : Prop where
  statements : x.1.statements.map (Stmt.relocate fun _ => .null) =
    y.1.statements.map (Stmt.relocate fun _ => .null)
  causes : x.2.map Diagnostic.cause = y.2.map Diagnostic.cause
  positions : List.Forall₂ R (x.1.statements.flatMap Stmt.positions)
    (y.1.statements.flatMap Stmt.positions)
  diagnostics : List.Forall₂ R (x.2.map Diagnostic.position) (y.2.map Diagnostic.position)
  stop : R x.1.span.stop y.1.span.stop

namespace AlikeUpTo

variable {R : Position → Position → Prop} {x y : Program × List Diagnostic}

/-- Results that differ in their places only are written out alike. -/
theorem text_eq (h : AlikeUpTo R x y) : x.1.text = y.1.text := by
  have htext : ∀ statements : List Stmt, statements.map Stmt.text =
      (statements.map (Stmt.relocate fun _ => .null)).map Stmt.text := by
    intro statements
    rw [List.map_map]
    exact List.map_congr_left fun statement _ => (statement.relocate_text _).symm
  rw [Program.text, Program.text, htext, h.statements, ← htext]

/-- They report the same messages. -/
theorem messages_eq (h : AlikeUpTo R x y) :
    x.2.map (fun d => d.cause.message) = y.2.map (fun d => d.cause.message) := by
  have hmessages := congrArg (List.map Cause.message) h.causes
  rw [List.map_map, List.map_map] at hmessages
  exact hmessages

end AlikeUpTo

/-- What is moved to two places corresponds place by place. -/
theorem forall₂_map {R : Position → Position → Prop} {f g : Position → Position}
    (h : ∀ p, R (f p) (g p)) (ps : List Position) : List.Forall₂ R (ps.map f) (ps.map g) := by
  rw [List.forall₂_map_left_iff, List.forall₂_map_right_iff, List.forall₂_same]
  exact fun p _ => h p

theorem flatMap_positions_relocate (f : Position → Position) (statements : List Stmt) :
    (statements.map (Stmt.relocate f)).flatMap Stmt.positions =
      (statements.flatMap Stmt.positions).map f := by
  rw [List.flatMap_map, List.map_flatMap]
  simp only [Stmt.positions_relocate]

/-- Every position in a result is in the source called `file`. -/
def WithinFile (file : String) (x : Program × List Diagnostic) : Prop :=
  (∀ p ∈ x.1.statements.flatMap Stmt.positions, p.file = file) ∧
    (∀ d ∈ x.2, d.position.file = file) ∧ x.1.span.start.file = file ∧ x.1.span.stop.file = file

/-- The parse of a source is that of its tokens in the numbered layout, moved. -/
theorem parseFile_numbered (file source : String) {ts : List Token}
    (h : ts.map Token.spelling = (Lexer.ofFile file source).tokens.map Token.spelling) :
    let place := placeAmong (Lexer.ofFile file source).tokens (.ofBytes file source.utf8ByteSize)
    let items := (numberedStream ts).rounds .default maxNesting
    (parseFile file source).1.statements = (statementsOf items).map (Stmt.relocate place) ∧
      (parseFile file source).2 = (diagnosticsOf items).map (Diagnostic.relocate place) := by
  have hstream := numberedStream_relocate h (.ofBytes file source.utf8ByteSize)
  rw [← stream_ofFile] at hstream
  constructor
  · rw [parseFile_statements, ← hstream, rounds_relocate, statementsOf_relocate]
  · rw [parseFile_diagnostics, ← hstream, rounds_relocate, diagnosticsOf_relocate]

/-- Sources with the same tokens have results that differ in their places only. -/
theorem parseFile_alike (file file' : String) {source source' : String}
    (h : (tokensOf source).map Token.spelling = (tokensOf source').map Token.spelling) :
    AlikeUpTo (Corresponds (tokensIn file source) (tokensIn file' source'))
      (parseFile file source) (parseFile file' source') := by
  have htokens : (Lexer.ofFile file source).tokens.map Token.spelling =
      (Lexer.ofFile file' source').tokens.map Token.spelling := by
    rw [map_spelling_ofFile, map_spelling_ofFile, h]
  have hlength := congrArg List.length htokens
  rw [List.length_map, List.length_map] at hlength
  obtain ⟨hstatements, hdiagnostics⟩ := parseFile_numbered file source rfl
  obtain ⟨hstatements', hdiagnostics'⟩ := parseFile_numbered file' source' htokens
  have hplaces := forall₂_map (placeAmong_corresponds hlength (.ofBytes file source.utf8ByteSize)
    (.ofBytes file' source'.utf8ByteSize))
  constructor
  · rw [hstatements, hstatements', List.map_map, List.map_map]
    refine List.map_congr_left fun statement _ => ?_
    rw [Function.comp_apply, Function.comp_apply, Stmt.relocate_relocate, Stmt.relocate_relocate]
    rfl
  · rw [hdiagnostics, hdiagnostics', List.map_map, List.map_map]
    rfl
  · rw [hstatements, hstatements', flatMap_positions_relocate, flatMap_positions_relocate]
    exact hplaces _
  · rw [hdiagnostics, hdiagnostics', List.map_map, List.map_map]
    have hmoved := hplaces
      ((diagnosticsOf ((numberedStream (Lexer.ofFile file source).tokens).rounds .default
        maxNesting)).map Diagnostic.position)
    rw [List.map_map, List.map_map] at hmoved
    exact hmoved
  · rw [parseFile_span, parseFile_span]
    have ht : (tokensIn file source)[(Lexer.ofFile file source).tokens.length]? =
        some (.endOfInput (.ofBytes file source.utf8ByteSize)) := by
      simp [tokensIn]
    have hu : (tokensIn file' source')[(Lexer.ofFile file source).tokens.length]? =
        some (.endOfInput (.ofBytes file' source'.utf8ByteSize)) := by
      simp [tokensIn, hlength]
    exact .stop ht hu

/-- Every position in the result of a source names that source. -/
theorem parseFile_withinFile (file source : String) : WithinFile file (parseFile file source) := by
  have halike : AlikeUpTo (Corresponds (tokensIn file source) (tokensIn file source))
      (parseFile file source) (parseFile file source) := parseFile_alike file file rfl
  have hleft : ∀ {ps qs : List Position},
      List.Forall₂ (Corresponds (tokensIn file source) (tokensIn file source)) ps qs →
        ∀ p ∈ ps, p.file = file := by
    intro ps qs h
    induction h with
    | nil => exact fun p hp => (nomatch hp)
    | cons hp _ ih => exact List.forall_mem_cons.2 ⟨hp.file_eq.1, ih⟩
  refine ⟨hleft halike.positions, fun d hd => ?_, ?_, halike.stop.file_eq.1⟩
  · exact hleft halike.diagnostics _ (List.mem_map_of_mem hd)
  · rw [parseFile_span]
    rfl

/-- **Layout does not matter.** Let the tokens of two sources be of the same kinds and texts, one by
one. Then the sources have the same statements and diagnostics but for their places. Every position
in the one result is where some token begins or ends, and the position at its place in the other
result is where the same token begins or ends there; only the programs begin at the first byte
instead. So both are written out alike and report the same messages, and every position names the
source that it is in. -/
theorem parseFile_layout (file file' : String) {source source' : String}
    (h : (tokenize source).map Token.spelling = (tokenize source').map Token.spelling) :
    AlikeUpTo (Corresponds (tokensIn file source) (tokensIn file' source'))
        (parseFile file source) (parseFile file' source') ∧
      (parseFile file source).1.span.start = .ofBytes file 0 ∧
      (parseFile file' source').1.span.start = .ofBytes file' 0 ∧
      (parseFile file source).1.text = (parseFile file' source').1.text ∧
      (parseFile file source).2.map (fun d => d.cause.message) =
        (parseFile file' source').2.map (fun d => d.cause.message) ∧
      WithinFile file (parseFile file source) ∧ WithinFile file' (parseFile file' source') := by
  rw [tokenize_eq, tokenize_eq, List.map_append, List.map_append] at h
  have halike := parseFile_alike file file' (List.append_inj_left' h rfl)
  refine ⟨halike, ?_, ?_, halike.text_eq, halike.messages_eq, parseFile_withinFile file source,
    parseFile_withinFile file' source'⟩
  · rw [parseFile_span]
  · rw [parseFile_span]

/-- In the one source the name ends where the semicolon begins, in the other a line ends between
them. The semicolon is blamed in both. -/
theorem parseFile_layout_two_lines :
    let source := "let a=(b;-1"
    let source' := " let\ta = ( b\r\n; - 1"
    (tokenize source).map Token.spelling = (tokenize source').map Token.spelling ∧
      (parseFile "one" source).1.text = "(-1)" ∧ (parseFile "two" source').1.text = "(-1)" ∧
      (parseFile "one" source).2.map Diagnostic.position = [.ofBytes "one" 8] ∧
      (parseFile "two" source').2.map Diagnostic.position = [.ofBytes "two" 14] ∧
      Corresponds (tokensIn "one" source) (tokensIn "two" source') (.ofBytes "one" 8)
        (.ofBytes "two" 14) := by
  intro source source'
  have hsame : (tokenize source).map Token.spelling = (tokenize source').map Token.spelling := by
    decide +kernel
  have htext : (parseFile "one" source).1.text = "(-1)" := by decide +kernel
  have hplace : (parseFile "one" source).2.map Diagnostic.position = [.ofBytes "one" 8] := by
    decide +kernel
  have hplace' : (parseFile "two" source').2.map Diagnostic.position = [.ofBytes "two" 14] := by
    decide +kernel
  obtain ⟨halike, _, _, hsameText, _⟩ := parseFile_layout "one" "two" hsame
  have hplaces := halike.diagnostics
  rw [hplace, hplace'] at hplaces
  exact ⟨hsame, htext, hsameText.symm.trans htext, hplace, hplace', (List.forall₂_cons.1 hplaces).1⟩

end FrontEnd
