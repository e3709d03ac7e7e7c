import FrontEnd.Proofs.Composition
import FrontEnd.Proofs.Layout
import FrontEnd.Proofs.Lines
import FrontEnd.Proofs.Seam
import FrontEnd.Proofs.Spelling

/-!
# Line by line

A run over lines starts anew with each of them, and a run over a file reads all of it at once. What
they print agrees all the same. No token goes on over a line feed, so the tokens of the lines are
those of the file; and where every line is complete, no statement does, so that the programs of the
lines, one after the other, are the program of the file.

* `Complete` — a line that leaves nothing open.
* `printed` — a program as a run over lines prints it.

Principal results: `Lines.join_tokenLines` (tokens), `Lines.parse_of_complete` (programs) and
`interactiveTranscript_agrees`.
-/

namespace FrontEnd

open CommandLine TokenStream

/-- A line without tokens, or one in which everything can be parsed and that ends with a
semicolon. -/
def Complete (line : String) : Prop :=
  tokensOf line = [] ∨
    (parse line).2 = [] ∧ ∃ last ∈ (tokensOf line).getLast?, last.kind = .semicolon

namespace Complete

variable {line : String}

theorem diagnostics (h : Complete line) : (parse line).2 = [] := by
  rcases h with hnil | ⟨hclean, -⟩
  · rw [parse_diagnostics, rounds_of_tokensOf_nil hnil]
    rfl
  · exact hclean

/-- What follows a complete line is parsed apart from it. -/
theorem contained (h : Complete line) (rest : String) : Contained line rest := by
  refine contained_of_clean h.diagnostics (fun last hlast => ?_) rest
  rcases h with hnil | ⟨-, last', hlast', hkind⟩
  · rw [hnil] at hlast
    cases hlast
  · obtain rfl := Option.mem_unique hlast hlast'
    exact hkind

end Complete

/-! ## Tokens -/

/-- A token listing shows the kinds and texts of the tokens only. -/
theorem tokenLines_eq (file source : String) :
    tokenLines file source =
      String.join ((tokensOf source).map fun token => token.describe ++ "\n") := by
  rw [tokenLines, stream_ofFile]
  have hlines := congrArg (List.map fun spelling : TokenKind × String =>
    (Token.mk spelling.1 spelling.2 .null).describe ++ "\n") (map_spelling_ofFile file source)
  rw [List.map_map, List.map_map] at hlines
  exact congrArg String.join hlines

theorem tokenLines_append {a b : String} (h : SplitsAtSeam a b) (file : String) :
    tokenLines file (a ++ b) = tokenLines file a ++ tokenLines file b := by
  rw [tokenLines_eq, tokenLines_eq, tokenLines_eq, h, List.map_append, String.join_append,
    List.map_map]
  rfl

namespace Lines

variable {source : String} {lines : List String}

/-- The token listings of the lines are that of the source. -/
theorem join_tokenLines (h : Lines source lines) (file : String) :
    String.join (lines.map (tokenLines file)) = tokenLines file source := by
  induction h with
  | none =>
    rw [tokenLines_eq, tokensOf_eq_nil_iff.2 (List.forall_mem_nil _)]
    rfl
  | last => simp
  | @feed line rest lines _ _ ih =>
    have hlast : (line ++ "\n").toList.getLast? = some '\n' := by
      rw [String.toList_append]
      exact List.getLast?_concat
    rw [List.map_cons, String.join_cons, ih,
      tokenLines_append (splitsAtSeam_of_blank_left hlast rfl rest)]

/-! ## Programs -/

/-- The programs of complete lines are the program of the source, which has no diagnostics. -/
theorem parse_of_complete (h : Lines source lines) (hcomplete : ∀ line ∈ lines, Complete line) :
    (parse source).2 = [] ∧
      (parse source).1.text = String.join (lines.map fun line => (parse line).1.text) := by
  induction h with
  | none =>
    rw [parse_diagnostics, Program.text, parse_statements,
      rounds_of_tokensOf_nil (tokensOf_eq_nil_iff.2 (List.forall_mem_nil _))]
    exact ⟨rfl, rfl⟩
  | @last line =>
    refine ⟨(hcomplete line List.mem_cons_self).diagnostics, ?_⟩
    rw [List.map_singleton, String.join_cons, String.join_nil, String.append_empty]
  | @feed line rest lines _ _ ih =>
    obtain ⟨hline, hlines⟩ := List.forall_mem_cons.1 hcomplete
    obtain ⟨hstatements, hdiagnostics⟩ := hline.contained rest
    obtain ⟨hclean, htext⟩ := ih hlines
    refine ⟨?_, ?_⟩
    · rw [hdiagnostics, hline.diagnostics, hclean]
      rfl
    · rw [Program.text, hstatements, List.map_append, String.join_append, List.map_map,
        List.map_cons, String.join_cons, ← htext]
      have hmoved : Stmt.text ∘ Stmt.relocate (Position.shift (line ++ "\n").utf8ByteSize) =
          Stmt.text := funext fun statement => statement.relocate_text _
      rw [hmoved]
      rfl

end Lines

/-! ## Runs -/

/-- A text as a line of its own; nothing is no line. -/
def onLine (text : String) : String := if text = "" then "" else text ++ "\n"

/-- Only a program without statements has no text. -/
theorem text_eq_empty_iff (source : String) :
    (parse source).1.text = "" ↔ (parse source).1.statements = [] := by
  have hwf := parseFile_wellFormed Lexer.defaultFile source
  rw [← String.toList_inj, Program.toList_text]
  cases h : (parse source).1.statements with
  | nil => simp [textOf]
  | cons statement statements =>
    obtain ⟨c, cs, htext, -⟩ := Stmt.exists_head (hwf statement (h ▸ List.mem_cons_self))
    simp [textOf_cons, htext]

theorem tokenLines_tokenize (file source : String) :
    tokenLines file source =
      String.join ((tokenize source).dropLast.map fun token => token.describe ++ "\n") := by
  rw [tokenLines_eq, tokenize_eq, List.dropLast_concat]

section

variable (logger : LogLine → String)

/-- In response to a line its program is printed, on a line of its own. -/
theorem respond_ast_out (line : String) :
    (respond logger .ast line).out = onLine (parse line).1.text := by
  have hresponse : (respond logger .ast line).out =
      if (parse line).1.statements.isEmpty then "" else (parse line).1.text ++ "\n" := rfl
  rw [hresponse, onLine]
  simp only [List.isEmpty_iff, text_eq_empty_iff]

/-- A run over texts prompts for each of them and for the end of input. -/
theorem interactiveTranscript_ok (mode : Mode) (prompt : String) (lines : List String) :
    interactiveTranscript logger mode prompt (lines.map .ok) =
      ⟨0, String.join (lines.map fun line => prompt ++ (respond logger mode line).out) ++ prompt,
        String.join (lines.map fun line => (respond logger mode line).err)⟩ := by
  induction lines with
  | nil => simp [interactiveTranscript]
  | cons line lines ih =>
    simp only [List.map_cons, interactiveTranscript, ih, String.join_cons, String.append_assoc]

/-- What is logged by a run over a file that is parsed in the time `elapsed`. -/
def fileLog (elapsed file source : String) : List LogLine :=
  (Parser.ofFile file source).parseProgram.2.log.toList ++
    [⟨.info, "parsed " ++ toString (parseFile file source).1.statements.length ++
      " statements in " ++ elapsed⟩]

/-- A run over a file that has no diagnostics prints its program, and nothing on the side but the
log. -/
theorem fileTranscript_of_clean {file source : String} (h : (parseFile file source).2 = [])
    (elapsed : String) :
    fileTranscript logger elapsed .ast file (.ok source) =
      ⟨0, (parseFile file source).1.text ++ "\n",
        shown logger (fileLog elapsed file source)⟩ := by
  have hclean : (Parser.ofFile file source).parseProgram.2.diagnostics.toList = [] := h
  have hempty : (Parser.ofFile file source).parseProgram.2.diagnostics.isEmpty = true := by
    rw [← Array.isEmpty_toList, hclean]
    rfl
  simp [fileTranscript, hclean, hempty, parseFile, reports, fileLog]

/-- **A run over lines agrees with a run over a file.** Let bytes spell a text. Then each line of
them spells a line of the text. In a run for tokens, or if no line has diagnostics, a run over the
lines responds to all of them, between prompts. For tokens the response to a line lists the tokens
of the line, and the responses are, one after the other, what a run over a file of these bytes
prints. In a run for programs, if all lines are complete, each response is the program of the line,
on a line of its own; the run over the file prints these programs one after the other, on one line,
shows nothing on the side but the log, and succeeds. -/
theorem interactiveTranscript_agrees {bytes : List UInt8} {source : String}
    (hsource : decode bytes = .ok source) (elapsed prompt file : String) :
    ∃ lines, Lines source lines ∧ (byteLines bytes).map decode = lines.map .ok ∧
      (∀ mode, (mode = .tokens ∨ ∀ line ∈ lines, (parse line).2 = []) →
        (interactiveTranscript logger mode prompt ((byteLines bytes).map decode)).status = 0 ∧
        (interactiveTranscript logger mode prompt ((byteLines bytes).map decode)).out =
          String.join (lines.map fun line => prompt ++ (respond logger mode line).out) ++
            prompt) ∧
      (∀ line ∈ lines, (respond logger .tokens line).out =
        String.join ((tokenize line).dropLast.map fun token => token.describe ++ "\n")) ∧
      (fileTranscript logger elapsed .tokens file (decode bytes)).out =
        String.join ((tokenize source).dropLast.map fun token => token.describe ++ "\n") ∧
      String.join (lines.map fun line => (respond logger .tokens line).out) =
        (fileTranscript logger elapsed .tokens file (decode bytes)).out ∧
      ((∀ line ∈ lines, Complete line) →
        (∀ line ∈ lines, (parse line).2 = [] ∧
          (respond logger .ast line).out = onLine (parse line).1.text) ∧
        (fileTranscript logger elapsed .ast file (decode bytes)).out =
          String.join (lines.map fun line => (parse line).1.text) ++ "\n" ∧
        (parseFile file source).2 = [] ∧
        (fileTranscript logger elapsed .ast file (decode bytes)).status = 0 ∧
        (fileTranscript logger elapsed .ast file (decode bytes)).err =
          shown logger (fileLog elapsed file source)) := by
  obtain ⟨lines, hlines, hdecode⟩ := decode_byteLines hsource
  refine ⟨lines, hlines, hdecode, fun mode _ => ?_, fun line _ => tokenLines_tokenize _ line, ?_,
    ?_, fun hcomplete => ?_⟩
  · rw [hdecode, interactiveTranscript_ok]
    exact ⟨rfl, rfl⟩
  · rw [hsource]
    exact tokenLines_tokenize file source
  · have htokens : tokenLines Lexer.defaultFile source = tokenLines file source := by
      rw [tokenLines_eq, tokenLines_eq]
    rw [hsource]
    exact (hlines.join_tokenLines Lexer.defaultFile).trans htokens
  · obtain ⟨hclean, htext⟩ := hlines.parse_of_complete hcomplete
    -- the name of the file makes no difference
    have halike :=
      parseFile_alike Lexer.defaultFile file (rfl : (tokensOf source).map Token.spelling = _)
    have hfile : (parseFile file source).2 = [] := by
      have hcauses := halike.causes
      rw [show parseFile Lexer.defaultFile source = parse source from rfl, hclean] at hcauses
      exact List.map_eq_nil_iff.1 hcauses.symm
    refine ⟨fun line hline => ⟨(hcomplete line hline).diagnostics, respond_ast_out logger line⟩,
      ?_, hfile, ?_, ?_⟩
    · rw [hsource, fileTranscript_of_clean logger hfile, ← htext]
      exact congrArg (· ++ "\n") halike.text_eq.symm
    · rw [hsource, fileTranscript_of_clean logger hfile]
    · rw [hsource, fileTranscript_of_clean logger hfile]

end

/-- Three lines, the first of which ends with a carriage return as well, the second holds no token,
and the last lacks its line feed. Of the log nothing is shown. -/
theorem interactiveTranscript_agrees_three_lines :
    let source := "let a = 1;\r\n \n2 + 3;"
    let lines := ["let a = 1;\r\n", " \n", "2 + 3;"]
    let quiet := fun _ : LogLine => ""
    decode (utf8 source) = .ok source ∧ Lines source lines ∧ (∀ line ∈ lines, Complete line) ∧
      (interactiveTranscript quiet .ast ">> " ((byteLines (utf8 source)).map decode)).out =
        ">> let a = 1;\n>> >> (2 + 3)\n>> " ∧
      fileTranscript quiet "" .ast "sum" (decode (utf8 source)) =
        ⟨0, "let a = 1;(2 + 3)\n", ""⟩ := by
  intro source lines quiet
  have hsource : decode (utf8 source) = .ok source := decode_eq_ok_iff.2 rfl
  have hfirst : '\n' ∉ "let a = 1;\r".toList := by decide +kernel
  have hsecond : '\n' ∉ " ".toList := by decide +kernel
  have hthird : Lines "2 + 3;" ["2 + 3;"] := .last (by decide +kernel) (by decide +kernel)
  have hsplit : source = "let a = 1;\r" ++ "\n" ++ (" " ++ "\n" ++ "2 + 3;") := by decide +kernel
  have hlines : Lines source lines := by
    rw [hsplit]
    exact .feed hfirst (.feed hsecond hthird)
  have hcomplete : ∀ line ∈ lines, Complete line := by
    simp only [lines, List.forall_mem_cons, Complete]
    decide +kernel
  obtain ⟨lines', -, hdecode, hrun, -, -, -, hprograms⟩ :=
    interactiveTranscript_agrees quiet hsource "" ">> " "sum"
  have hsame : lines'.map Except.ok = lines.map (Except.ok (ε := ReadError)) := by
    rw [← hdecode, byteLines_utf8 hlines, List.map_map]
    exact List.map_congr_left fun line _ => decode_eq_ok_iff.2 rfl
  obtain rfl : lines' = lines := (List.map_inj_right fun _ _ => Except.ok.inj).1 hsame
  obtain ⟨hresponses, hout, -, hstatus, herr⟩ := hprograms hcomplete
  refine ⟨hsource, hlines, hcomplete, ?_, ?_⟩
  · rw [(hrun .ast (.inr fun line hline => (hresponses line hline).1)).2]
    decide +kernel
  · have hquiet : ∀ log : List LogLine, shown quiet log = "" := fun log => by
      induction log with
      | nil => rfl
      | cons line log ih => exact ih
    rw [hquiet] at herr
    have hjoined : String.join (lines.map fun line => (parse line).1.text) ++ "\n" =
        "let a = 1;(2 + 3)\n" := by decide +kernel
    rw [hjoined] at hout
    generalize fileTranscript quiet "" .ast "sum" (decode (utf8 source)) = transcript at *
    obtain ⟨status, out, err⟩ := transcript
    obtain rfl : status = 0 := hstatus
    obtain rfl : out = "let a = 1;(2 + 3)\n" := hout
    obtain rfl : err = "" := herr
    rfl

end FrontEnd
