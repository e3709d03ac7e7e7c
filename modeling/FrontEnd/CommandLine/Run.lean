import FrontEnd.Parser
import FrontEnd.Report

/-!
# Runs

A run reads a file at once (`run_file`), or its standard input line by line (`run_repl`). It prints
tokens or programs, and on the side what is logged and the reports of diagnostics (`report`).

* `Surroundings` — what a run leaves to others: how the log is shown, and the clock.
* `Transcript` — all that a run prints, and the status that it ends with.
* `respond` — what is printed for one line.
* `fileTranscript`, `interactiveTranscript` — the two ways of reading.
* `Options.transcript` — the run that is asked for (`main`).
-/

namespace FrontEnd.CommandLine

/-- What is printed: the tokens of the input, or its program. -/
inductive Mode where
  | tokens
  | ast
  deriving DecidableEq, Repr

/-- What a run is asked to do. Without a file it reads line by line, and prompts for each. -/
structure Options where
  file : Option String
  mode : Mode
  prompt : String
  verbose : Bool
  deriving DecidableEq, Repr

structure Surroundings where
  /-- What is shown of a line of the log, with or without `verbose`. -/
  logger : Bool → LogLine → String
  /-- How long the parsing of a file took. -/
  elapsed : String

structure Transcript where
  status : Nat
  out : String
  err : String
  deriving DecidableEq, Repr

/-- Why an input could not be read. -/
inductive ReadError where
  | noSuchFile
  | isDirectory
  | notDirectory
  | notText
  | other (reason : String)
  deriving DecidableEq, Repr

namespace ReadError

/-- The error as the system words it. -/
def message : ReadError → String
  | noSuchFile => "No such file or directory (os error 2)"
  | isDirectory => "Is a directory (os error 21)"
  | notDirectory => "Not a directory (os error 20)"
  | notText => "stream did not contain valid UTF-8"
  | other reason => reason

def report (e : ReadError) : String := "error: " ++ e.message ++ "\n"

end ReadError

structure Response where
  out : String
  err : String
  deriving DecidableEq, Repr

/-! ### What is printed -/

def tokenLines (file source : String) : String :=
  String.join ((Lexer.ofFile file source).stream.pending.map fun token => token.describe ++ "\n")

/-- What is logged when all tokens of a source are read, and the end of input after them. -/
def readingLog (file source : String) : List LogLine :=
  let l := Lexer.ofFile file source
  LogRecord.lines l ((l.stream.pending ++ [l.stream.closing]).map .drawn)

def shown (logger : LogLine → String) (log : List LogLine) : String := String.join (log.map logger)

def reports (diagnostics : List Diagnostic) (source : String) : String :=
  String.join (diagnostics.map fun d => d.report source)

/-! ### The two ways of reading -/

/-- `run_file`: it fails if the file cannot be read, and if a program is asked for and there
are diagnostics. -/
def fileTranscript (logger : LogLine → String) (elapsed : String) (mode : Mode) (file : String)
    (contents : Except ReadError String) : Transcript :=
  match contents with
  | .error e => ⟨1, "", e.report⟩
  | .ok source =>
    match mode with
    | .tokens => ⟨0, tokenLines file source, shown logger (readingLog file source)⟩
    | .ast =>
      match (Parser.ofFile file source).parseProgram with
      | (program, p) =>
        let count := toString program.statements.length
        let log := p.log.toList ++ [⟨.info, "parsed " ++ count ++ " statements in " ++ elapsed⟩]
        ⟨if p.diagnostics.isEmpty then 0 else 1, program.text ++ "\n",
          shown logger log ++ reports p.diagnostics.toList source⟩

/-- A round of `run_repl`. A line without statements prints no program. -/
def respond (logger : LogLine → String) (mode : Mode) (line : String) : Response :=
  let start : LogLine := ⟨.debug, "read " ++ toString line.utf8ByteSize ++ " bytes"⟩
  match mode with
  | .tokens =>
    ⟨tokenLines Lexer.defaultFile line,
      shown logger (start :: readingLog Lexer.defaultFile line)⟩
  | .ast =>
    match (Parser.ofFile Lexer.defaultFile line).parseProgram with
    | (program, p) =>
      ⟨if program.statements.isEmpty then "" else program.text ++ "\n",
        shown logger (start :: p.log.toList) ++ reports p.diagnostics.toList line⟩

/-- `run_repl`, for lines with their line feeds. Every line is prompted for, and so is the end of
input. A line that cannot be read ends the run. -/
def interactiveTranscript (logger : LogLine → String) (mode : Mode) (prompt : String) :
    List (Except ReadError String) → Transcript
  | [] => ⟨0, prompt, ""⟩
  | .error e :: _ => ⟨1, prompt, e.report⟩
  | .ok line :: lines =>
    let response := respond logger mode line
    let later := interactiveTranscript logger mode prompt lines
    ⟨later.status, prompt ++ response.out ++ later.out, response.err ++ later.err⟩

def decode (bytes : List UInt8) : Except ReadError String :=
  match String.fromUTF8? bytes.toByteArray with
  | some text => .ok text
  | none => .error .notText

/-- The lines of a run of bytes, each through its line feed; the last one may lack it. -/
def byteLines (bytes : List UInt8) : List (List UInt8) := go bytes []
where
  /-- The lines of the bytes that are left, the first of which begins with `line`, reversed. -/
  go : List UInt8 → List UInt8 → List (List UInt8)
    | [], [] => []
    | [], line => [line.reverse]
    | byte :: bytes, line =>
      if byte = 10 then (byte :: line).reverse :: go bytes [] else go bytes (byte :: line)

/-- The run that is asked for, where `read` answers with the bytes of a file and `input` is the
standard input. -/
def Options.transcript (options : Options) (surroundings : Surroundings)
    (read : String → Except ReadError (List UInt8)) (input : List UInt8) : Transcript :=
  let logger := surroundings.logger options.verbose
  match options.file with
  | some file =>
    fileTranscript logger surroundings.elapsed options.mode file ((read file).bind decode)
  | none => interactiveTranscript logger options.mode options.prompt ((byteLines input).map decode)

end FrontEnd.CommandLine
