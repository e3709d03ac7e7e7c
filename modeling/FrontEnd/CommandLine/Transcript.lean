import FrontEnd.CommandLine.Arguments

/-!
# Runs by their arguments

The outer layer of the command line: a run for a list of arguments, in surroundings that show the
log one line after the other and have no clock.
-/

namespace FrontEnd.CommandLine

/-- The log is shown from debugging upwards if that is asked for, and else not at all. -/
def Surroundings.plain : Surroundings where
  logger verbose line := if verbose && !line.isTrace then line.text ++ "\n" else ""
  elapsed := ""

def versionLine : String := "monkeylang 0.1.0\n"

def usage : String :=
  "Usage: monkeylang [--mode tokens|ast] [--prompt PROMPT] [-v] [-V] [-h] [FILE]\n"

/-- A run with the given arguments, where `read` answers with the bytes of a file and `input` is the
standard input. -/
def transcript (arguments : List String) (read : String → Except ReadError (List UInt8))
    (input : List UInt8) : Transcript :=
  match Command.ofArguments arguments with
  | .error e => ⟨2, "", "error: " ++ e.message ++ "\n" ++ usage⟩
  | .ok .version => ⟨0, versionLine, ""⟩
  | .ok .help => ⟨0, usage, ""⟩
  | .ok (.run options) => options.transcript .plain read input

end FrontEnd.CommandLine
