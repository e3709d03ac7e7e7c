import FrontEnd.CommandLine.Transcript

/-!
# The program

The command line. What is printed is decided by `FrontEnd.CommandLine`; here it is read and written.
-/

namespace FrontEnd.CommandLine

/-- Why the system refused to read a file. -/
def readError : IO.Error → ReadError
  | .noFileOrDirectory .. => .noSuchFile
  | .inappropriateType _ code _ => if code = 21 then .isDirectory else .notDirectory
  | e => .other (toString e)

def readFile (file : String) : IO (Except ReadError (List UInt8)) := do
  try
    return .ok (← IO.FS.readBinFile file).toList
  catch e =>
    return .error (readError e)

/-- The bytes of the next line, through its line feed. -/
partial def readLine (input : IO.FS.Stream) (line : List UInt8) : IO (List UInt8) := do
  let bytes ← input.read 1
  match bytes.toList with
  | [] => return line.reverse
  | byte :: _ => if byte = 10 then return (byte :: line).reverse else readLine input (byte :: line)

/-- Prompts for lines and responds to them until the input ends. -/
partial def converse (options : Options) : IO UInt32 := do
  let out ← IO.getStdout
  out.putStr options.prompt
  out.flush
  match ← readLine (← IO.getStdin) [] with
  | [] => return 0
  | line =>
    match decode line with
    | .error e =>
      IO.eprint e.report
      return 1
    | .ok line =>
      let response := respond (Surroundings.plain.logger options.verbose) options.mode line
      out.putStr response.out
      IO.eprint response.err
      converse options

def print (t : Transcript) : IO UInt32 := do
  IO.print t.out
  IO.eprint t.err
  return t.status.toUInt32

def run (arguments : List String) : IO UInt32 := do
  match Command.ofArguments arguments with
  | .ok (.run options) =>
    match options.file with
    | some file =>
      let contents ← readFile file
      print (transcript arguments (fun _ => contents) [])
    | none => converse options
  | _ => print (transcript arguments (fun _ => .error .noSuchFile) [])

end FrontEnd.CommandLine

def main (arguments : List String) : IO UInt32 :=
  FrontEnd.CommandLine.run arguments
