import FrontEnd.CommandLine.Run

/-!
# Arguments

This belongs to the outer layer, with `FrontEnd.CommandLine.Transcript`: it makes options of the
arguments of a run, and nothing is proved about it.

An argument is an option, the value of the option before it, or the file to parse. A long option
takes its value after an equals sign or from the next argument, which then must not look like an
option; short options may be run together. After a lone `--` every argument is a file. Nothing may
be given twice.

* `Command.ofArguments` — what the arguments ask for, read from left to right: the version or the
  help as soon as it is asked for.
-/

namespace FrontEnd.CommandLine

def Mode.ofName? (name : String) : Option Mode :=
  match name with
  | "tokens" => some .tokens
  | "ast" => some .ast
  | _ => none

inductive Command where
  | run (options : Options)
  | version
  | help
  deriving DecidableEq, Repr

inductive UsageError where
  | unknownOption (argument : String)
  | repeatedOption (name : String)
  | missingValue (name : String)
  | surplusValue (name : String)
  | unknownMode (value : String)
  | emptyFile
  | surplusFile (argument : String)
  deriving DecidableEq, Repr

namespace UsageError

def message : UsageError → String
  | unknownOption argument => "unexpected argument '" ++ argument ++ "' found"
  | repeatedOption name => "the argument '--" ++ name ++ "' cannot be used multiple times"
  | missingValue name => "a value is required for '--" ++ name ++ "' but none was supplied"
  | surplusValue name => "no value is expected for '--" ++ name ++ "'"
  | unknownMode value => "invalid value '" ++ value ++ "' for '--mode' [tokens, ast]"
  | emptyFile => "a value is required for 'FILE' but none was supplied"
  | surplusFile argument => "unexpected argument '" ++ argument ++ "' found"

end UsageError

structure Settings where
  file : Option String
  mode : Option Mode
  prompt : Option String
  verbose : Bool
  deriving DecidableEq, Repr

namespace Settings

def empty : Settings := ⟨none, none, none, false⟩

def toOptions (s : Settings) : Options where
  file := s.file
  mode := s.mode.getD .ast
  prompt := s.prompt.getD ">> "
  verbose := s.verbose

/-- Takes an argument for the file. There is one file at most, and it has a name. -/
def setFile (s : Settings) (argument : String) : Except UsageError Settings :=
  if s.file.isSome then .error (.surplusFile argument)
  else if argument.isEmpty then .error .emptyFile
  else .ok { s with file := some argument }

/-- Takes the rest of the arguments for files. -/
def setFiles (s : Settings) : List String → Except UsageError Settings
  | [] => .ok s
  | argument :: arguments =>
    match s.setFile argument with
    | .ok s => s.setFiles arguments
    | .error e => .error e

def setMode (s : Settings) (value : String) : Except UsageError Settings :=
  match s.mode, Mode.ofName? value with
  | some _, _ => .error (.repeatedOption "mode")
  | none, some mode => .ok { s with mode := some mode }
  | none, none => .error (.unknownMode value)

/-- Takes the value of `--prompt`, which may be any text. -/
def setPrompt (s : Settings) (value : String) : Except UsageError Settings :=
  if s.prompt.isSome then .error (.repeatedOption "prompt")
  else .ok { s with prompt := some value }

def setVerbose (s : Settings) : Except UsageError Settings :=
  if s.verbose then .error (.repeatedOption "verbose") else .ok { s with verbose := true }

end Settings

/-- How reading goes on after an argument. -/
inductive Progress where
  | settled (settings : Settings)
  | answered (command : Command)
  deriving DecidableEq, Repr

/-- The short options of one argument, in order. -/
def shortOptions (argument : String) (s : Settings) : List Char → Except UsageError Progress
  | [] => .ok (.settled s)
  | 'v' :: letters =>
    match s.setVerbose with
    | .ok s => shortOptions argument s letters
    | .error e => .error e
  | 'V' :: _ => .ok (.answered .version)
  | 'h' :: _ => .ok (.answered .help)
  | _ => .error (.unknownOption argument)

def plainOption (argument name : String) (s : Settings) : Except UsageError Progress :=
  match name with
  | "verbose" => s.setVerbose.map .settled
  | "version" => .ok (.answered .version)
  | "help" => .ok (.answered .help)
  | _ => .error (.unknownOption argument)

inductive Valued where
  | mode
  | prompt
  deriving DecidableEq, Repr

namespace Valued

def name : Valued → String
  | mode => "mode"
  | prompt => "prompt"

def ofName? (name : String) : Option Valued :=
  match name with
  | "mode" => some mode
  | "prompt" => some prompt
  | _ => none

def set (option : Valued) (s : Settings) (value : String) : Except UsageError Settings :=
  match option with
  | mode => s.setMode value
  | prompt => s.setPrompt value

end Valued

/-- The kinds of argument, told apart by their first characters. -/
inductive Shape where
  /-- A lone `--`. -/
  | stop
  /-- A long option without a value. -/
  | long (name : String)
  /-- A long option with its value. -/
  | assigned (name value : String)
  /-- Short options. -/
  | short (letters : List Char)
  /-- A value or a file; a lone `-` is one. -/
  | plain
  deriving DecidableEq, Repr

def Shape.ofArgument (argument : String) : Shape :=
  match argument.toList with
  | '-' :: '-' :: [] => .stop
  | '-' :: '-' :: cs =>
    let name := String.ofList (cs.takeWhile (· ≠ '='))
    match cs.dropWhile (· ≠ '=') with
    | [] => .long name
    | _ :: value => .assigned name (String.ofList value)
  | '-' :: c :: cs => .short (c :: cs)
  | _ => .plain

/-- What the arguments ask for, given what those before them have settled. -/
def readArguments (s : Settings) : List String → Except UsageError Command
  | [] => .ok (.run s.toOptions)
  | argument :: arguments =>
    match Shape.ofArgument argument with
    | .stop =>
      match s.setFiles arguments with
      | .ok s => .ok (.run s.toOptions)
      | .error e => .error e
    | .plain =>
      match s.setFile argument with
      | .ok s => readArguments s arguments
      | .error e => .error e
    | .short letters =>
      match shortOptions argument s letters with
      | .ok (.settled s) => readArguments s arguments
      | .ok (.answered command) => .ok command
      | .error e => .error e
    | .assigned name value =>
      match Valued.ofName? name with
      | some option =>
        match option.set s value with
        | .ok s => readArguments s arguments
        | .error e => .error e
      | none =>
        match plainOption argument name s with
        | .ok _ => .error (.surplusValue name)
        | .error e => .error e
    | .long name =>
      match Valued.ofName? name with
      | some option =>
        match arguments with
        | [] => .error (.missingValue option.name)
        | value :: arguments =>
          if Shape.ofArgument value = .plain then
            match option.set s value with
            | .ok s => readArguments s arguments
            | .error e => .error e
          else .error (.missingValue option.name)
      | none =>
        match plainOption argument name s with
        | .ok (.settled s) => readArguments s arguments
        | .ok (.answered command) => .ok command
        | .error e => .error e

/-- What the arguments of a run ask for. -/
def Command.ofArguments (arguments : List String) : Except UsageError Command :=
  readArguments .empty arguments

end FrontEnd.CommandLine
