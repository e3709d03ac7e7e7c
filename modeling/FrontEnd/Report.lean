import FrontEnd.Diagnostic
import FrontEnd.Report.Line
import FrontEnd.Text.WhiteSpace

/-!
# Reports

A report shows a diagnostic together with the line of the source that it is about: the line without
its indentation, and under it an arrow whose head stands below the place.

* `Line.indentation`, `Line.quoted`, `Line.arrow` — the parts of the picture.
* `Diagnostic.report` — the whole report. If the source has no such place, the message takes the
  place of the picture.
-/

namespace FrontEnd

namespace Line

def isIndent (c : Char) : Bool := c = ' ' || c = '\t'

def indentation (line : Line) : Nat := (line.text.takeWhile isIndent).length

/-- The line as reports quote it: without its indentation (`remove_starting_whitespace`) and the
white space at its end. -/
def quoted (line : Line) : List Char := trimEnd (line.text.dropWhile isIndent)

/-- The shaft of the arrow: as many dashes as bytes stand before the place in the quoted line. -/
def arrow (line : Line) : List Char :=
  List.replicate (line.column - line.indentation) '-' ++ ['^']

/-- The picture of a place. A rule runs between the line numbers and the source. -/
def picture (line : Line) : String :=
  let number := toString line.number
  let margin := String.ofList (List.replicate (number.length + 1) ' ') ++ "|"
  margin ++ "\n" ++
    number ++ " | " ++ String.ofList line.quoted ++ "\n" ++
    margin ++ " " ++ String.ofList line.arrow ++ "\n"

end Line

namespace Diagnostic

/-- The first lines of a report: the name of the cause, what is best said about it, and the file. -/
def heading (d : Diagnostic) : String :=
  "Error: " ++ d.cause.name ++ " (" ++ d.cause.tip.getD d.cause.message ++ ")\n" ++
    "-> " ++ d.position.file ++ "\n"

/-- `display_error`. -/
def report (d : Diagnostic) (source : String) : String :=
  match Line.find? source d.position.offset with
  | some line => d.heading ++ line.picture
  | none => d.heading ++ "   " ++ d.cause.message ++ "\n"

end Diagnostic

end FrontEnd
