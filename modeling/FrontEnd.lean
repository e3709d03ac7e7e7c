import FrontEnd.Main
import FrontEnd.Proofs.Grammar
import FrontEnd.Proofs.ExpressionGrammar
import FrontEnd.Proofs.Relocation
import FrontEnd.Proofs.Tokenization
import FrontEnd.Proofs.Recovery
import FrontEnd.Proofs.Printing
import FrontEnd.Proofs.RoundTrip
import FrontEnd.Proofs.Spelling
import FrontEnd.Proofs.FixedPoint
import FrontEnd.Proofs.LexicalGrammar
import FrontEnd.Proofs.Conservation
import FrontEnd.Proofs.Rejection
import FrontEnd.Proofs.CorrectPrefix
import FrontEnd.Proofs.Composition
import FrontEnd.Proofs.Layout
import FrontEnd.Proofs.Termination
import FrontEnd.Proofs.Balance
import FrontEnd.Proofs.Accuracy
import FrontEnd.Proofs.Trace
import FrontEnd.Proofs.Window
import FrontEnd.Proofs.Coverage
import FrontEnd.Proofs.Nesting
import FrontEnd.Proofs.Legibility
import FrontEnd.Proofs.Extension
import FrontEnd.Proofs.Precedence
import FrontEnd.Proofs.Seam
import FrontEnd.Proofs.Lines
import FrontEnd.Proofs.LineByLine
import FrontEnd.Proofs.Cursor
import FrontEnd.Proofs.Suffix
import FrontEnd.Proofs.LineLookup
import FrontEnd.Proofs.Caret
import FrontEnd.Proofs.Literals
import FrontEnd.Proofs.BareLiteral
import FrontEnd.Proofs.ByteLines
import FrontEnd.Proofs.ReportPlace
import FrontEnd.Proofs.Requests
import FrontEnd.Proofs.Cutoff
import FrontEnd.Proofs.Limit
import FrontEnd.Proofs.Semicolons
