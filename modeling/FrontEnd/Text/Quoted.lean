import FrontEnd.Text.Printable
import FrontEnd.Text.ExtendingMark

/-!
# Quoted text

A quoted text stands between double quotes. Inside, a backslash escapes the quote and itself and
names the tab, the line ends and the zero character; any other character that is not printable, or
is a mark that would join the character before it, is written by its code point in hexadecimal.

* `escape` — how one character is written.
* `quote` — a text between quotes.
-/

namespace FrontEnd

def escape (c : Char) : String :=
  match c with
  | '"' => "\\\""
  | '\\' => "\\\\"
  | '\t' => "\\t"
  | '\n' => "\\n"
  | '\r' => "\\r"
  | '\x00' => "\\0"
  | c =>
    if isPrintable c && !isExtendingMark c then c.toString
    else "\\u\x7b" ++ String.ofList (Nat.toDigits 16 c.toNat) ++ "\x7d"

def quote (text : String) : String :=
  "\"" ++ String.join (text.toList.map escape) ++ "\""

end FrontEnd
