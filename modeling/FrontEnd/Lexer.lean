import FrontEnd.Text.Width
import FrontEnd.Token

/-!
# The lexer

A source is cut into words, integers, operators and delimiters, each as long as it can be. Blanks
separate and are dropped; any other character is an illegal token of its own, so no source is
refused.

* `Lexeme.first` — the lexeme at the head of a text that begins with no blank.
* `Lexer` — a cursor in a source. It counts bytes, and so can be moved inside a character
  (`Lexer.advance`); no token can be read there.
* `Lexer.next?`, `Lexer.collect?`, `Lexer.findWhere?` — read one token, all of them, or up to one
  that is wanted.
* `tokenize` — all tokens of a source, the end of input included.

Principal results: `Lexeme.first_text_append` (a lexeme and what follows it are the text it was read
from) and `Lexer.scan_rest_lt` (every token but the end of input uses up a character).
-/

namespace FrontEnd

def isBlank (c : Char) : Bool := c = ' ' || c = '\t' || c = '\n' || c = '\r'

/-- The characters of words: the ASCII letters and the underscore. -/
def isWordChar (c : Char) : Bool := c.isAlpha || c = '_'

/-- The kind of an operator or delimiter of one character; illegal if `c` is none. -/
def TokenKind.ofSymbol (c : Char) : TokenKind :=
  match c with
  | '=' => .assign
  | '+' => .plus
  | '-' => .minus
  | '!' => .bang
  | '*' => .star
  | '/' => .slash
  | '<' => .less
  | '>' => .greater
  | ',' => .comma
  | ';' => .semicolon
  | '(' => .openParen
  | ')' => .closeParen
  | '\x7b' => .openBrace
  | '\x7d' => .closeBrace
  | _ => .illegal

/-- A lexeme at the head of a text: its kind, its characters, and the characters after it. -/
structure Lexeme where
  kind : TokenKind
  text : List Char
  rest : List Char
  deriving DecidableEq, Repr

/-- The longest lexeme at the head of `c :: cs` (`PATTERNS` and `illegal_handler`). -/
def Lexeme.first (c : Char) (cs : List Char) : Lexeme :=
  if isWordChar c then
    let word := c :: cs.takeWhile isWordChar
    ⟨.ofWord (String.ofList word), word, cs.dropWhile isWordChar⟩
  else if c.isDigit then
    ⟨.integer, c :: cs.takeWhile Char.isDigit, cs.dropWhile Char.isDigit⟩
  else
    match c, cs with
    | '=', '=' :: rest => ⟨.equal, ['=', '='], rest⟩
    | '!', '=' :: rest => ⟨.notEqual, ['!', '='], rest⟩
    | c, rest => ⟨.ofSymbol c, [c], rest⟩

namespace Lexeme

/-- Nothing is lost: a lexeme and what follows it are the text it was read from. -/
theorem first_text_append (c : Char) (cs : List Char) :
    (first c cs).text ++ (first c cs).rest = c :: cs := by
  unfold first
  split
  · simp
  · split
    · simp
    · split <;> rfl

theorem first_text_ne_nil (c : Char) (cs : List Char) : (first c cs).text ≠ [] := by
  unfold first
  split
  · simp
  · split
    · simp
    · split <;> simp

theorem first_rest_length_le (c : Char) (cs : List Char) :
    (first c cs).rest.length ≤ cs.length := by
  have h := congrArg List.length (first_text_append c cs)
  have hpos := List.length_pos_iff.2 (first_text_ne_nil c cs)
  rw [List.length_append, List.length_cons] at h
  omega

end Lexeme

/-- A cursor in the source called `file`, `offset` bytes after its start. The characters from the
next boundary on are `rest`; the boundary is `cut` bytes ahead, and `cut` is zero unless the cursor
stands inside a character. -/
structure Lexer where
  file : String
  offset : Nat
  cut : Nat
  rest : List Char
  deriving DecidableEq, Repr

namespace Lexer

def defaultFile : String := "shell"

/-- `with_file`. -/
def ofFile (file source : String) : Lexer := ⟨file, 0, 0, source.toList⟩

def ofSource (source : String) : Lexer := ofFile defaultFile source

/-- `at_eof`. -/
def atEnd (l : Lexer) : Bool := l.cut = 0 && l.rest.isEmpty

def position (l : Lexer) : Position := .ofBytes l.file l.offset

def spanOf (l : Lexer) (width : Nat) : Span :=
  ⟨.ofBytes l.file l.offset, .ofBytes l.file (l.offset + width)⟩

/-- Skips `n` bytes of the characters `cs`: what is left of a character cut in two, and the
characters after it. -/
def skipBytes : Nat → List Char → Nat × List Char
  | 0, cs => (0, cs)
  | _, [] => (0, [])
  | n, c :: cs => if n < c.utf8Size then (c.utf8Size - n, cs) else skipBytes (n - c.utf8Size) cs

/-- `advance_n`: moves the cursor `n` bytes on, past the end of the source if need be. -/
def advance (l : Lexer) (n : Nat) : Lexer :=
  if n < l.cut then
    { l with offset := l.offset + n, cut := l.cut - n }
  else
    match skipBytes (n - l.cut) l.rest with
    | (cut, rest) => { l with offset := l.offset + n, cut, rest }

/-- `make_token`: the cursor moves on by the width of the text, whatever the source holds there. -/
def emit (l : Lexer) (kind : TokenKind) (text : String) : Token × Lexer :=
  (⟨kind, text, l.spanOf text.utf8ByteSize⟩, l.advance text.utf8ByteSize)

/-- Moves the cursor over blanks (`skip_handler`). -/
def skipBlanks (l : Lexer) : Lexer :=
  { l with
    offset := l.offset + byteLength (l.rest.takeWhile isBlank)
    rest := l.rest.dropWhile isBlank }

/-- `scan`, from the next boundary. At the end of the source it reads the end of input, however
often it is asked. -/
def scan (l : Lexer) : Token × Lexer :=
  let l := l.skipBlanks
  match l.rest with
  | [] => (.endOfInput l.position, l)
  | c :: cs =>
    let lexeme := Lexeme.first c cs
    let width := byteLength lexeme.text
    (⟨lexeme.kind, String.ofList lexeme.text, l.spanOf width⟩,
      { l with offset := l.offset + width, rest := lexeme.rest })

/-- Every token but the end of input uses up a character. -/
theorem scan_rest_lt {l : Lexer} (h : l.scan.1.kind ≠ .eof) :
    l.scan.2.rest.length < l.rest.length := by
  unfold scan at h ⊢
  have hle : l.skipBlanks.rest.length ≤ l.rest.length :=
    (List.dropWhile_suffix isBlank).length_le
  generalize l.skipBlanks = m at h hle ⊢
  cases hrest : m.rest with
  | nil => simp [hrest, Token.endOfInput] at h
  | cons c cs =>
    have := Lexeme.first_rest_length_le c cs
    simp only [hrest, List.length_cons] at hle ⊢
    omega

/-- Reads all tokens before the end of input, and the end of input with them; the tokens are added
to `read`. -/
def collect (l : Lexer) (read : Array Token) : Array Token × Lexer :=
  if _h : l.scan.1.kind = .eof then (read, l.scan.2)
  else collect l.scan.2 (read.push l.scan.1)
termination_by l.rest.length
decreasing_by exact scan_rest_lt ‹_›

/-- Reads tokens through the first that is wanted, or to the end of input if there is none; the
answer is the number of tokens before it, counted from `index`. -/
def find (l : Lexer) (wanted : Token → Bool) (index : Nat) : Option Nat × Lexer :=
  if _h : l.scan.1.kind = .eof then (none, l.scan.2)
  else if wanted l.scan.1 then (some index, l.scan.2)
  else find l.scan.2 wanted (index + 1)
termination_by l.rest.length
decreasing_by exact scan_rest_lt ‹_›

/-! ### Reading at any cursor

No token can be read while the cursor stands inside a character; the cursor stays where it is. -/

/-- `next_token`. -/
def next? (l : Lexer) : Option (Token × Lexer) :=
  if l.cut = 0 then some l.scan else none

/-- `next`: no token at the end of the source. -/
def pull? (l : Lexer) : Option (Option Token × Lexer) :=
  l.next?.map fun (token, l) => (if token.kind = .eof then none else some token, l)

def collect? (l : Lexer) : Option (List Token × Lexer) :=
  if l.cut = 0 then
    match l.collect #[] with
    | (read, l) => some (read.toList, l)
  else none

def findWhere? (l : Lexer) (wanted : Token → Bool) : Option (Option Nat × Lexer) :=
  if l.cut = 0 then some (l.find wanted 0) else none

def find? (l : Lexer) (kind : TokenKind) : Option (Option Nat × Lexer) :=
  l.findWhere? fun t => t.kind = kind

end Lexer

def tokenize (source : String) : List Token :=
  match (Lexer.ofSource source).collect #[] with
  | (read, l) => read.toList ++ [.endOfInput l.position]

end FrontEnd
