import FrontEnd.Position

/-!
# Tokens

* `TokenKind` — the 27 kinds of token, each with the name that diagnostics call it by.
* `TokenKind.ofWord` — the kind of a word: one of the seven reserved words, or an identifier.
* `Token` — a kind, the text it was read from and where that text stands.
-/

namespace FrontEnd

inductive TokenKind where
  | eof
  | illegal
  | identifier
  | integer
  | assign
  | plus
  | minus
  | bang
  | star
  | slash
  | less
  | greater
  | equal
  | notEqual
  | comma
  | semicolon
  | openParen
  | closeParen
  | openBrace
  | closeBrace
  | functionWord
  | letWord
  | trueWord
  | falseWord
  | returnWord
  | ifWord
  | elseWord
  deriving DecidableEq, Repr, Inhabited

namespace TokenKind

def all : List TokenKind :=
  [eof, illegal, identifier, integer, assign, plus, minus, bang, star, slash, less, greater, equal,
    notEqual, comma, semicolon, openParen, closeParen, openBrace, closeBrace, functionWord, letWord,
    trueWord, falseWord, returnWord, ifWord, elseWord]

theorem mem_all (k : TokenKind) : k ∈ all := by
  cases k <;> decide

/-- What a diagnostic calls the kind. -/
def name : TokenKind → String
  | eof => "EOF"
  | illegal => "ILLEGAL"
  | identifier => "IDENT"
  | integer => "INT"
  | assign => "="
  | plus => "+"
  | minus => "-"
  | bang => "!"
  | star => "*"
  | slash => "/"
  | less => "<"
  | greater => ">"
  | equal => "=="
  | notEqual => "!="
  | comma => ","
  | semicolon => ";"
  | openParen => "("
  | closeParen => ")"
  | openBrace => "\x7b"
  | closeBrace => "\x7d"
  | functionWord => "FUNCTION"
  | letWord => "LET"
  | trueWord => "TRUE"
  | falseWord => "FALSE"
  | returnWord => "RETURN"
  | ifWord => "IF"
  | elseWord => "ELSE"

/-- `lookup_identifier`: reserved words have kinds of their own, any other word is an identifier. -/
def ofWord (word : String) : TokenKind :=
  match word with
  | "fn" => functionWord
  | "let" => letWord
  | "true" => trueWord
  | "false" => falseWord
  | "return" => returnWord
  | "if" => ifWord
  | "else" => elseWord
  | _ => identifier

end TokenKind

structure Token where
  kind : TokenKind
  text : String
  span : Span
  deriving DecidableEq, Repr, Inhabited

namespace Token

/-- The token that stands for the end of the input, at `stop`. -/
def endOfInput (stop : Position) : Token := ⟨.eof, "", ⟨stop, stop⟩⟩

/-- The one-line description of a token in token listings and in the log. -/
def describe (t : Token) : String :=
  "\x7bType:" ++ t.kind.name ++ " Literal:" ++ t.text ++ "\x7d"

end Token

end FrontEnd
