import FrontEnd.Lexer

/-!
# Token streams

The parser sees the tokens of a source through a window of two: the current token and the one after
it. Once the tokens are used up, the end of input repeats for ever.

* `TokenStream` — the tokens from the current one on.
* `TokenStream.current`, `TokenStream.peek`, `TokenStream.next` — the window, and its step.
* `TokenStream.drawn` — the tokens that come into sight as the window moves.
* `Lexer.stream` — the tokens that are left to read in a source.

Principal results: `current_next` (a step brings the second token of the window to its front) and
`drawn_one` (and draws one token behind it).
-/

namespace FrontEnd

/-- The tokens from the current one on. The input ends at `stop`; `passed` counts the tokens that
the window has left behind, the end of input as often as it was left. -/
structure TokenStream where
  pending : List Token
  stop : Position
  passed : Nat
  deriving DecidableEq, Repr

namespace TokenStream

def closing (s : TokenStream) : Token := .endOfInput s.stop

def current (s : TokenStream) : Token :=
  match s.pending with
  | token :: _ => token
  | [] => s.closing

def peek (s : TokenStream) : Token :=
  match s.pending with
  | _ :: token :: _ => token
  | _ => s.closing

def next (s : TokenStream) : TokenStream :=
  { s with pending := s.pending.tail, passed := s.passed + 1 }

@[simp] theorem current_next (s : TokenStream) : s.next.current = s.peek := by
  obtain ⟨pending, stop, passed⟩ := s
  cases pending with
  | nil => rfl
  | cons token pending => cases pending <;> rfl

def atEnd (s : TokenStream) : Bool := s.current.kind = .eof

/-- The stream one token on if the token after the current one is of the given kind. -/
def skipPeek (s : TokenStream) (kind : TokenKind) : TokenStream :=
  if s.peek.kind = kind then s.next else s

/-- The tokens that come into the window over the next `steps` steps. -/
def drawn (s : TokenStream) (steps : Nat) : List Token :=
  let ahead := (s.pending.drop 2).take steps
  ahead ++ List.replicate (steps - ahead.length) s.closing

@[simp] theorem length_drawn (s : TokenStream) (steps : Nat) : (s.drawn steps).length = steps := by
  simp only [drawn, List.length_append, List.length_take, List.length_replicate]
  omega

/-- A single step draws the token that it brings to the end of the window. -/
theorem drawn_one (s : TokenStream) : s.drawn 1 = [s.next.peek] := by
  obtain ⟨pending, stop, passed⟩ := s
  rcases pending with _ | ⟨_, _ | ⟨_, _ | ⟨_, _⟩⟩⟩ <;> rfl

/-- `skip_to_statement_end`: moves on until the next token is a semicolon or the end of input. -/
def skipToStatementEnd (s : TokenStream) : TokenStream := go s.pending s
where
  /-- At most one step for every token in `budget`. -/
  go : List Token → TokenStream → TokenStream
    | [], s => s
    | _ :: budget, s =>
      if s.peek.kind = .semicolon ∨ s.peek.kind = .eof then s else go budget s.next

end TokenStream

namespace Lexer

/-- The tokens from the next boundary on. -/
def stream (l : Lexer) : TokenStream :=
  match l.collect #[] with
  | (read, l) => ⟨read.toList, l.position, 0⟩

end Lexer

end FrontEnd
