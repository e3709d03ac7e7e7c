/-!
# Positions and spans

A position is a byte offset into a named source; a span is the stretch between two positions.
-/

namespace FrontEnd

/-- A byte offset into the source called `file`. Offsets are 32-bit words: a larger count of bytes
keeps its low 32 bits only. -/
structure Position where
  offset : UInt32
  file : String
  deriving DecidableEq, Repr, Inhabited

def Position.null : Position := ⟨0, "<null>"⟩

/-- The position after `bytes` bytes of `file` (`position_at`). -/
def Position.ofBytes (file : String) (bytes : Nat) : Position := ⟨bytes.toUInt32, file⟩

/-- The stretch of source from `start` up to `stop`, exclusive. -/
structure Span where
  start : Position
  stop : Position
  deriving DecidableEq, Repr, Inhabited

def Span.null : Span := ⟨.null, .null⟩

end FrontEnd
