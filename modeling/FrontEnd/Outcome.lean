import FrontEnd.Diagnostic
import FrontEnd.TokenStream

/-!
# Outcomes of a parse

An attempt to parse ends with a tree or with a diagnostic. Either way it says which tokens are left:
a failed attempt gives none of its tokens back.

* `Outcome.andThen` — goes on with the tree and the tokens that are left, if there is a tree.
* `TokenStream.expectPeek` — steps on to a token of one kind.
-/

namespace FrontEnd

/-- How an attempt to parse ends: what it found, and the tokens from the current one on. -/
inductive Outcome (α : Type) where
  | found (value : α) (rest : TokenStream)
  | failed (why : Diagnostic) (rest : TokenStream)
  deriving DecidableEq, Repr

namespace Outcome

variable {α β : Type}

def rest : Outcome α → TokenStream
  | found _ rest => rest
  | failed _ rest => rest

def result : Outcome α → Except Diagnostic α
  | found value _ => .ok value
  | failed why _ => .error why

def andThen (o : Outcome α) (f : α → TokenStream → Outcome β) : Outcome β :=
  match o with
  | found value rest => f value rest
  | failed why rest => failed why rest

@[simp] theorem andThen_found (value : α) (rest : TokenStream) (f : α → TokenStream → Outcome β) :
    (found value rest).andThen f = f value rest := rfl

@[simp] theorem andThen_failed (why : Diagnostic) (rest : TokenStream)
    (f : α → TokenStream → Outcome β) :
    (failed why rest : Outcome α).andThen f = failed why rest := rfl

theorem andThen_eq_found {o : Outcome α} {f : α → TokenStream → Outcome β} {value : β}
    {s : TokenStream} :
    o.andThen f = found value s ↔ ∃ a t, o = found a t ∧ f a t = found value s := by
  cases o <;> simp [and_assoc]

theorem andThen_eq_failed {o : Outcome α} {f : α → TokenStream → Outcome β} {why : Diagnostic}
    {s : TokenStream} :
    o.andThen f = failed why s ↔
      o = failed why s ∨ ∃ a t, o = found a t ∧ f a t = failed why s := by
  cases o <;> simp [and_assoc]

end Outcome

namespace TokenStream

/-- `expect_peek`: steps on if the token after the current one is of the kind `expected`; otherwise
fails at that token, and stays. -/
def expectPeek (s : TokenStream) (expected : TokenKind) : Outcome Unit :=
  if s.peek.kind = expected then .found () s.next
  else .failed ⟨.unexpectedToken expected s.peek.kind s.peek.text, s.peek.span.start⟩ s

end TokenStream

end FrontEnd
