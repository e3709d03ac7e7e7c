import FrontEnd.Report.Line
import FrontEnd.Proofs.Tokenization

/-!
# Finding a line

A place in a source is given by a count of bytes. The search for its line passes whole lines and
counts them; it stops in the line that holds the place, with the bytes that are left of the count.

* `WholeLines` — lines that each run through their line feed.

Principal results: `exists_wholeLines` (every text is whole lines and a beginning of a line),
`Line.findFrom_append` (whole lines are passed) and `Line.findFrom_of_line` (where the search
stops).
-/

namespace FrontEnd

/-- Lines that each run through their line feed. -/
inductive WholeLines : List Char → Prop where
  | nil : WholeLines []
  | cons {body rest : List Char} (hbody : '\n' ∉ body) (h : WholeLines rest) :
      WholeLines (body ++ '\n' :: rest)

/-- Every text is whole lines, and then a text without a line feed. -/
theorem exists_wholeLines (cs : List Char) :
    ∃ above body, cs = above ++ body ∧ WholeLines above ∧ '\n' ∉ body := by
  induction cs with
  | nil => exact ⟨[], [], rfl, .nil, List.not_mem_nil⟩
  | cons c cs ih =>
    obtain ⟨above, body, rfl, habove, hbody⟩ := ih
    by_cases hc : c = '\n'
    · subst hc
      have habove' : WholeLines ([] ++ '\n' :: above) := .cons List.not_mem_nil habove
      exact ⟨'\n' :: above, body, rfl, habove', hbody⟩
    · have hcons {line : List Char} (hline : '\n' ∉ line) : '\n' ∉ c :: line := by
        rw [List.mem_cons, not_or]
        exact ⟨Ne.symm hc, hline⟩
      cases habove with
      | nil => exact ⟨[], c :: body, rfl, .nil, hcons hbody⟩
      | @cons line rest hline hrest =>
        exact ⟨c :: line ++ '\n' :: rest, body, rfl, .cons (hcons hline) hrest, hbody⟩

namespace Line

theorem isInside_of_not_mem {body : List Char} (h : '\n' ∉ body) :
    ∀ c ∈ body, isInside c = true := by
  intro c hc
  refine decide_eq_true ?_
  rintro rfl
  exact h hc

/-- The search in a text that is a single line. -/
theorem findFrom_of_last {body : List Char} (h : '\n' ∉ body) (number offset : Nat) :
    findFrom number body offset =
      if offset ≤ byteLength body then some ⟨number, body, offset⟩ else none := by
  have hend : ∀ d ∈ ([] : List Char).head?, isInside d = false := nofun
  obtain ⟨-, hdrop⟩ := run_eq (isInside_of_not_mem h) hend
  rw [List.append_nil] at hdrop
  rw [findFrom]
  split
  · rfl
  · rename_i hcons
    rw [hdrop] at hcons
    cases hcons

/-- The search in a text that begins with a whole line. -/
theorem findFrom_of_feed {body : List Char} (h : '\n' ∉ body) (rest : List Char)
    (number offset : Nat) :
    findFrom number (body ++ '\n' :: rest) offset =
      if offset ≤ byteLength body then some ⟨number, body ++ ['\n'], offset⟩
      else findFrom (number + 1) rest (offset - (byteLength body + 1)) := by
  have hfeed : ∀ d ∈ ('\n' :: rest).head?, isInside d = false := fun _ hd =>
    Option.some.inj hd ▸ rfl
  obtain ⟨htake, hdrop⟩ := run_eq (isInside_of_not_mem h) hfeed
  have hlength : byteLength (body ++ ['\n']) = byteLength body + 1 := by
    rw [byteLength_append]
    rfl
  rw [findFrom]
  split
  · rename_i hnil
    rw [hdrop] at hnil
    cases hnil
  · rename_i feed rest' hcons
    rw [hdrop] at hcons
    obtain ⟨rfl, rfl⟩ := List.cons.inj hcons
    simp only [htake, hlength, Nat.lt_succ_iff]

/-- **Whole lines are passed** and counted. -/
theorem findFrom_append {above : List Char} (h : WholeLines above) (cs : List Char)
    (number offset : Nat) :
    findFrom number (above ++ cs) (byteLength above + offset) =
      findFrom (number + above.count '\n') cs offset := by
  induction h generalizing number with
  | nil => rw [byteLength_nil, Nat.zero_add]; rfl
  | @cons body rest hbody _ ih =>
    have hlength : byteLength (body ++ '\n' :: rest) = byteLength body + 1 + byteLength rest := by
      rw [byteLength_append, byteLength_cons, Nat.add_assoc]
      rfl
    have hcount : (body ++ '\n' :: rest).count '\n' = rest.count '\n' + 1 := by
      rw [List.count_append, List.count_eq_zero.2 hbody, List.count_cons_self, Nat.zero_add]
    have hrest : byteLength body + 1 + byteLength rest + offset - (byteLength body + 1) =
        byteLength rest + offset := by omega
    rw [List.append_assoc, List.cons_append, findFrom_of_feed hbody, hlength, if_neg (by omega),
      hrest, ih, hcount, Nat.add_assoc, Nat.add_comm 1]

/-- **The line that holds a place** is found, with what is left of the count of bytes. The place may
be the line feed, or the end of the source if that is not behind a line feed. -/
theorem findFrom_of_line {above body behind : List Char} (habove : WholeLines above)
    (hbody : '\n' ∉ body) (hbehind : ∀ c ∈ behind.head?, c = '\n') {column : Nat}
    (hcolumn : column ≤ byteLength body) (number : Nat) :
    findFrom number (above ++ (body ++ behind)) (byteLength above + column) =
      some ⟨number + above.count '\n', body ++ behind.take 1, column⟩ := by
  rw [findFrom_append habove]
  cases behind with
  | nil => rw [List.append_nil, findFrom_of_last hbody, if_pos hcolumn, List.take_nil,
      List.append_nil]
  | cons c behind =>
    obtain rfl : c = '\n' := hbehind c rfl
    rw [findFrom_of_feed hbody, if_pos hcolumn]
    rfl

end Line

end FrontEnd
