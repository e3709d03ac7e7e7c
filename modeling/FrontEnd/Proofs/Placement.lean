import FrontEnd.Proofs.CorrectPrefix
import FrontEnd.Proofs.Layout
import FrontEnd.Proofs.LexicalGrammar

/-!
# Where tokens and trees stand

The tokens of a source are numbered, and the end of input has every number after theirs. They stand
one after another in the source. A tree spans the stretch from its first node to its last: the
parentheses around a group leave no node, so that a tree may begin and end inside of groups.

* `Phrase.openings`, `Phrase.core`, `Phrase.closings` — the parentheses around the nodes of a
  phrase, and the tokens from its first node to its last.
* `TokenStream.token`, `endless` — the tokens of a stream, and of a source, by number.

Principal results: `Phrase.tokens_eq_core` and `Phrase.tree_span` (a tree spans the core of its
phrase), `endless_places` (tokens have a width and do not overlap).
-/

namespace FrontEnd

open TokenStream

/-! ## The span of a tree -/

namespace Phrase

/-- The parentheses that are open where the first node of a phrase begins. -/
def openings : Phrase → List Token
  | group opening inner _ => opening :: inner.openings
  | binary left _ _ => left.openings
  | _ => []

/-- The parentheses that close after the last node of a phrase. -/
def closings : Phrase → List Token
  | unary _ operand => operand.closings
  | group _ inner closing => inner.closings ++ [closing]
  | binary _ _ right => right.closings
  | _ => []

/-- The tokens of a phrase from its first node to its last. -/
def core : Phrase → List Token
  | identifier name => [name]
  | integer token _ => [token]
  | boolean token => [token]
  | unary operator operand => operator :: (operand.openings ++ operand.core)
  | group _ inner _ => inner.core
  | binary left operator right =>
    left.core ++ (left.closings ++ operator :: (right.openings ++ right.core))

theorem core_ne_nil (x : Phrase) : x.core ≠ [] := by
  induction x with
  | identifier | integer | boolean | unary => exact List.cons_ne_nil _ _
  | group _ _ _ ih => exact ih
  | binary _ _ _ ihl _ => exact List.append_ne_nil_of_left_ne_nil ihl _

/-- A phrase is its core in parentheses, not all of which need to match within the phrase's core. -/
theorem tokens_eq_core (x : Phrase) : x.tokens = x.openings ++ (x.core ++ x.closings) := by
  induction x with
  | identifier | integer | boolean => rfl
  | unary operator operand ih => simp [tokens, openings, core, closings, ih]
  | group opening inner closing ih => simp [tokens, openings, core, closings, ih]
  | binary left operator right ihl ihr => simp [tokens, openings, core, closings, ihl, ihr]

/-- A tree spans the core of its phrase: the parentheses around it are left out. -/
theorem tree_span (x : Phrase) :
    x.tree.span =
      ⟨(x.core.head x.core_ne_nil).span.start, (x.core.getLast x.core_ne_nil).span.stop⟩ := by
  induction x with
  | identifier | integer | boolean => rfl
  | unary operator operand ih =>
    have hlast : (unary operator operand).core.getLast (core_ne_nil _) =
        operand.core.getLast operand.core_ne_nil := by
      have hrest := List.append_ne_nil_of_right_ne_nil operand.openings operand.core_ne_nil
      simp only [core, List.getLast_cons hrest,
        List.getLast_append_of_ne_nil _ operand.core_ne_nil]
    show Span.mk operator.span.start operand.tree.span.stop = _
    rw [hlast, ih]
    rfl
  | group _ _ _ ih => exact ih
  | binary left operator right ihl ihr =>
    have hfirst : (binary left operator right).core.head (core_ne_nil _) =
        left.core.head left.core_ne_nil := by
      simp only [core, List.head_append_of_ne_nil left.core_ne_nil]
    have hlast : (binary left operator right).core.getLast (core_ne_nil _) =
        right.core.getLast right.core_ne_nil := by
      have hrest := List.append_ne_nil_of_right_ne_nil right.openings right.core_ne_nil
      have hoperator := List.cons_ne_nil operator (right.openings ++ right.core)
      simp only [core, List.getLast_cons hrest, List.getLast_append_of_ne_nil _ hoperator,
        List.getLast_append_of_ne_nil _ right.core_ne_nil,
        List.getLast_append_of_ne_nil _ (List.append_ne_nil_of_right_ne_nil _ hoperator)]
    show Span.mk left.tree.span.start right.tree.span.stop = _
    rw [hfirst, hlast, ihl, ihr]

end Phrase

/-! ## Tokens by number -/

namespace TokenStream

theorem token_skip (s : TokenStream) (j k : Nat) : (s.skip j).token k = s.token (j + k) := by
  rw [token, token, skip_skip]

theorem skip_inj {s : TokenStream} {j k : Nat} (h : s.skip j = s.skip k) : j = k :=
  Nat.add_left_cancel (congrArg passed h)

theorem token_of_lt {s : TokenStream} {k : Nat} (h : k < s.pending.length) :
    s.token k = s.pending[k] := by
  apply current_of_cons (r := s.pending.drop (k + 1))
  rw [skip_pending, List.drop_eq_getElem_cons h]

theorem token_of_le {s : TokenStream} {k : Nat} (h : s.pending.length ≤ k) :
    s.token k = s.closing := by
  apply current_of_nil
  rw [skip_pending, List.drop_eq_nil_of_le h]

theorem Starts.token_eq {s : TokenStream} {u : List Token} (h : s.Starts u) {k : Nat}
    (hk : k < u.length) : s.token k = u[k] := by
  have hlt : k < s.pending.length := Nat.lt_of_lt_of_le hk h.length_le
  rw [token_of_lt hlt]
  obtain ⟨r, hr⟩ := h
  simp only [← hr, List.getElem_append_left hk]

end TokenStream

/-- Token `k` of the source called `file`. The end of input comes after the others, for ever. -/
def endless (file source : String) (k : Nat) : Token :=
  (tokensIn file source).getD k (.endOfInput (.ofBytes file source.utf8ByteSize))

theorem endless_of_lt {file source : String} {k : Nat}
    (h : k < (Lexer.ofFile file source).tokens.length) :
    endless file source k = (Lexer.ofFile file source).tokens[k] := by
  rw [endless, tokensIn, List.getD_eq_getElem?_getD, List.getElem?_append_left h,
    List.getElem?_eq_getElem h, Option.getD_some]

theorem endless_of_le {file source : String} {k : Nat}
    (h : (Lexer.ofFile file source).tokens.length ≤ k) :
    endless file source k = .endOfInput (.ofBytes file source.utf8ByteSize) := by
  rw [endless, tokensIn, List.getD_eq_getElem?_getD, List.getElem?_append_right h]
  cases k - (Lexer.ofFile file source).tokens.length <;> rfl

theorem endless_eq_token (file source : String) (k : Nat) :
    endless file source k = (Lexer.ofFile file source).stream.token k := by
  rw [stream_ofFile]
  rcases Nat.lt_or_ge k (Lexer.ofFile file source).tokens.length with hlt | hge
  · rw [endless_of_lt hlt]
    exact (token_of_lt (s := ⟨_, _, 0⟩) hlt).symm
  · rw [endless_of_le hge]
    exact (token_of_le (s := ⟨_, _, 0⟩) hge).symm

theorem endless_mem (file source : String) (k : Nat) :
    endless file source k ∈ tokensIn file source := by
  rcases Nat.lt_or_ge k (Lexer.ofFile file source).tokens.length with hlt | hge
  · rw [endless_of_lt hlt]
    exact List.mem_append_left _ (List.getElem_mem hlt)
  · rw [endless_of_le hge]
    exact List.mem_append_right _ (List.mem_singleton.2 rfl)

/-! ### Tokens in the source -/

/-- Counted in bytes without a limit, tokens stand in the source one after another. They have a
width, but for the end of input, which is where the source ends. -/
theorem endless_places (file source : String) :
    ∃ place : Nat → Nat × Nat,
      (∀ k, (endless file source k).span = Span.ofBytes file (place k)) ∧
      (∀ k, (place k).1 ≤ (place k).2 ∧ (place k).2 ≤ source.utf8ByteSize ∧
        ((endless file source k).kind ≠ .eof → (place k).1 < (place k).2)) ∧
      ∀ j k, j < k → (place j).2 ≤ (place k).1 := by
  obtain ⟨ps, hspans, hbounds, hpairs⟩ := (Lexer.ofFile file source).scans_tokens.places
  have hsource : (Lexer.ofFile file source).offset +
      byteLength (Lexer.ofFile file source).rest = source.utf8ByteSize := by
    rw [Lexer.ofFile, Nat.zero_add, byteLength_toList]
  rw [hsource] at hbounds
  have hlength : (Lexer.ofFile file source).tokens.length = ps.length := by
    simpa only [List.length_map] using congrArg List.length hspans
  obtain ⟨place, hin, hout⟩ : ∃ place : Nat → Nat × Nat,
      (∀ k (h : k < ps.length), place k = ps[k]) ∧
      ∀ k, ps.length ≤ k → place k = (source.utf8ByteSize, source.utf8ByteSize) :=
    ⟨fun k => ps.getD k (source.utf8ByteSize, source.utf8ByteSize), fun k h => by simp [h],
      fun k h => by simp [h]⟩
  refine ⟨place, fun k => ?_, fun k => ?_, fun j k hjk => ?_⟩
  all_goals rcases Nat.lt_or_ge k ps.length with hlt | hge
  · have hspan := congrArg (fun spans => spans[k]?) hspans
    simp only [List.getElem?_map, List.getElem?_eq_getElem (hlength ▸ hlt),
      List.getElem?_eq_getElem hlt, Option.map_some, Option.some.injEq] at hspan
    rw [endless_of_lt (hlength ▸ hlt), hspan, hin k hlt]
    rfl
  · rw [endless_of_le (hlength ▸ hge), hout k hge]
    rfl
  · rw [hin k hlt]
    obtain ⟨-, hwidth, hstop⟩ := hbounds _ (List.getElem_mem hlt)
    exact ⟨Nat.le_of_lt hwidth, hstop, fun _ => hwidth⟩
  · rw [endless_of_le (hlength ▸ hge), hout k hge]
    exact ⟨Nat.le_refl _, Nat.le_refl _, fun hkind => absurd rfl hkind⟩
  · rw [hin k hlt, hin j (Nat.lt_trans hjk hlt)]
    exact List.pairwise_iff_getElem.1 hpairs j k _ hlt hjk
  · rw [hout k hge]
    rcases Nat.lt_or_ge j ps.length with hj | hj
    · rw [hin j hj]
      exact (hbounds _ (List.getElem_mem hj)).2.2
    · exact Nat.le_of_eq (by rw [hout j hj])

section

variable (file : String) {source : String} (hsize : source.utf8ByteSize < UInt32.size)

include hsize

/-- In a source of less than four gibibytes offsets are those counts of bytes. -/
theorem endless_offsets :
    (∀ k, (endless file source k).start ≤ (endless file source k).stop ∧
      (endless file source k).stop ≤ source.utf8ByteSize ∧
      ((endless file source k).kind ≠ .eof →
        (endless file source k).start < (endless file source k).stop)) ∧
      ∀ j k, j < k → (endless file source j).stop ≤ (endless file source k).start := by
  obtain ⟨place, hspan, hbounds, hordered⟩ := endless_places file source
  have hplace : ∀ k, (endless file source k).start = (place k).1 ∧
      (endless file source k).stop = (place k).2 := by
    intro k
    have := hbounds k
    rw [Token.start, Token.stop, hspan]
    exact ⟨Position.toNat_offset_ofBytes _ (by omega), Position.toNat_offset_ofBytes _ (by omega)⟩
  refine ⟨fun k => ?_, fun j k hjk => ?_⟩
  · rw [(hplace k).1, (hplace k).2]
    exact hbounds k
  · rw [(hplace j).2, (hplace k).1]
    exact hordered j k hjk

/-- Tokens have a width, but for the end of input. -/
theorem endless_width (k : Nat) :
    (endless file source k).start ≤ (endless file source k).stop ∧
      (endless file source k).stop ≤ source.utf8ByteSize ∧
      ((endless file source k).kind ≠ .eof →
        (endless file source k).start < (endless file source k).stop) :=
  (endless_offsets file hsize).1 k

theorem endless_stop_le {j k : Nat} (h : j < k) :
    (endless file source j).stop ≤ (endless file source k).start :=
  (endless_offsets file hsize).2 j k h

theorem endless_start_le {j k : Nat} (h : j ≤ k) :
    (endless file source j).start ≤ (endless file source k).start := by
  rcases Nat.lt_or_eq_of_le h with hlt | rfl
  · exact Nat.le_trans (endless_width file hsize j).1 (endless_stop_le file hsize hlt)
  · exact Nat.le_refl _

theorem endless_stop_mono {j k : Nat} (h : j ≤ k) :
    (endless file source j).stop ≤ (endless file source k).stop := by
  rcases Nat.lt_or_eq_of_le h with hlt | rfl
  · exact Nat.le_trans (endless_stop_le file hsize hlt) (endless_width file hsize k).1
  · exact Nat.le_refl _

/-- A token starts before every token after it, unless it is the end of input. -/
theorem endless_start_lt {j k : Nat} (h : j < k) (hkind : (endless file source j).kind ≠ .eof) :
    (endless file source j).start < (endless file source k).start :=
  Nat.lt_of_lt_of_le ((endless_width file hsize j).2.2 hkind) (endless_stop_le file hsize h)

end

end FrontEnd
