import FrontEnd.Proofs.Recovery

/-!
# Sources put together

A source in which everything could be parsed, and which ends with a semicolon, leaves no trace on
what comes after it: the parser has come to the end of a statement there, although it has already
seen the next token. Whatever follows is parsed as it would be on its own, only further on. It may
begin with a semicolon, and it may be full of errors.

* `Extends` — from the theory of recovery: a stream that ends with a semicolon, and the same stream
  with more tokens after it.

Principal results: `rounds_extends_of_clean` (the attempts at a longer stream are those at its clean
beginning and then those at the rest, whatever the rest is) and `parse_append_of_clean`, which says
the same of sources.
-/

namespace FrontEnd

open TokenStream

/-- **A clean beginning is parsed without regard to what follows it.** -/
theorem rounds_extends_of_clean {last : Token} {more : List Token} {stop : Position}
    {s s' : TokenStream} (h : Extends last more stop s s') (heof : ∀ t ∈ s.pending, t.kind ≠ .eof)
    (levels : Nat) (hclean : diagnosticsOf (s.rounds .default levels) = []) :
    ∃ n, s'.rounds .default levels =
      s.rounds .default levels ++ TokenStream.rounds .default levels ⟨more, stop, n⟩ := by
  induction hn : s.pending.length using Nat.strongRecOn generalizing s s' with
  | ind n ih =>
    obtain ⟨token, r, hpending⟩ := h.exists_cons
    have hend : s.atEnd = false := by
      rw [atEnd, current_of_cons hpending]
      exact decide_eq_false (heof token (by rw [hpending]; exact List.mem_cons_self))
    have hend' : s'.atEnd = false := by rw [h.atEnd_eq, hend]
    have hlt := round_length_lt .default levels (pending_ne_nil_of_not_atEnd hend)
    have hreach := (Reaches.next s).trans (round_reaches .default levels s)
    have hparse := parseStmt_mirrored (mirrors_extends last more stop) levels h
    rw [rounds_of_not_atEnd hend] at hclean ⊢
    rw [rounds_of_not_atEnd hend']
    cases ho : parseStmt .default levels s with
    | failed d u =>
      rw [round_of_failed ho] at hclean
      cases hclean
    | found statement u =>
      rw [ho] at hparse
      generalize ho' : parseStmt .default levels s' = o' at hparse
      cases hparse with
      | @found _ _ u' hu =>
        rw [Stmt.relocate_id] at ho'
        rw [round_of_found ho] at hclean hlt hreach ⊢
        rw [round_of_found ho']
        -- The statement ends at or before the semicolon, so one token on there is the rest of the
        -- clean beginning, or else what follows it.
        rcases hu.next with hext | ⟨hnil, hrest⟩
        · have heof' : ∀ t ∈ u.next.pending, t.kind ≠ .eof := fun t ht =>
            heof t (hreach.mem_pending ht)
          obtain ⟨n, hrounds⟩ := ih u.next.pending.length (hn ▸ hlt) hext heof' hclean rfl
          exact ⟨n, by rw [hrounds, List.cons_append]⟩
        · refine ⟨u'.next.passed, ?_⟩
          rw [rounds_of_atEnd (atEnd_of_nil hnil), ← hrest]
          rfl

/-- A source that has no tokens only moves on what follows it. -/
theorem streamOf_append_of_nil {a : String} (h : tokensOf a = []) (b : String) :
    streamOf (a ++ b) = (streamOf b).relocate (Position.shift a.utf8ByteSize) 0 := by
  rw [← streamOf_shift, streamOf_eq, tokensOf_append_of_nil h]

theorem rounds_of_tokensOf_nil {source : String} (h : tokensOf source = []) :
    (streamOf source).rounds .default maxNesting = [] := by
  rw [streamOf_eq, h]
  exact rounds_of_atEnd (atEnd_of_nil rfl)

section

variable {a : String} (hclean : (parse a).2 = [])
  (hlast : ∀ last ∈ (tokensOf a).getLast?, last.kind = .semicolon) (b : String)

include hclean hlast

/-- What follows a clean source that ends with a semicolon, or has no tokens, is tried apart from
it. -/
theorem rounds_append_of_clean :
    (streamOf (a ++ b)).rounds .default maxNesting =
      (streamOf a).rounds .default maxNesting ++
        ((streamOf b).rounds .default maxNesting).map
          (relocateItem (Position.shift a.utf8ByteSize)) := by
  cases h : (tokensOf a).getLast? with
  | none =>
    have hnil := List.getLast?_eq_none_iff.1 h
    rw [rounds_of_tokensOf_nil hnil, List.nil_append, streamOf_append_of_nil hnil,
      rounds_relocate]
  | some last =>
    have hext := streamOf_extends (b := b) h (hlast last h)
    have heof : ∀ t ∈ (streamOf a).pending, t.kind ≠ .eof := by
      rw [streamOf_eq]
      exact fun t ht => (Lexer.scans_tokens _).kind_ne_eof ht
    rw [parse_diagnostics] at hclean
    obtain ⟨n, hjoin⟩ := rounds_extends_of_clean hext heof maxNesting hclean
    rw [hjoin, streamOf_shift, rounds_relocate]

theorem contained_of_clean : Contained a b := by
  refine (contained_iff_of_rounds (rounds_append_of_clean hclean hlast b) 0).2 ?_
  rw [rounds_relocate]
  exact ⟨rfl, rfl⟩

end

/-- **Clean sources compose with anything.** Let everything in `a` be parsed, and let `a` end with a
semicolon or have no tokens. Then `a` and `b` together hold the statements of `a` and after them
those of `b`, and the diagnostics of `b`, all that comes from `b` being as many bytes further on as
`a` has. -/
theorem parse_append_of_clean {a : String} (hclean : (parse a).2 = [])
    (hlast : ∀ last ∈ (tokensOf a).getLast?, last.kind = .semicolon) (b : String) :
    (parse (a ++ b)).1.statements = (parse a).1.statements ++
        (parse b).1.statements.map (Stmt.relocate (Position.shift a.utf8ByteSize)) ∧
      (parse (a ++ b)).2 =
        (parse b).2.map (Diagnostic.relocate (Position.shift a.utf8ByteSize)) ∧
      (parse (a ++ b)).1.span = ⟨.ofBytes Lexer.defaultFile 0,
        .ofBytes Lexer.defaultFile (a.utf8ByteSize + b.utf8ByteSize)⟩ := by
  have hcontained := contained_of_clean hclean hlast b
  refine ⟨hcontained.statements, ?_, ?_⟩
  · rw [hcontained.diagnostics, hclean, List.nil_append]
  · rw [parse, parseFile_span, String.utf8ByteSize_append]

/-- What follows a clean source may begin with a semicolon, which is then one too many, and stop in
the middle of an expression. -/
theorem parse_append_semicolon :
    let a := "let a = 1;\n"
    let b := "; x; 2 +"
    (parse a).2 = [] ∧ (∀ last ∈ (tokensOf a).getLast?, last.kind = .semicolon) ∧
      (parse (a ++ b)).1.statements.map Stmt.text = ["let a = 1;", "x"] ∧
      (parse (a ++ b)).2 =
        [⟨.noPrefixRule .semicolon ";", .ofBytes "shell" 11⟩,
          ⟨.noPrefixRule .eof "", .ofBytes "shell" 19⟩] ∧
      (parse (a ++ b)).1.span = ⟨.ofBytes "shell" 0, .ofBytes "shell" (11 + 8)⟩ := by
  intro a b
  have hclean : (parse a).2 = [] := by decide +kernel
  have hlast : ∀ last ∈ (tokensOf a).getLast?, last.kind = .semicolon := by decide +kernel
  obtain ⟨hstatements, hdiagnostics, hspan⟩ := parse_append_of_clean hclean hlast b
  refine ⟨hclean, hlast, ?_, ?_, hspan⟩
  · rw [hstatements]
    decide +kernel
  · rw [hdiagnostics]
    decide +kernel

end FrontEnd
