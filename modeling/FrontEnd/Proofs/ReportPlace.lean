import FrontEnd.Proofs.ByteLines
import FrontEnd.Proofs.Caret

/-!
# Reports find their place

Every diagnostic is about a place in its source, a token or the end of input, and so its report can
show the line of that place. No place is within the indentation of its line: behind the blanks that
indent a line comes a token, or the end of input. So the caret stands as many bytes behind the
beginning of the quoted text as the place is behind the indentation.

* `CaretAt` — what the last two lines of a report are; the place of the caret is counted in bytes.
* `Line.Quotes` — a line as its indentation, what is quoted of it, and white space.

Principal results: `parse_diagnostic_place` (the places of diagnostics), `Line.exists_find?` (such
a place is found, behind the indentation of its line) and `parse_reports_located`.
-/

namespace FrontEnd

/-- The last two lines of the report are a line that is quoted behind its number, and a line with a
caret at its end and no other caret. The caret stands as many bytes behind the place where what is
quoted begins. -/
def CaretAt (report : String) (number : Nat) (quoted : List Char) (bytes : Nat) : Prop :=
  ∃ above below, report.toList =
      above ++ '\n' :: (lineLead number ++ quoted) ++ '\n' :: (below ++ ['^']) ++ ['\n'] ∧
    '\n' ∉ lineLead number ++ quoted ∧ '\n' ∉ below ++ ['^'] ∧ '^' ∉ below ∧
    byteLength below = byteLength (lineLead number) + bytes

/-- The blanks, the rule and the dashes of a picture take one byte each. -/
theorem utf8Size_of_mem_picture {c : Char} (h : c ∈ [' ', '|', '-']) : c.utf8Size = 1 := by
  simp only [List.mem_cons, List.not_mem_nil, or_false] at h
  rcases h with rfl | rfl | rfl <;> rfl

/-- What stands before a quoted line takes one byte for every character. -/
theorem byteLength_lineLead (number : Nat) :
    byteLength (lineLead number) = (lineLead number).length := by
  have hdigits : ∀ c ∈ Nat.toDigits 10 number, c.utf8Size = 1 := by
    intro c hc
    have hdigit := Nat.isDigit_of_mem_toDigits (by decide) (by decide) hc
    rw [Char.isDigit_iff_toNat] at hdigit
    have hval : c.val.toNat ≤ 127 := Nat.le_trans hdigit.2 (by decide)
    exact Char.utf8Size_eq_one_iff.2 hval
  have hrule : [' ', '|', ' '] ⊆ [' ', '|', '-'] := by decide
  rw [byteLength_eq_length_iff, lineLead]
  exact List.forall_mem_append.2 ⟨hdigits, fun c hc => utf8Size_of_mem_picture (hrule hc)⟩

/-- Where the caret of a report stands. -/
theorem Diagnostic.caretAt_report {d : Diagnostic} {source : String} {line : Line}
    (h : Line.find? source d.position.offset = some line) (hfeed : '\n' ∉ line.quoted) :
    CaretAt (d.report source) line.number line.quoted (line.column - line.indentation) := by
  obtain ⟨above, below, heq, hline, hbelow, hlength⟩ := exists_lines_report h hfeed
  have hsize : byteLength below = below.length :=
    byteLength_eq_length_iff.2 fun c hc => utf8Size_of_mem_picture (hbelow c hc)
  refine ⟨above, below, heq, hline, ?_, fun hmem => absurd (hbelow _ hmem) (by decide), ?_⟩
  · rw [List.mem_append, not_or]
    exact ⟨fun hmem => absurd (hbelow _ hmem) (by decide), by decide⟩
  · rw [hsize, hlength, byteLength_lineLead]

/-! ## What is quoted -/

namespace Line

/-- The line begins with `indent`, which is all that indents it, and ends with `white`, which is all
the white space at its end; `quoted` stands between them. -/
structure Quotes (line : Line) (indent quoted white : List Char) : Prop where
  text_eq : line.text = indent ++ (quoted ++ white)
  indents : ∀ c ∈ indent, isIndent c = true
  begins : ∀ c ∈ (quoted ++ white).head?, isIndent c = false
  ends : ∀ c ∈ quoted.getLast?, isWhiteSpace c = false
  blank : ∀ c ∈ white, isWhiteSpace c = true

/-- **What is quoted of a line** is the line without its indentation and the white space at its
end. -/
theorem exists_quotes (line : Line) :
    ∃ indent white, line.Quotes indent line.quoted white ∧ indent.length = line.indentation := by
  let body := line.text.dropWhile isIndent
  have hsplit : body = line.quoted ++ (body.reverse.takeWhile isWhiteSpace).reverse := by
    rw [quoted, trimEnd, ← List.reverse_append, List.takeWhile_append_dropWhile,
      List.reverse_reverse]
  refine ⟨line.text.takeWhile isIndent, (body.reverse.takeWhile isWhiteSpace).reverse,
    ⟨?_, ?_, ?_, ?_, ?_⟩, rfl⟩
  · rw [← hsplit, List.takeWhile_append_dropWhile]
  · exact List.all_eq_true.1 List.all_takeWhile
  · rw [← hsplit]
    exact fun c hc => eq_false_of_head?_dropWhile hc
  · rw [quoted, trimEnd, List.getLast?_reverse]
    exact fun c hc => eq_false_of_head?_dropWhile hc
  · exact fun c hc => List.all_eq_true.1 List.all_takeWhile c (List.mem_reverse.1 hc)

end Line

/-! ## Places -/

/-- A diagnostic is about a place that no blank comes behind. -/
theorem parse_diagnostic_place {source : String} (hsize : source.utf8ByteSize < UInt32.size)
    {d : Diagnostic} (hd : d ∈ (parse source).2) :
    ∃ front back, source.toList = front ++ back ∧ d.position.offset.toNat = byteLength front ∧
      ∀ c ∈ back.head?, isBlank c = false := by
  rcases Nat.lt_or_ge d.position.offset.toNat source.utf8ByteSize with hin | hend
  · obtain ⟨t, ht, hposition⟩ := parse_diagnostic_token hsize hd hin
    obtain ⟨a, b, htokens⟩ := List.append_of_mem ht
    obtain ⟨before, after, hbetween, -⟩ := exists_between htokens
    obtain ⟨c, cs, hcons, hblank, -⟩ := hbetween.lexical.first hbetween.ends
    refine ⟨before, t.text.toList ++ after, hbetween.split, ?_, ?_⟩
    · rw [← hposition]
      exact hbetween.start_eq hsize
    · rw [hcons]
      exact fun _ hc => Option.some.inj hc ▸ hblank
  · obtain ⟨ps, hmap, hps, -⟩ := parseFile_numbered_by Lexer.defaultFile source
    rw [parse, hmap] at hd
    obtain ⟨p, hp, rfl⟩ := List.mem_map.1 hd
    have hstart : p.1.position.offset.toNat =
        (endless Lexer.defaultFile source (p.2 + p.1.cause.ahead)).start := by
      rw [(hps p hp).1]
      rfl
    have hwidth := endless_width Lexer.defaultFile hsize (p.2 + p.1.cause.ahead)
    refine ⟨source.toList, [], (List.append_nil _).symm, ?_, fun c hc => ?_⟩
    · rw [byteLength_toList]
      omega
    · exact absurd hc (Option.not_mem_none c)

namespace Line

/-- The indentation does not reach behind a place that is followed by another character. -/
theorem length_takeWhile_le {p : Char → Bool} (front : List Char) {back : List Char}
    (h : ∀ c ∈ back.head?, p c = false) : ((front ++ back).takeWhile p).length ≤ front.length := by
  have hback : back.takeWhile p = [] := by
    cases back with
    | nil => rfl
    | cons c cs => exact List.takeWhile_cons_of_neg (by rw [h c rfl]; decide)
  rw [List.takeWhile_append, hback, List.append_nil]
  split
  · exact Nat.le_refl _
  · exact (List.takeWhile_prefix p).length_le

/-- A place that no blank comes behind is found in a line, and not in its indentation. -/
theorem exists_find? {source : String} {front back : List Char} {offset : UInt32}
    (hsource : source.toList = front ++ back) (hoffset : offset.toNat = byteLength front)
    (hback : ∀ c ∈ back.head?, isBlank c = false) :
    ∃ line, find? source offset = some line ∧ line.indentation ≤ line.column ∧
      '\n' ∉ line.quoted := by
  obtain ⟨above, before, rfl, habove, hbefore⟩ := exists_wholeLines front
  let behind := back.dropWhile isInside
  have hbody : '\n' ∉ before ++ back.takeWhile isInside := by
    rw [List.mem_append, not_or]
    exact ⟨hbefore, fun hmem => absurd (List.all_eq_true.1 List.all_takeWhile _ hmem) (by decide)⟩
  have hbehind : ∀ c ∈ behind.head?, c = '\n' := fun c hc =>
    of_not_not (of_decide_eq_false (eq_false_of_head?_dropWhile hc))
  have hcolumn : byteLength before ≤ byteLength (before ++ back.takeWhile isInside) := by
    rw [byteLength_append]
    exact Nat.le_add_right _ _
  have hfind := findFrom_of_line habove hbody hbehind hcolumn 1
  rw [List.append_assoc before, List.takeWhile_append_dropWhile, ← List.append_assoc, ← hsource,
    ← byteLength_append, ← hoffset] at hfind
  obtain ⟨hindentation, hquoted⟩ := indentation_quoted (1 + above.count '\n') (byteLength before)
    (List.all_eq_true.1 (List.all_takeWhile (p := isIndent)))
    (fun _ hc => eq_false_of_head?_dropWhile hc) (eq_feed_of_mem_take hbehind)
  rw [List.takeWhile_append_dropWhile] at hindentation hquoted
  refine ⟨_, hfind, ?_, ?_⟩
  · rw [hindentation]
    refine Nat.le_trans (length_takeWhile_le before fun c hc => ?_) (length_le_byteLength before)
    rw [List.head?_takeWhile, Option.mem_def, Option.filter_eq_some_iff] at hc
    exact isIndent_eq_false (hback c hc.1)
  · rw [hquoted]
    intro hmem
    have hkept := trimEnd_prefix ((before ++ back.takeWhile isInside).dropWhile isIndent)
    exact hbody ((List.dropWhile_suffix _).mem (hkept.mem hmem))

end Line

/-- **Reports always find their place.** The report of a diagnostic of a source of less than four
gibibytes has a picture of its place. The picture shows the line that holds the place, which begins
`start` bytes into the source, behind the number that the line feeds before the place tell. The line
is quoted without its indentation and the white space at its end. The indentation of the line ends
at the place or before it, and the caret stands as many bytes behind the beginning of the quoted
text as the place is behind the indentation. -/
theorem parse_reports_located {source : String} (hsize : source.utf8ByteSize < UInt32.size)
    {d : Diagnostic} (hd : d ∈ (parse source).2) :
    ∃ line start, Line.find? source d.position.offset = some line ∧
      d.report source = d.heading ++ line.picture ∧
      line.Holds source d.position.offset.toNat ∧
      (∃ indent white, line.Quotes indent line.quoted white ∧
        indent.length = line.indentation) ∧
      d.position.offset.toNat = start + line.column ∧ line.indentation ≤ line.column ∧
      CaretAt (d.report source) (1 + ((utf8 source).take d.position.offset.toNat).count 10)
        line.quoted (d.position.offset.toNat - start - line.indentation) := by
  obtain ⟨front, back, hsource, hoffset, hback⟩ := parse_diagnostic_place hsize hd
  obtain ⟨line, hfind, hindentation, hfeed⟩ := Line.exists_find? hsource hoffset hback
  have hholds := Line.find?_eq_some_iff.1 hfind
  obtain ⟨above, before, after, below, hcut, -, hcolumn⟩ := hholds.exists_cut
  have hstart : d.position.offset.toNat = above.length + line.column := by
    rw [← hcut.length_eq, List.length_append, hcolumn]
  have hcaret := Diagnostic.caretAt_report hfind hfeed
  rw [hholds.number_eq] at hcaret
  refine ⟨line, above.length, hfind, ?_, hholds, line.exists_quotes, hstart, hindentation, ?_⟩
  · rw [Diagnostic.report, hfind]
  · rwa [hstart, Nat.add_sub_cancel_left, ← hstart]

/-- A parenthesis is shown in the middle of its line, behind a letter and a blank; the end of input
on a line of blanks is shown behind the indentation of that line. -/
theorem parse_reports_located_end_of_input :
    let source := "  a ) \r\nlet x =\n\t "
    let paren : Diagnostic := ⟨.noPrefixRule .closeParen ")", .ofBytes "shell" 4⟩
    let missing : Diagnostic := ⟨.noPrefixRule .eof "", .ofBytes "shell" 18⟩
    source.utf8ByteSize < UInt32.size ∧ (parse source).2 = [paren, missing] ∧
      Line.find? source paren.position.offset = some ⟨1, "  a ) \r\n".toList, 4⟩ ∧
      CaretAt (paren.report source) 1 "a )".toList 2 ∧
      Line.find? source missing.position.offset = some ⟨3, "\t ".toList, 2⟩ ∧
      CaretAt (missing.report source) 3 [] 0 := by
  intro source paren missing
  have hsize : source.utf8ByteSize < UInt32.size := by decide +kernel
  have hdiagnostics : (parse source).2 = [paren, missing] := by decide +kernel
  have hcaret : ∀ {d line number quoted bytes}, d ∈ (parse source).2 →
      Line.find? source d.position.offset = some line →
      1 + ((utf8 source).take d.position.offset.toNat).count 10 = number → line.quoted = quoted →
      line.column - line.indentation = bytes → CaretAt (d.report source) number quoted bytes := by
    rintro d line _ _ _ hd hline rfl rfl rfl
    obtain ⟨line', start, hfind, -, -, -, hstart, -, hcaret⟩ := parse_reports_located hsize hd
    obtain rfl := Option.some.inj (hline.symm.trans hfind)
    rwa [hstart, Nat.add_sub_cancel_left, ← hstart] at hcaret
  have hfirst : Line.find? source paren.position.offset =
      some ⟨1, "  a ) \r\n".toList, 4⟩ := by decide +kernel
  have hlast : Line.find? source missing.position.offset = some ⟨3, "\t ".toList, 2⟩ := by
    decide +kernel
  have hparen : paren ∈ (parse source).2 := by
    rw [hdiagnostics]
    exact List.mem_cons_self
  have hmissing : missing ∈ (parse source).2 := by
    rw [hdiagnostics]
    exact List.mem_cons_of_mem _ (List.mem_singleton_self _)
  exact ⟨hsize, hdiagnostics, hfirst,
    hcaret hparen hfirst (by decide +kernel) (by decide +kernel) (by decide +kernel), hlast,
    hcaret hmissing hlast (by decide +kernel) (by decide +kernel) (by decide +kernel)⟩

end FrontEnd
