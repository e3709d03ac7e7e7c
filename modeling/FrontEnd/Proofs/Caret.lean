import FrontEnd.Proofs.Accuracy
import FrontEnd.Proofs.LineLookup
import FrontEnd.Proofs.Slices
import FrontEnd.Report

/-!
# Where the caret stands

A report quotes the line of a token, and the caret below it should stand under the first character
of the token. The arrow has a dash for every byte that the quoted line has before the token, and a
dash takes up a column, as every character of the quoted line does. So the caret stands where it
should if bytes and characters are as many up to the token, and too far to the right otherwise.

There is one more way to miss. A quoted line has no white space at its end; a character that is
white space but no blank is a token all the same, and if nothing else follows it in its line it is
not quoted.

* `ShowsCaret` — what the last two lines of a report are, read as a picture.
* `InLine` — a token in its line.

Principal results: `ShowsCaret.unique` (a report is such a picture in one way), `InLine.showsCaret`
(the picture of a token), `InLine.points_iff` and `parse_caret_points_iff` (when the caret stands
under the token that a diagnostic is about).
-/

namespace FrontEnd

/-! ## Pictures -/

/-- What stands before a quoted line. -/
def lineLead (number : Nat) : List Char := Nat.toDigits 10 number ++ [' ', '|', ' ']

/-- What stands above and below a number and the rule behind it. -/
def lineMargin (number : Nat) : List Char :=
  List.replicate ((Nat.toDigits 10 number).length + 1) ' ' ++ ['|']

theorem length_lineMargin (number : Nat) :
    (lineMargin number).length + 1 = (lineLead number).length := by
  rw [lineMargin, lineLead, List.length_append, List.length_replicate, List.length_append]
  rfl

theorem feed_not_mem_lineLead (number : Nat) : '\n' ∉ lineLead number := by
  rw [lineLead, List.mem_append, not_or]
  refine ⟨fun hmem => ?_, by decide⟩
  have hdigit := Nat.isDigit_of_mem_toDigits (by decide) (by decide) hmem
  exact absurd hdigit (by decide)

/-- The last two lines of the report are a line that is quoted behind its number, and a line with a
caret at its end and no other caret. The caret stands under the given column of what is quoted;
columns are counted in characters. -/
def ShowsCaret (report : String) (number : Nat) (quoted : List Char) (column : Nat) : Prop :=
  ∃ above below, report.toList =
      above ++ '\n' :: (lineLead number ++ quoted) ++ '\n' :: (below ++ ['^']) ++ ['\n'] ∧
    '\n' ∉ lineLead number ++ quoted ∧ '\n' ∉ below ++ ['^'] ∧ '^' ∉ below ∧
    below.length = (lineLead number).length + column

/-- A text splits in one way at its last line feed. -/
theorem append_feed_inj {as bs cs ds : List Char} (h : as ++ '\n' :: bs = cs ++ '\n' :: ds)
    (hbs : '\n' ∉ bs) (hds : '\n' ∉ ds) : as = cs ∧ bs = ds := by
  have hrun (as : List Char) {bs : List Char} (hbs : '\n' ∉ bs) :
      (as ++ '\n' :: bs).reverse.takeWhile Line.isInside = bs.reverse := by
    have hinside : ∀ c ∈ bs.reverse, Line.isInside c = true := fun c hc =>
      Line.isInside_of_not_mem hbs c (List.mem_reverse.1 hc)
    have hfeed : ∀ c ∈ ('\n' :: as.reverse).head?, Line.isInside c = false := fun _ hc =>
      Option.some.inj hc ▸ rfl
    rw [List.reverse_append, List.reverse_cons, List.append_assoc]
    exact (run_eq hinside hfeed).1
  have hbehind := hrun as hbs
  rw [h, hrun cs hds] at hbehind
  obtain rfl := List.reverse_inj.1 hbehind
  exact ⟨List.append_cancel_right h, rfl⟩

/-- What is quoted behind a number can be told from the number. -/
theorem lineLead_append_inj {number number' : Nat} {quoted quoted' : List Char}
    (h : lineLead number ++ quoted = lineLead number' ++ quoted') :
    lineLead number = lineLead number' ∧ quoted = quoted' := by
  have hdigits (number : Nat) (quoted : List Char) :
      (lineLead number ++ quoted).takeWhile Char.isDigit = Nat.toDigits 10 number := by
    have hdigit : ∀ c ∈ Nat.toDigits 10 number, c.isDigit = true := fun _ hc =>
      Nat.isDigit_of_mem_toDigits (by decide) (by decide) hc
    have hspace : ∀ c ∈ ([' ', '|', ' '] ++ quoted).head?, c.isDigit = false := fun _ hc =>
      Option.some.inj hc ▸ rfl
    rw [lineLead, List.append_assoc]
    exact (run_eq hdigit hspace).1
  have hnumber := hdigits number quoted
  rw [h, hdigits] at hnumber
  have hlead : lineLead number = lineLead number' := by rw [lineLead, lineLead, hnumber]
  rw [hlead] at h
  exact ⟨hlead, List.append_cancel_left h⟩

/-- **A report is a picture in one way.** -/
theorem ShowsCaret.unique {report : String} {number number' : Nat} {quoted quoted' : List Char}
    {column column' : Nat} (h : ShowsCaret report number quoted column)
    (h' : ShowsCaret report number' quoted' column') : quoted = quoted' ∧ column = column' := by
  obtain ⟨above, below, heq, hline, hbelow, -, hlength⟩ := h
  obtain ⟨above', below', heq', hline', hbelow', -, hlength'⟩ := h'
  obtain ⟨habove, hcaret⟩ :=
    append_feed_inj (List.append_cancel_right (heq.symm.trans heq')) hbelow hbelow'
  obtain ⟨-, hquoted⟩ := append_feed_inj habove hline hline'
  obtain ⟨hlead, rfl⟩ := lineLead_append_inj hquoted
  obtain rfl := List.append_cancel_right hcaret
  rw [hlead] at hlength
  exact ⟨rfl, Nat.add_left_cancel (hlength.symm.trans hlength')⟩

/-- The picture of a place, character by character. -/
theorem Line.toList_picture (line : Line) :
    line.picture.toList =
      lineMargin line.number ++ '\n' :: (lineLead line.number ++ line.quoted) ++
        '\n' :: (lineMargin line.number ++
          ' ' :: List.replicate (line.column - line.indentation) '-' ++ ['^']) ++ ['\n'] := by
  have hnumber : (toString line.number).toList = Nat.toDigits 10 line.number :=
    String.toList_ofList
  have hlength : (toString line.number).length = (Nat.toDigits 10 line.number).length := by
    rw [← hnumber, String.length_toList]
  unfold picture arrow
  simp only [lineMargin, lineLead, String.toList_append, String.toList_ofList, hnumber, hlength]
  simp

/-- The last two lines of a report that quotes a line without a line feed. Nothing but blanks, the
rule and dashes stands before the caret. -/
theorem Diagnostic.exists_lines_report {d : Diagnostic} {source : String} {line : Line}
    (h : Line.find? source d.position.offset = some line) (hfeed : '\n' ∉ line.quoted) :
    ∃ above below, (d.report source).toList =
        above ++ '\n' :: (lineLead line.number ++ line.quoted) ++ '\n' :: (below ++ ['^']) ++
          ['\n'] ∧
      '\n' ∉ lineLead line.number ++ line.quoted ∧ (∀ c ∈ below, c ∈ [' ', '|', '-']) ∧
      below.length = (lineLead line.number).length + (line.column - line.indentation) := by
  refine ⟨d.heading.toList ++ lineMargin line.number, lineMargin line.number ++
    ' ' :: List.replicate (line.column - line.indentation) '-', ?_, ?_, ?_, ?_⟩
  · rw [report, h, String.toList_append, Line.toList_picture]
    simp only [List.append_assoc]
  · rw [List.mem_append, not_or]
    exact ⟨feed_not_mem_lineLead line.number, hfeed⟩
  · intro c hc
    simp only [lineMargin, List.mem_append, List.mem_cons, List.mem_replicate] at hc ⊢
    grind
  · rw [← length_lineMargin, List.length_append, List.length_cons, List.length_replicate]
    omega

/-- A report that quotes a line without a line feed is a picture. -/
theorem Diagnostic.showsCaret_report {d : Diagnostic} {source : String} {line : Line}
    {quoted : List Char} {column : Nat} (h : Line.find? source d.position.offset = some line)
    (hquoted : line.quoted = quoted) (hcolumn : line.column - line.indentation = column)
    (hfeed : '\n' ∉ quoted) : ShowsCaret (d.report source) line.number quoted column := by
  subst hquoted hcolumn
  obtain ⟨above, below, heq, hline, hbelow, hlength⟩ := exists_lines_report h hfeed
  refine ⟨above, below, heq, hline, ?_, fun hmem => absurd (hbelow _ hmem) (by decide), hlength⟩
  rw [List.mem_append, not_or]
  exact ⟨fun hmem => absurd (hbelow _ hmem) (by decide), by decide⟩

/-! ## A token in its line -/

/-- A token in its line. Whole lines come before the line of the token. The token begins behind the
indentation of the line and the text `before`; its first character and `rest` go on to the end of
the line, and then comes a line feed or the end of the source. -/
structure InLine (source : String) (t : Token) where
  above : List Char
  indent : List Char
  before : List Char
  first : Char
  rest : List Char
  below : List Char
  split : source.toList = above ++ (indent ++ (before ++ first :: rest) ++ below)
  start_eq : t.start = byteLength above + byteLength (indent ++ before)
  text_eq : t.text.toList.head? = some first
  above_lines : WholeLines above
  indent_blank : ∀ c ∈ indent, Line.isIndent c = true
  before_flush : ∀ c ∈ (before ++ first :: rest).head?, Line.isIndent c = false
  single : '\n' ∉ indent ++ (before ++ first :: rest)
  below_feed : ∀ c ∈ below.head?, c = '\n'

namespace Line

/-- An indentation has as many bytes as characters. -/
theorem byteLength_of_isIndent {indent : List Char} (h : ∀ c ∈ indent, isIndent c = true) :
    byteLength indent = indent.length := by
  rw [byteLength_eq_length_iff]
  intro c hc
  have hindent := h c hc
  simp only [isIndent, Bool.or_eq_true, decide_eq_true_eq] at hindent
  rcases hindent with rfl | rfl <;> rfl

theorem isIndent_eq_false {c : Char} (h : isBlank c = false) : isIndent c = false := by
  simp only [isBlank, Bool.or_eq_false_iff] at h
  rw [isIndent, h.1.1.1, h.1.1.2]
  rfl

/-- What ends a line is a line feed, if there is anything. -/
theorem eq_feed_of_mem_take {behind : List Char} (h : ∀ c ∈ behind.head?, c = '\n') :
    ∀ c ∈ behind.take 1, c = '\n' := by
  cases behind with
  | nil => exact nofun
  | cons feed behind => exact List.forall_mem_singleton.2 (h feed rfl)

/-- What a line is indented by, and what is quoted of it. -/
theorem indentation_quoted {indent body feed : List Char} (number column : Nat)
    (hindent : ∀ c ∈ indent, isIndent c = true) (hbody : ∀ c ∈ body.head?, isIndent c = false)
    (hfeed : ∀ c ∈ feed, c = '\n') :
    let line : Line := ⟨number, indent ++ body ++ feed, column⟩
    line.indentation = indent.length ∧ line.quoted = trimEnd body := by
  have hhead : ∀ c ∈ (body ++ feed).head?, isIndent c = false := by
    intro c hc
    cases body with
    | nil =>
      obtain rfl := hfeed c (List.mem_of_mem_head? hc)
      rfl
    | cons b body => exact hbody c hc
  obtain ⟨htake, hdrop⟩ := run_eq hindent hhead
  have hwhite : ∀ c ∈ feed, isWhiteSpace c = true := by
    intro c hc
    rw [hfeed c hc]
    rfl
  constructor
  · rw [indentation, List.append_assoc, htake]
  · rw [quoted, List.append_assoc, hdrop, trimEnd_append_of_forall body hwhite]

end Line

namespace InLine

variable {source : String} {t : Token}

def quoted (x : InLine source t) : List Char := trimEnd (x.before ++ x.first :: x.rest)

/-- **The picture of a token.** The caret stands as many columns behind the beginning of what is
quoted as the line has bytes between its indentation and the token. -/
theorem showsCaret (x : InLine source t) {d : Diagnostic} (h : t.span.start = d.position) :
    ShowsCaret (d.report source) (1 + x.above.count '\n') x.quoted (byteLength x.before) := by
  have hcolumn : byteLength (x.indent ++ x.before) ≤
      byteLength (x.indent ++ (x.before ++ x.first :: x.rest)) := by
    rw [← List.append_assoc, byteLength_append (x.indent ++ x.before)]
    exact Nat.le_add_right _ _
  have hfind := Line.findFrom_of_line x.above_lines x.single x.below_feed hcolumn 1
  rw [← x.split, ← x.start_eq, Token.start, h, ← Line.find?] at hfind
  have hfeed := Line.eq_feed_of_mem_take x.below_feed
  obtain ⟨hindentation, hquoted⟩ := Line.indentation_quoted (1 + x.above.count '\n')
    (byteLength (x.indent ++ x.before)) x.indent_blank x.before_flush hfeed
  have hclean : '\n' ∉ trimEnd (x.before ++ x.first :: x.rest) := by
    intro hmem
    have hkept := trimEnd_prefix (x.before ++ x.first :: x.rest)
    exact x.single (List.mem_append_right _ (hkept.mem hmem))
  have hshows := Diagnostic.showsCaret_report hfind hquoted rfl hclean
  rwa [hindentation, byteLength_append, Line.byteLength_of_isIndent x.indent_blank,
    Nat.add_sub_cancel_left] at hshows

/-- **When the caret stands under the token**: when every character between the indentation and the
token takes one byte, and the token or something behind it in its line is not white space. -/
theorem points_iff (x : InLine source t) :
    x.quoted[byteLength x.before]? = some x.first ∧ byteLength x.before = x.before.length ↔
      (∀ c ∈ x.before, c.utf8Size = 1) ∧ ∃ c ∈ x.first :: x.rest, isWhiteSpace c = false := by
  rw [← byteLength_eq_length_iff, and_comm]
  refine and_congr_right fun hlength => ?_
  rw [hlength, quoted]
  constructor
  · intro hfirst
    -- if all that is left of the line were white space, nothing of it would be quoted
    by_contra hnone
    have hwhite : ∀ c ∈ x.first :: x.rest, isWhiteSpace c = true := by
      intro c hc
      cases hc' : isWhiteSpace c with
      | true => rfl
      | false => exact absurd ⟨c, hc, hc'⟩ hnone
    rw [trimEnd_append_of_forall x.before hwhite] at hfirst
    have hkept := trimEnd_prefix x.before
    rw [List.getElem?_eq_none hkept.length_le] at hfirst
    cases hfirst
  · rintro ⟨c, hc, hblack⟩
    rw [trimEnd_append_of_mem x.before hc hblack, List.getElem?_append_right (Nat.le_refl _),
      Nat.sub_self, ← List.head?_eq_getElem?]
    obtain ⟨cut, hcut⟩ := trimEnd_prefix (x.first :: x.rest)
    cases htrim : trimEnd (x.first :: x.rest) with
    | nil => exact absurd htrim (trimEnd_ne_nil hc hblack)
    | cons d ds =>
      rw [htrim] at hcut
      obtain ⟨rfl, -⟩ := List.cons.inj hcut
      rfl

end InLine

/-- Every token of a source stands in some line. -/
theorem Token.Between.nonempty_inLine {source : String} {t : Token} {before after : List Char}
    (h : t.Between source before after) (hsize : source.utf8ByteSize < UInt32.size) :
    Nonempty (InLine source t) := by
  obtain ⟨c, cs, hcons, hblank, -⟩ := h.lexical.first h.ends
  obtain ⟨above, front, rfl, habove, hfront⟩ := exists_wholeLines before
  have hsplit := h.split
  have hstart := h.start_eq hsize
  rw [hcons] at hsplit
  rw [byteLength_append] at hstart
  have hrest : '\n' ∉ cs.takeWhile Line.isInside := fun hmem =>
    absurd (List.all_eq_true.1 List.all_takeWhile _ hmem) (by decide)
  refine ⟨{
    above
    indent := front.takeWhile Line.isIndent
    before := front.dropWhile Line.isIndent
    first := c
    rest := cs.takeWhile Line.isInside
    below := cs.dropWhile Line.isInside
    split := ?_
    start_eq := by rw [hstart, List.takeWhile_append_dropWhile]
    text_eq := ?_
    above_lines := habove
    indent_blank := List.all_eq_true.1 List.all_takeWhile
    before_flush := ?_
    single := ?_
    below_feed := fun d hd => of_not_not (of_decide_eq_false (eq_false_of_head?_dropWhile hd)) }⟩
  · rw [hsplit, ← List.append_assoc (front.takeWhile _), List.takeWhile_append_dropWhile,
      List.append_assoc, List.append_assoc front, List.cons_append,
      List.takeWhile_append_dropWhile]
  · cases htext : t.text.toList with
    | nil => exact absurd htext h.lexical.ne_nil
    | cons d ds =>
      rw [htext] at hcons
      rw [(List.cons.inj hcons).1]
      rfl
  · intro d hd
    cases hbefore : front.dropWhile Line.isIndent with
    | nil =>
      rw [hbefore] at hd
      obtain rfl : c = d := Option.some.inj hd
      exact Line.isIndent_eq_false hblank
    | cons e es =>
      rw [hbefore] at hd
      exact eq_false_of_head?_dropWhile (by rw [hbefore]; exact hd)
  · rw [← List.append_assoc, List.takeWhile_append_dropWhile, List.mem_append, List.mem_cons]
    rintro (hmem | rfl | hmem)
    · exact hfront hmem
    · cases hblank
    · exact hrest hmem

/-! ## The diagnostics of a source -/

/-- A diagnostic about a place before the end of the source is about a token that starts there. -/
theorem parse_diagnostic_token {source : String} (hsize : source.utf8ByteSize < UInt32.size)
    {d : Diagnostic} (hd : d ∈ (parse source).2)
    (hin : d.position.offset.toNat < source.utf8ByteSize) :
    ∃ t ∈ tokensOf source, t.span.start = d.position := by
  obtain ⟨ps, hmap, hps, -⟩ := parseFile_numbered_by Lexer.defaultFile source
  rw [parse, hmap] at hd
  obtain ⟨p, hp, rfl⟩ := List.mem_map.1 hd
  obtain ⟨hposition, -⟩ := hps p hp
  rcases Nat.lt_or_ge (p.2 + p.1.cause.ahead) (tokensOf source).length with hlt | hge
  · rw [endless_of_lt hlt] at hposition
    exact ⟨_, List.getElem_mem hlt, hposition.symm⟩
  · rw [hposition, endless_of_le hge] at hin
    exact absurd (Position.toNat_offset_ofBytes Lexer.defaultFile hsize) (Nat.ne_of_lt hin)

/-- **When the caret points at the token.** Let a diagnostic of a source of less than four gibibytes
be about a place before the end of the source. Then it is about a token that starts there, and its
report shows the line of that token, with a caret as many columns in as the line has bytes between
its indentation and the token. The caret stands under the first character of the token exactly if
every character in between takes one byte, and the token or something behind it in its line is not
white space. -/
theorem parse_caret_points_iff {source : String} (hsize : source.utf8ByteSize < UInt32.size)
    {d : Diagnostic} (hd : d ∈ (parse source).2)
    (hin : d.position.offset.toNat < source.utf8ByteSize) :
    ∃ t ∈ tokensOf source, t.span.start = d.position ∧ ∃ x : InLine source t,
      ShowsCaret (d.report source) (1 + x.above.count '\n') x.quoted (byteLength x.before) ∧
      ∀ number quoted column, ShowsCaret (d.report source) number quoted column →
        (quoted[column]? = some x.first ∧ column = x.before.length ↔
          (∀ c ∈ x.before, c.utf8Size = 1) ∧
            ∃ c ∈ x.first :: x.rest, isWhiteSpace c = false) := by
  obtain ⟨t, ht, hposition⟩ := parse_diagnostic_token hsize hd hin
  obtain ⟨a, b, htokens⟩ := List.append_of_mem ht
  obtain ⟨before, after, hbetween, -⟩ := exists_between htokens
  obtain ⟨x⟩ := hbetween.nonempty_inLine hsize
  have hshows := x.showsCaret hposition
  refine ⟨t, ht, hposition, x, hshows, fun number quoted column h => ?_⟩
  obtain ⟨rfl, rfl⟩ := h.unique hshows
  exact x.points_iff

/-- In an indented second line the caret stands under the assignment sign. -/
theorem parse_caret_points_second_line :
    let source := "let a = 1;\n  let = 2;"
    let d : Diagnostic := ⟨.unexpectedToken .identifier .assign "=", .ofBytes "shell" 17⟩
    source.utf8ByteSize < UInt32.size ∧ d ∈ (parse source).2 ∧
      d.position.offset.toNat < source.utf8ByteSize ∧
      ShowsCaret (d.report source) 2 "let = 2;".toList 4 ∧
      ∃ t ∈ tokensOf source, t.span.start = d.position ∧ ∃ x : InLine source t,
        x.quoted = "let = 2;".toList ∧ x.first = '=' ∧
        "let = 2;".toList[4]? = some x.first ∧ 4 = x.before.length := by
  intro source d
  have hsize : source.utf8ByteSize < UInt32.size := by decide +kernel
  have hd : d ∈ (parse source).2 := by decide +kernel
  have hin : d.position.offset.toNat < source.utf8ByteSize := by decide +kernel
  have hline : Line.find? source d.position.offset = some ⟨2, "  let = 2;".toList, 6⟩ := by
    decide +kernel
  have hquoted : Line.quoted ⟨2, "  let = 2;".toList, 6⟩ = "let = 2;".toList := by decide +kernel
  have hcolumn : 6 - Line.indentation ⟨2, "  let = 2;".toList, 6⟩ = 4 := by decide +kernel
  have hpicture := Diagnostic.showsCaret_report hline hquoted hcolumn (by decide)
  obtain ⟨t, ht, hposition, x, hshows, hpoints⟩ := parse_caret_points_iff hsize hd hin
  obtain ⟨hquoted, -⟩ := hshows.unique hpicture
  have htext : ∀ t ∈ tokensOf source, t.span.start = d.position →
      t.text.toList.head? = some '=' := by decide +kernel
  have hfirst : x.first = '=' :=
    Option.some.inj (x.text_eq.symm.trans (htext t ht hposition))
  have hascii : ∀ c ∈ source.toList, c.utf8Size = 1 :=
    byteLength_eq_length_iff.1 (by decide +kernel)
  have hbefore : ∀ c ∈ x.before, c.utf8Size = 1 := by
    intro c hc
    have hmem : c ∈ x.indent ++ (x.before ++ x.first :: x.rest) :=
      List.mem_append_right _ (List.mem_append_left _ hc)
    apply hascii
    rw [x.split]
    exact List.mem_append_right _ (List.mem_append_left _ hmem)
  have hblack : ∃ c ∈ x.first :: x.rest, isWhiteSpace c = false := by
    refine ⟨x.first, List.mem_cons_self, ?_⟩
    rw [hfirst]
    rfl
  obtain ⟨hcaret, hlength⟩ := (hpoints 2 _ 4 hpicture).2 ⟨hbefore, hblack⟩
  exact ⟨hsize, hd, hin, hpicture, t, ht, hposition, x, hquoted, hfirst, hcaret, hlength⟩

/-- A letter of two bytes before the parenthesis moves the caret behind the end of the line. -/
theorem not_caret_points_behind_accent :
    ¬ ∀ source : String, source.utf8ByteSize < UInt32.size → ∀ d ∈ (parse source).2,
      d.position.offset.toNat < source.utf8ByteSize →
      (∀ line ∈ Line.find? source d.position.offset, line.column ≤ 65000) →
      ∀ t ∈ tokensOf source, t.span.start = d.position →
      ∀ number quoted column, ShowsCaret (d.report source) number quoted column →
        quoted[column]? = t.text.toList.head? := by
  intro h
  have hline : Line.find? "é )" (Position.ofBytes "shell" 3).offset =
      some ⟨1, "é )".toList, 3⟩ := by decide +kernel
  have hquoted : Line.quoted ⟨1, "é )".toList, 3⟩ = "é )".toList := by decide +kernel
  have hcolumn : 3 - Line.indentation ⟨1, "é )".toList, 3⟩ = 3 := by decide +kernel
  have hpicture := Diagnostic.showsCaret_report
    (d := ⟨.noPrefixRule .closeParen ")", .ofBytes "shell" 3⟩) hline hquoted hcolumn (by decide)
  have hnear : ∀ line ∈ Line.find? "é )" (Position.ofBytes "shell" 3).offset,
      line.column ≤ 65000 := by
    rw [hline]
    exact fun line hmem => Option.some.inj hmem ▸ by decide
  have hpoints := h "é )" (by decide +kernel) _ (by decide +kernel) (by decide +kernel) hnear
    ⟨.closeParen, ")", .ofBytes "shell" (3, 4)⟩ (by decide +kernel) rfl _ _ _ hpicture
  exact absurd hpoints (by decide)

end FrontEnd
