import SymbolicRegression.Proofs.CaseFile.Faults

set_option autoImplicit false
set_option relaxedAutoImplicit false

/-!
# The layout of case files

What a text is read as depends on the words on its lines and on nothing else. The words of a text
are taken line by line, and only of the lines that have any. Blanks with a line end among them then
end a line and other blanks part words, whichever they are and however many, and blanks around a
text are nothing at all. Reading goes over these words, so that two texts with the same ones are
read as the same problem or refused for the same fault.

## Main definitions

* `SymbolicRegression.wordLines` — the words of a text, line by line.
* `SymbolicRegression.IsGap` — blanks between two pieces of a text.
* `SymbolicRegression.Problem.ReadAlike` — two texts are read as the same problem or refused for the
  same fault.

## Main results

* `SymbolicRegression.map_tokens_contentLines` — the words line by line are what stands on the lines
  that count.
* `SymbolicRegression.wordLines_append_gap`, `SymbolicRegression.wordLines_append_blanks`,
  `SymbolicRegression.wordLines_blanks_append` — which blanks there are between two pieces, behind a
  text and before it.
* `SymbolicRegression.Problem.read_ignores_layout` — texts with the same words are read alike.
-/

namespace SymbolicRegression

/-! ## Words line by line -/

/-- The words of a text, line by line, of the lines that have any. -/
def wordLines (text : List Char) : List (List (List Char)) :=
  ((Text.lines text).map Text.words).filter (· ≠ [])

/-- They are what stands on the lines that count. -/
theorem map_tokens_contentLines (text : String) :
    (contentLines text).map tokens = wordLines text.toList := by
  have hcounts : (fun line => decide (Text.trim line ≠ [])) = fun line =>
      decide (Text.words line ≠ []) :=
    funext fun line => decide_eq_decide.mpr (not_congr (words_eq_nil_iff_trim line).symm)
  have hwords : tokens = Text.words := funext fun line => (words_eq_tokens line).symm
  rw [contentLines, wordLines, List.filter_map, Text.lines_eq_splitOn, hcounts, hwords]
  rfl

/-- A text below another adds its words. -/
theorem wordLines_append_cons (upper lower : List Char) :
    wordLines (upper ++ '\n' :: lower) = wordLines upper ++ wordLines lower := by
  rw [wordLines, Text.lines_append_cons, List.map_append, List.filter_append]
  rfl

/-- A blank at the beginning of a text belongs to no word. -/
theorem wordLines_cons_of_isBlank {c : Char} (hc : Text.isBlank c = true) (text : List Char) :
    wordLines (c :: text) = wordLines text := by
  by_cases hend : c = '\n'
  · rw [hend]
    exact wordLines_append_cons [] text
  · rw [wordLines, wordLines, Text.lines_cons_of_ne hend]
    cases Text.lines text with
    | nil => rfl
    | cons line rest => simp [Text.words_cons_of_isBlank hc]

/-- Blanks, at least one of them. -/
structure IsGap (gap : List Char) : Prop where
  /-- There is a blank. -/
  ne_nil : gap ≠ []
  /-- There is nothing else. -/
  blank : ∀ c ∈ gap, Text.isBlank c = true

variable {gap gap' : List Char}

/-- Blanks before a text belong to no word. -/
theorem wordLines_blanks_append (h : ∀ c ∈ gap, Text.isBlank c = true) (text : List Char) :
    wordLines (gap ++ text) = wordLines text := by
  induction gap with
  | nil => rfl
  | cons c gap ih =>
    obtain ⟨hc, hgap⟩ := List.forall_mem_cons.mp h
    rw [List.cons_append, wordLines_cons_of_isBlank hc, ih hgap]

/-- Blanks without a line end part the words of the line that they stand on. -/
theorem map_words_lines_append {front last : List Char} {above : List (List Char)}
    (hfront : ∀ back, Text.lines (front ++ back) =
      above ++ (Text.lines back).modifyHead (last ++ ·))
    (h : IsGap gap) (hend : '\n' ∉ gap) (back : List Char) :
    (Text.lines (front ++ (gap ++ back))).map Text.words =
      above.map Text.words ++
        ((Text.lines back).map Text.words).modifyHead (Text.words last ++ ·) := by
  rw [hfront, Text.lines_append_of_notMem hend, List.map_append]
  cases Text.lines back with
  | nil => rfl
  | cons line rest => simp [Text.words_append_gap h.ne_nil h.blank]

/-- A blank at the end of a text belongs to no word. -/
theorem wordLines_concat_of_isBlank {c : Char} (hc : Text.isBlank c = true) (text : List Char) :
    wordLines (text ++ [c]) = wordLines text := by
  by_cases hend : c = '\n'
  · rw [hend, wordLines_append_cons]
    exact List.append_nil _
  · obtain ⟨above, last, hlines⟩ := Text.exists_lines_append_eq text
    have hgap : IsGap [c] := ⟨by simp, by simpa using hc⟩
    have hwith := map_words_lines_append hlines hgap (by simpa using Ne.symm hend) []
    have hwithout := hlines []
    rw [List.append_nil] at hwith hwithout
    rw [wordLines, wordLines, hwith, hwithout, List.map_append]
    simp [Text.lines, Text.split, Text.words]

/-- Blanks behind a text belong to no word. -/
theorem wordLines_append_blanks (h : ∀ c ∈ gap, Text.isBlank c = true) (text : List Char) :
    wordLines (text ++ gap) = wordLines text := by
  induction gap generalizing text with
  | nil => rw [List.append_nil]
  | cons c gap ih =>
    obtain ⟨hc, hgap⟩ := List.forall_mem_cons.mp h
    rw [List.append_cons, ih hgap, wordLines_concat_of_isBlank hc]

/-- **Blanks with a line end among them end a line**, and nothing else matters about them. -/
theorem wordLines_append_of_mem (h : ∀ c ∈ gap, Text.isBlank c = true) (hend : '\n' ∈ gap)
    (front back : List Char) :
    wordLines (front ++ (gap ++ back)) = wordLines front ++ wordLines back := by
  obtain ⟨before, after, rfl⟩ := List.append_of_mem hend
  rw [List.forall_mem_append, List.forall_mem_cons] at h
  obtain ⟨hbefore, -, hafter⟩ := h
  rw [List.append_assoc, List.cons_append, ← List.append_assoc, wordLines_append_cons,
    wordLines_append_blanks hbefore, wordLines_blanks_append hafter]

/-- **Blanks without a line end part words**, and nothing else matters about them. -/
theorem wordLines_append_of_notMem (h : IsGap gap) (h' : IsGap gap') (hend : '\n' ∉ gap)
    (hend' : '\n' ∉ gap') (front back : List Char) :
    wordLines (front ++ (gap ++ back)) = wordLines (front ++ (gap' ++ back)) := by
  obtain ⟨above, last, hlines⟩ := Text.exists_lines_append_eq front
  rw [wordLines, wordLines, map_words_lines_append hlines h hend,
    map_words_lines_append hlines h' hend']

/-- **What stands on the lines does not depend on how it is parted**: in the place of blanks there
may be any others, if both or none of them have a line end among them. -/
theorem wordLines_append_gap (h : IsGap gap) (h' : IsGap gap') (hend : '\n' ∈ gap ↔ '\n' ∈ gap')
    (front back : List Char) :
    wordLines (front ++ (gap ++ back)) = wordLines (front ++ (gap' ++ back)) := by
  by_cases hmem : '\n' ∈ gap
  · rw [wordLines_append_of_mem h.blank hmem, wordLines_append_of_mem h'.blank (hend.mp hmem)]
  · exact wordLines_append_of_notMem h h' hmem (fun hmem' => hmem (hend.mpr hmem')) front back

/-! ## Readings of texts with the same words -/

/-- The first lines with the same words are read alike, line by line: as the same cases, or up to
the same fault on lines of the same place. -/
theorem readCases_alike (varCount count : Nat) {lines lines' : List NumberedLine}
    {rows : List (List Char)} (hrows : lines.map NumberedLine.words = rows.map tokens)
    (hrows' : lines'.map NumberedLine.words = rows.map tokens) :
    (∃ cases, readCases varCount count lines = .ok cases ∧
      readCases varCount count lines' = .ok cases) ∨
    (∃ found, readCases varCount count lines = .error (.missingCases count found) ∧
      readCases varCount count lines' = .error (.missingCases count found)) ∨
    ∃ (i : Nat) (line line' : NumberedLine) (e : RowError),
      lines[i]? = some line ∧ lines'[i]? = some line' ∧
      readCases varCount count lines = .error (.row line.number e) ∧
      readCases varCount count lines' = .error (.row line'.number e) := by
  rcases forall_onRow_or_firstFault varCount (rows.take count) with hvalid | ⟨i, row, e, hfault⟩
  · rcases lt_or_ge rows.length count with hfew | hmany
    · exact .inr (.inl ⟨rows.length, (readCases_of_forall_onRow hrows hvalid).1 hfew,
        (readCases_of_forall_onRow hrows' hvalid).1 hfew⟩)
    · obtain ⟨cases, hcases⟩ := (readCases_of_forall_onRow hrows hvalid).2 hmany
      exact .inl ⟨cases, hcases,
        (readCases_eq_ok_iff hrows').mpr ((readCases_eq_ok_iff hrows).mp hcases)⟩
  · obtain ⟨line, hline, hread⟩ := readCases_of_firstFault hrows hfault
    obtain ⟨line', hline', hread'⟩ := readCases_of_firstFault hrows' hfault
    exact .inr (.inr ⟨i, line, line', e, hline, hline', hread, hread'⟩)

namespace Problem

/-- Two texts are read alike: as the same problem, or they are refused for the same fault, which is
then on lines of the same place if it is one of a row. -/
inductive ReadAlike (text text' : String) :
    Except ProblemError Problem → Except ProblemError Problem → Prop
  /-- Both texts are read as the problem. -/
  | ok (p : Problem) : ReadAlike text text' (.ok p) (.ok p)
  /-- Both have no header. -/
  | header (e : HeaderError) : ReadAlike text text' (.error (.header e)) (.error (.header e))
  /-- The lines with so many others before them have the fault, each under its number. -/
  | row {k number number' : Nat} {line line' : List Char} (hline : StandsAt text k line number)
      (hline' : StandsAt text' k line' number') (e : RowError) :
      ReadAlike text text' (.error (.row number e)) (.error (.row number' e))
  /-- Both have too few rows, and as many. -/
  | missingCases (expected found : Nat) :
      ReadAlike text text' (.error (.missingCases expected found))
        (.error (.missingCases expected found))

/-- **Texts with the same words on the lines that count are read alike.** -/
theorem readAlike_of_map_tokens_eq {text text' : String}
    (h : (contentLines text).map tokens = (contentLines text').map tokens) :
    ReadAlike text text' (read text) (read text') := by
  rcases numberedLines_cases text with
    ⟨hlines, hcontent⟩ | ⟨first, rest, line, rows, hlines, hcontent, hfirst, hrest⟩
  · have hlines' : numberedLines text' = [] := by
      rw [hcontent, List.map_nil] at h
      exact List.map_eq_nil_iff.mp ((map_words_numberedLines text').trans h.symm)
    rw [read, read, hlines, hlines']
    exact .header .missing
  · have hwords' := (map_words_numberedLines text').trans h.symm
    rw [hcontent, List.map_cons] at hwords'
    obtain ⟨first', rest', hlines', hfirst', hrest'⟩ := List.map_eq_cons_iff.mp hwords'
    simp only [read, hlines, hlines', hfirst, hfirst']
    cases Header.read (tokens line) with
    | error e => exact .header e
    | ok header =>
      show ReadAlike text text' (readCases header.varCount header.caseCount rest >>= fun _ => _)
        (readCases header.varCount header.caseCount rest' >>= fun _ => _)
      rcases readCases_alike header.varCount header.caseCount hrest hrest' with
        ⟨cases, hread, hread'⟩ | ⟨found, hread, hread'⟩ | ⟨i, row, row', e, hi, hi', hread, hread'⟩
      · rw [hread, hread']
        exact .ok _
      · rw [hread, hread']
        exact .missingCases header.caseCount found
      · obtain ⟨line, hline, -⟩ := exists_standsAt (k := i + 1) (by rw [hlines]; exact hi)
        obtain ⟨line', hline', -⟩ := exists_standsAt (k := i + 1) (by rw [hlines']; exact hi')
        rw [hread, hread']
        exact .row hline hline' e

/-- **Reading is blind to the layout of a text.** Two texts with the same tokens on the lines that
are not blank, in the same order, are read as the same problem or refused for the same fault; only
the number of a faulty row is that of its own text. So blanks between two pieces of a text may be
any others, with a line end among them or none as before, and there may be any before and behind a
text. -/
theorem read_ignores_layout :
    (∀ text text' : String, (contentLines text).map tokens = (contentLines text').map tokens →
      ReadAlike text text' (read text) (read text')) ∧
    (∀ front gap gap' back : String, IsGap gap.toList → IsGap gap'.toList →
      ('\n' ∈ gap.toList ↔ '\n' ∈ gap'.toList) →
      (contentLines (front ++ gap ++ back)).map tokens =
        (contentLines (front ++ gap' ++ back)).map tokens) ∧
    ∀ before text after : String, (∀ c ∈ before.toList, Text.isBlank c = true) →
      (∀ c ∈ after.toList, Text.isBlank c = true) →
      (contentLines (before ++ text ++ after)).map tokens = (contentLines text).map tokens := by
  refine ⟨fun _ _ => readAlike_of_map_tokens_eq, ?_, ?_⟩
  · intro front gap gap' back hgap hgap' hend
    simp only [map_tokens_contentLines, String.toList_append, List.append_assoc]
    exact wordLines_append_gap hgap hgap' hend _ _
  · intro before text after hbefore hafter
    simp only [map_tokens_contentLines, String.toList_append]
    rw [wordLines_append_blanks hafter, wordLines_blanks_append hbefore]

/-- A text with a line that is no row, and the same with other blanks and line ends. -/
theorem read_ignores_layout_sample :
    (read "1 1 2 3 2\n0 5\n1 x" = .error (.row 3 (.notFinite "x")) ∧
      read "\r\n\t1\u00a01 2  3 2 \r\n\n0\t5\r\n\n1 x\r\n" = .error (.row 6 (.notFinite "x")) ∧
      ReadAlike "1 1 2 3 2\n0 5\n1 x" "\r\n\t1\u00a01 2  3 2 \r\n\n0\t5\r\n\n1 x\r\n"
        (.error (.row 3 (.notFinite "x"))) (.error (.row 6 (.notFinite "x")))) ∧
    (contentLines ("1 1 2 3 2" ++ "\n" ++ "0 5")).map tokens =
      (contentLines ("1 1 2 3 2" ++ " \r\n\n\t" ++ "0 5")).map tokens ∧
    (contentLines ("\n\u3000" ++ "1 1 2 3 2" ++ "\r\n")).map tokens =
      (contentLines "1 1 2 3 2").map tokens := by
  have hread : read "1 1 2 3 2\n0 5\n1 x" = .error (.row 3 (.notFinite "x")) := by rfl
  have hread' : read "\r\n\t1\u00a01 2  3 2 \r\n\n0\t5\r\n\n1 x\r\n" =
      .error (.row 6 (.notFinite "x")) := by rfl
  have hsame := read_ignores_layout.1 "1 1 2 3 2\n0 5\n1 x"
    "\r\n\t1\u00a01 2  3 2 \r\n\n0\t5\r\n\n1 x\r\n" (by decide +kernel)
  rw [hread, hread'] at hsame
  have hgap : IsGap "\n".toList := ⟨by decide +kernel, List.all_eq_true.mp (by rfl)⟩
  have hgap' : IsGap " \r\n\n\t".toList := ⟨by decide +kernel, List.all_eq_true.mp (by rfl)⟩
  exact ⟨⟨hread, hread', hsame⟩,
    read_ignores_layout.2.1 "1 1 2 3 2" "\n" " \r\n\n\t" "0 5" hgap hgap' (by decide +kernel),
    read_ignores_layout.2.2 "\n\u3000" "1 1 2 3 2" "\r\n" (List.all_eq_true.mp (by rfl))
      (List.all_eq_true.mp (by rfl))⟩

end Problem

end SymbolicRegression
