import Mathlib.Data.List.Forall2
import Mathlib.Tactic.Common
import SymbolicRegression.CaseFile.Reader
import SymbolicRegression.Proofs.Outcome
import SymbolicRegression.Proofs.Text.Pieces

set_option autoImplicit false
set_option relaxedAutoImplicit false

/-!
# The format of case files

Which texts are read, and as what. The format is stated on the lines of the text that hold more
than blanks: the first is the header, and as many of the following as it declares are the rows.
Reading comes to an answer for the texts of the format and for no others.

## Main definitions

* `SymbolicRegression.contentLines`, `SymbolicRegression.tokens` — the lines that count, and what
  stands on them.
* `SymbolicRegression.Header.Declared` — a line is a header.
* `SymbolicRegression.IsCaseFile` — a text is of the format.
* `SymbolicRegression.Problem.StandsIn` — what a text of the format describes.

## Main results

* `SymbolicRegression.map_words_numberedLines` — reading goes over the lines that count.
* `SymbolicRegression.Header.read_eq_ok_iff`, `SymbolicRegression.FitnessCase.read_eq_ok_iff` —
  which lines are read as a header and as a row.
* `SymbolicRegression.Problem.read_recognizes` — reading accepts the format, and nothing behind
  the last row matters.
-/

namespace SymbolicRegression

/-! ## The lines that count -/

/-- The lines of a text that are not empty after trimming. -/
def contentLines (text : String) : List (List Char) :=
  (text.toList.splitOn '\n').filter (Text.trim · ≠ [])

/-- What stands on a line: its pieces between blanks that are not empty. -/
def tokens (line : List Char) : List (List Char) :=
  (line.splitOnP Text.isBlank).filter (· ≠ [])

/-- The words of a line are its tokens. -/
theorem words_eq_tokens (line : List Char) : Text.words line = tokens line :=
  Text.words_eq_filter_splitOnP line

/-- A line has no words if nothing is left of it after trimming. -/
theorem words_eq_nil_iff_trim (line : List Char) :
    Text.words line = [] ↔ Text.trim line = [] := by
  rw [Text.words_eq_nil_iff, Text.trim_eq_nil_iff]

/-- **Reading goes over the lines that count, in order.** -/
theorem map_words_numberedLines (text : String) :
    (numberedLines text).map NumberedLine.words = (contentLines text).map tokens := by
  rw [numberedLines, contentLines, Text.lines_eq_splitOn]
  -- the numbers of the lines matter to no word, so the induction is for any first number
  generalize 1 = first
  induction text.toList.splitOn '\n' generalizing first with
  | nil => rfl
  | cons line rest ih =>
    rw [List.zipIdx_cons, List.filterMap_cons, List.filter_cons]
    cases hwords : Text.words line with
    | nil =>
      have htrim := (words_eq_nil_iff_trim line).mp hwords
      simpa [hwords, htrim] using ih (first + 1)
    | cons word words =>
      have htrim : Text.trim line ≠ [] := fun h =>
        List.cons_ne_nil word words (hwords ▸ (words_eq_nil_iff_trim line).mpr h)
      simpa [htrim, ← words_eq_tokens line, hwords] using ih (first + 1)

/-- The lines that count in a text that is followed by another. -/
theorem contentLines_append (upper lower : String) :
    contentLines (upper ++ "\n" ++ lower) = contentLines upper ++ contentLines lower := by
  have htext : (upper ++ "\n" ++ lower).toList = upper.toList ++ '\n' :: lower.toList := by simp
  rw [contentLines, htext, ← Text.lines_eq_splitOn, Text.lines_append_cons, List.filter_append]
  simp only [Text.lines_eq_splitOn, contentLines]

/-! ## Headers -/

namespace Header

variable {field : HeaderField} {token : List Char} {n : Nat} {x : Float}

/-- A token is read as a count if it stands for one. -/
theorem count_eq_ok_iff : count field token = .ok n ↔ Decimal.readCount token = some n := by
  unfold count
  split <;> simp_all

/-- A token is read as a number if it stands for a finite one. -/
theorem number_eq_ok_iff : number field token = .ok x ↔ Decimal.readFinite token = some x := by
  unfold number
  split <;> simp_all

/-- A line is a header: five tokens that stand for the fields, with values that a run can take. -/
structure Declared (line : List Char) (h : Header) : Prop where
  /-- The five tokens stand for two counts, two finite numbers and a count. -/
  fields : ∃ v c a b n, tokens line = [v, c, a, b, n] ∧
    Decimal.readCount v = some h.varCount ∧ Decimal.readCount c = some h.constCount ∧
    Decimal.readFinite a = some h.minRandom ∧ Decimal.readFinite b = some h.maxRandom ∧
    Decimal.readCount n = some h.caseCount
  /-- The number of terminals does not overflow. -/
  not_overflow : h.varCount + h.constCount < UInt64.size
  /-- There is a terminal. -/
  one_le_terminals : 1 ≤ h.varCount + h.constCount
  /-- There is an opcode for every terminal. -/
  terminals_le : h.varCount + h.constCount ≤ 110
  /-- The range of constants does not end below its start. -/
  not_reversed : ¬ h.maxRandom < h.minRandom
  /-- The width of the range of constants is finite. -/
  isFinite_width : (h.maxRandom - h.minRandom).isFinite = true
  /-- A case is declared. -/
  one_le_caseCount : 1 ≤ h.caseCount

/-- The check of a header is passed by the values that a run can take. -/
theorem check_eq_ok_iff {h : Header} :
    h.check = .ok () ↔
      h.varCount + h.constCount < UInt64.size ∧ 1 ≤ h.varCount + h.constCount ∧
        h.varCount + h.constCount ≤ 110 ∧ ¬ h.maxRandom < h.minRandom ∧
        (h.maxRandom - h.minRandom).isFinite = true ∧ 1 ≤ h.caseCount := by
  unfold check
  simp only
  split; · simp; omega
  split; · simp; omega
  split; · simp; omega
  split; · simp [*]
  split; · simp_all
  split; · simp; omega
  · simp_all; omega

/-- **A line is read as a header if it is one.** -/
theorem read_eq_ok_iff {line : List Char} {h : Header} :
    read (tokens line) = .ok h ↔ h.Declared line := by
  constructor
  · intro hread
    unfold read at hread
    split at hread
    · rename_i v c a b n htokens
      simp only [bind_eq_ok_iff, count_eq_ok_iff, number_eq_ok_iff] at hread
      obtain ⟨_, hv, _, hc, _, ha, _, hb, _, hn, _, hcheck, hh⟩ := hread
      obtain rfl := Except.ok.inj hh
      obtain ⟨hfits, hpos, hle, hrange, hwidth, hcount⟩ := check_eq_ok_iff.mp hcheck
      exact ⟨⟨v, c, a, b, n, htokens, hv, hc, ha, hb, hn⟩, hfits, hpos, hle, hrange, hwidth,
        hcount⟩
    · simp at hread
  · rintro ⟨⟨v, c, a, b, n, htokens, hv, hc, ha, hb, hn⟩, hfits, hpos, hle, hrange, hwidth,
      hcount⟩
    have hcheck : h.check = .ok () :=
      check_eq_ok_iff.mpr ⟨hfits, hpos, hle, hrange, hwidth, hcount⟩
    rw [htokens, read]
    simp only [bind_eq_ok_iff, count_eq_ok_iff, number_eq_ok_iff]
    exact ⟨_, hv, _, hc, _, ha, _, hb, _, hn, (), hcheck, rfl⟩

end Header

/-! ## Rows -/

/-- Words are read as the numbers that they stand for. -/
theorem readNumbers_eq_ok_iff {words : List (List Char)} {values : List Float} :
    readNumbers words = .ok values ↔ words.map Decimal.readFinite = values.map some := by
  induction words generalizing values with
  | nil => cases values <;> simp [readNumbers]
  | cons word words ih =>
    rw [readNumbers]
    cases hword : Decimal.readFinite word with
    | none => cases values <;> simp [hword]
    | some x =>
      cases hrest : readNumbers words with
      | error e =>
        have hno (rest : List Float) : words.map Decimal.readFinite ≠ rest.map some := fun h => by
          simp [ih.mpr h] at hrest
        cases values <;> simp [hword, Except.map, hno]
      | ok rest =>
        cases values <;>
          simp [hword, Except.map, ih.mp hrest, List.map_inj_right fun _ _ => Option.some.inj]

/-- As many numbers are read as there are words. -/
theorem length_eq_of_readNumbers_eq_ok {words : List (List Char)} {values : List Float}
    (h : readNumbers words = .ok values) : words.length = values.length := by
  simpa using congrArg List.length (readNumbers_eq_ok_iff.mp h)

/-- Words stand for numbers together if each of them stands for one. -/
theorem exists_readNumbers_iff {words : List (List Char)} :
    (∃ values, readNumbers words = .ok values) ↔
      ∀ word ∈ words, ∃ x, Decimal.readFinite word = some x := by
  simp only [readNumbers_eq_ok_iff]
  constructor
  · rintro ⟨values, hvalues⟩ word hword
    have hmem := hvalues ▸ List.mem_map_of_mem (f := Decimal.readFinite) hword
    obtain ⟨x, -, hx⟩ := List.mem_map.mp hmem
    exact ⟨x, hx.symm⟩
  · intro hfinite
    choose! value hvalue using hfinite
    exact ⟨words.map value, by simpa using hvalue⟩

namespace FitnessCase

/-- A row describes a case: its tokens stand for the inputs, one for each variable, and then for
the target. -/
structure OnRow (varCount : Nat) (row : List Char) (c : FitnessCase) : Prop where
  /-- There is an input for each variable. -/
  size_inputs : c.inputs.size = varCount
  /-- The tokens stand for the inputs and the target. -/
  values : (tokens row).map Decimal.readFinite = (c.inputs.toList ++ [c.target]).map some

/-- **A row is read as the case that it describes.** -/
theorem read_eq_ok_iff {varCount : Nat} {row : List Char} {c : FitnessCase} :
    read varCount (tokens row) = .ok c ↔ c.OnRow varCount row := by
  simp only [read, bind_eq_ok_iff, readNumbers_eq_ok_iff]
  constructor
  · rintro ⟨values, hvalues, hc⟩
    split at hc
    · rename_i hlength
      obtain rfl := Except.ok.inj hc
      obtain ⟨inputs, target, rfl⟩ : ∃ inputs target, values = inputs ++ [target] :=
        (List.eq_nil_or_concat' values).resolve_left fun h => by simp [h] at hlength
      have hinputs : inputs.length = varCount := by simpa using hlength
      subst hinputs
      exact ⟨by simp, by simpa using hvalues⟩
    · cases hc
  · rintro ⟨rfl, hvalues⟩
    refine ⟨_, hvalues, ?_⟩
    simp [pure, Except.pure]

/-- A row describes a case if it has the right number of tokens and each is a finite number. -/
theorem exists_onRow_iff {varCount : Nat} {row : List Char} :
    (∃ c : FitnessCase, c.OnRow varCount row) ↔
      (tokens row).length = varCount + 1 ∧
        ∀ token ∈ tokens row, ∃ x, Decimal.readFinite token = some x := by
  constructor
  · rintro ⟨c, hsize, hvalues⟩
    have hread := readNumbers_eq_ok_iff.mpr hvalues
    exact ⟨by simpa [hsize] using length_eq_of_readNumbers_eq_ok hread,
      exists_readNumbers_iff.mp ⟨_, hread⟩⟩
  · rintro ⟨hlength, hfinite⟩
    obtain ⟨values, hread⟩ := exists_readNumbers_iff.mpr hfinite
    have hcount := (length_eq_of_readNumbers_eq_ok hread).symm.trans hlength
    obtain ⟨inputs, target, rfl⟩ : ∃ inputs target, values = inputs ++ [target] :=
      (List.eq_nil_or_concat' values).resolve_left fun h => by simp [h] at hcount
    exact ⟨⟨inputs.toArray, target⟩, by simpa using hcount, readNumbers_eq_ok_iff.mp hread⟩

/-- Each row of a list describes a case if each has the right tokens. -/
theorem exists_forall₂_onRow_iff {varCount : Nat} {rows : List (List Char)} :
    (∃ cases, List.Forall₂ (OnRow varCount) rows cases) ↔
      ∀ row ∈ rows, (tokens row).length = varCount + 1 ∧
        ∀ token ∈ tokens row, ∃ x, Decimal.readFinite token = some x := by
  simp only [← exists_onRow_iff]
  induction rows with
  | nil => simp
  | cons row rows ih =>
    rw [List.forall_mem_cons, ← ih]
    constructor
    · rintro ⟨_, hcases⟩
      cases hcases with
      | cons hc hrest => exact ⟨⟨_, hc⟩, _, hrest⟩
    · rintro ⟨⟨c, hc⟩, cases, hrest⟩
      exact ⟨c :: cases, .cons hc hrest⟩

end FitnessCase

/-- The first lines hold the tokens of the first rows. -/
theorem map_words_take {lines : List NumberedLine} {rows : List (List Char)}
    (hrows : lines.map NumberedLine.words = rows.map tokens) (count : Nat) :
    (lines.take count).map NumberedLine.words = (rows.take count).map tokens := by
  rw [List.map_take, List.map_take, hrows]

/-- Lines are read as cases, one by one, if they describe them. -/
theorem forall₂_read_iff {varCount : Nat} {lines : List NumberedLine} {rows : List (List Char)}
    {cases : List FitnessCase} (hrows : lines.map NumberedLine.words = rows.map tokens) :
    List.Forall₂ (fun line c => FitnessCase.read varCount (NumberedLine.words line) = .ok c)
        lines cases ↔ List.Forall₂ (FitnessCase.OnRow varCount) rows cases := by
  rw [← List.forall₂_map_left_iff (R := fun words c => FitnessCase.read varCount words = .ok c),
    hrows, List.forall₂_map_left_iff]
  simp only [FitnessCase.read_eq_ok_iff]

/-- **Cases are read if the first lines, as many as are wanted, describe one each.** -/
theorem readCases_eq_ok_iff {varCount count : Nat} {lines : List NumberedLine}
    {rows : List (List Char)} {cases : List FitnessCase}
    (hrows : lines.map NumberedLine.words = rows.map tokens) :
    readCases varCount count lines = .ok cases ↔
      cases.length = count ∧
        List.Forall₂ (FitnessCase.OnRow varCount) (rows.take count) cases := by
  simp only [readCases, bind_eq_ok_iff, mapM_eq_ok_iff, mapError_eq_ok_iff,
    forall₂_read_iff (map_words_take hrows count)]
  constructor
  · rintro ⟨found, hfound, h⟩
    have hlength := hfound.length_eq
    rw [List.length_take] at hlength
    split at h
    · cases h
    · obtain rfl := Except.ok.inj h
      exact ⟨by omega, hfound⟩
  · rintro ⟨hcount, h⟩
    refine ⟨cases, h, ?_⟩
    simp [hcount, pure, Except.pure]

/-! ## Case files -/

/-- The rows of the cases that a header declares. -/
def caseRows (text : String) (h : Header) : List (List Char) :=
  (contentLines text).tail.take h.caseCount

/-- The text is a case file: of the lines that count the first is the header `h`, at least as many
follow as it declares, and each of those has one token more than there are variables, all of them
finite numbers. -/
structure IsCaseFile (text : String) (h : Header) : Prop where
  /-- The first line is the header. -/
  header : ∃ line, (contentLines text).head? = some line ∧ h.Declared line
  /-- No row is missing. -/
  enough : h.caseCount ≤ (contentLines text).tail.length
  /-- Every row is one of a case. -/
  rows : ∀ row ∈ caseRows text h, (tokens row).length = h.varCount + 1 ∧
    ∀ token ∈ tokens row, ∃ x, Decimal.readFinite token = some x

/-- The problem has what the header declares and a case for each row, in order. -/
structure Problem.StandsIn (p : Problem) (text : String) (h : Header) : Prop where
  /-- The variables are those declared. -/
  varCount : p.varCount = h.varCount
  /-- The constants are those declared. -/
  constCount : p.constCount = h.constCount
  /-- The range of constants starts where it is declared to. -/
  minRandom : p.minRandom = h.minRandom
  /-- The range of constants ends where it is declared to. -/
  maxRandom : p.maxRandom = h.maxRandom
  /-- There are as many cases as declared. -/
  length_cases : p.cases.length = h.caseCount
  /-- Each row describes its case. -/
  cases : List.Forall₂ (FitnessCase.OnRow h.varCount) (caseRows text h) p.cases

/-- The rows of a case file stay when a text is put below it. -/
theorem IsCaseFile.append {upper : String} {h : Header} (hfile : IsCaseFile upper h)
    (lower : String) :
    IsCaseFile (upper ++ "\n" ++ lower) h ∧
      caseRows (upper ++ "\n" ++ lower) h = caseRows upper h := by
  obtain ⟨⟨line, hline, hheader⟩, henough, hrows⟩ := hfile
  obtain ⟨rest, hcontent⟩ := List.head?_eq_some_iff.mp hline
  have htext : contentLines (upper ++ "\n" ++ lower) = line :: (rest ++ contentLines lower) := by
    rw [contentLines_append, hcontent, List.cons_append]
  have hcaseRows : caseRows (upper ++ "\n" ++ lower) h = caseRows upper h := by
    rw [hcontent, List.tail_cons] at henough
    simp only [caseRows, htext, hcontent, List.tail_cons]
    exact List.take_append_of_le_length henough
  refine ⟨⟨⟨line, by rw [htext]; rfl, hheader⟩, ?_, hcaseRows ▸ hrows⟩, hcaseRows⟩
  rw [hcontent, List.tail_cons] at henough
  rw [htext, List.tail_cons, List.length_append]
  omega

namespace Problem

/-- **A text is read as a problem if it is a case file and the problem stands in it.** -/
theorem read_eq_ok_iff {text : String} {p : Problem} :
    read text = .ok p ↔ ∃ h, IsCaseFile text h ∧ p.StandsIn text h := by
  have hwords := map_words_numberedLines text
  constructor
  · intro hread
    unfold read at hread
    split at hread
    · simp at hread
    · rename_i first rest hlines
      simp only [bind_eq_ok_iff, mapError_eq_ok_iff] at hread
      obtain ⟨h, hheader, cases, hcases, hp⟩ := hread
      obtain rfl := Except.ok.inj hp
      rw [hlines, List.map_cons] at hwords
      obtain ⟨line, rows, hcontent, hline, hrows⟩ := List.map_eq_cons_iff.mp hwords.symm
      obtain ⟨hcount, hcases⟩ := (readCases_eq_ok_iff hrows.symm).mp hcases
      have hcaseRows : caseRows text h = rows.take h.caseCount := by rw [caseRows, hcontent]; rfl
      rw [← hcaseRows] at hcases
      have hlength := hcases.length_eq
      rw [hcaseRows, List.length_take, hcount] at hlength
      have hfile : IsCaseFile text h :=
        { header := ⟨line, by rw [hcontent]; rfl, Header.read_eq_ok_iff.mp (hline ▸ hheader)⟩
          enough := by
            rw [hcontent, List.tail_cons]
            omega
          rows := FitnessCase.exists_forall₂_onRow_iff.mp ⟨cases, hcases⟩ }
      exact ⟨h, hfile, rfl, rfl, rfl, rfl, hcount, hcases⟩
  · obtain ⟨varCount, constCount, low, high, cases⟩ := p
    rintro ⟨h, ⟨⟨line, hline, hheader⟩, -, -⟩, rfl, rfl, rfl, rfl, hcount, hcases⟩
    obtain ⟨rows, hcontent⟩ := List.head?_eq_some_iff.mp hline
    rw [caseRows, hcontent, List.tail_cons] at hcases
    rw [hcontent, List.map_cons] at hwords
    obtain ⟨first, rest, hlines, hfirst, hrest⟩ := List.map_eq_cons_iff.mp hwords
    have hread : Header.read first.words = .ok h := hfirst ▸ Header.read_eq_ok_iff.mpr hheader
    have hrows : readCases h.varCount h.caseCount rest = .ok cases :=
      (readCases_eq_ok_iff hrest).mpr ⟨hcount, hcases⟩
    simp only [read, hlines, bind_eq_ok_iff, mapError_eq_ok_iff]
    exact ⟨h, hread, cases, hrows, rfl⟩

/-- **Reading accepts exactly the case files.** A text is read as some problem if it is a case file,
and then as the one that stands in it; a text that is put below a case file, whatever it is, changes
nothing. -/
theorem read_recognizes (text : String) :
    ((∃ p, read text = .ok p) ↔ ∃ h, IsCaseFile text h) ∧
    (∀ p, read text = .ok p ↔ ∃ h, IsCaseFile text h ∧ p.StandsIn text h) ∧
    (∀ p lower, read text = .ok p → read (text ++ "\n" ++ lower) = .ok p) := by
  refine ⟨⟨?_, ?_⟩, fun p => read_eq_ok_iff, ?_⟩
  · rintro ⟨p, hread⟩
    obtain ⟨h, hfile, -⟩ := read_eq_ok_iff.mp hread
    exact ⟨h, hfile⟩
  · rintro ⟨h, hfile⟩
    obtain ⟨cases, hcases⟩ := FitnessCase.exists_forall₂_onRow_iff.mpr hfile.rows
    have hcount : cases.length = h.caseCount := by
      rw [← hcases.length_eq, caseRows, List.length_take]
      have := hfile.enough
      omega
    exact ⟨⟨h.varCount, h.constCount, h.minRandom, h.maxRandom, cases⟩,
      read_eq_ok_iff.mpr ⟨h, hfile, rfl, rfl, rfl, rfl, hcount, hcases⟩⟩
  · intro p lower hread
    obtain ⟨h, hfile, hstands⟩ := read_eq_ok_iff.mp hread
    obtain ⟨hfile', hcaseRows⟩ := hfile.append lower
    exact read_eq_ok_iff.mpr ⟨h, hfile', hstands.varCount, hstands.constCount, hstands.minRandom,
      hstands.maxRandom, hstands.length_cases, hcaseRows ▸ hstands.cases⟩

/-- A header that declares two rows, a blank line between them, and a line that is no row below. -/
theorem read_recognizes_sample :
    ∃ p, read "1 1 2 3 2\n0 5\n\n1 7" = .ok p ∧
      read ("1 1 2 3 2\n0 5\n\n1 7" ++ "\n" ++ "1 x") = .ok p := by
  have hread : ∃ p, read "1 1 2 3 2\n0 5\n\n1 7" = .ok p :=
    ⟨⟨1, 1, 2.0, 3.0, [⟨#[0.0], 5.0⟩, ⟨#[1.0], 7.0⟩]⟩, by rfl⟩
  obtain ⟨p, hp⟩ := hread
  exact ⟨p, hp, (read_recognizes _).2.2 p "1 x" hp⟩

end Problem

end SymbolicRegression
