import SymbolicRegression.Proofs.CaseFile.Format

set_option autoImplicit false
set_option relaxedAutoImplicit false

/-!
# Faults of case files

What a text that is no case file is refused for, and which place is named. A row is refused for its
first token that is no finite number or else for the number of its tokens, and the rows are refused
for the first one with a fault. Its place among the rows is found back in the text: a line stands at
a place if so many lines above it count, and its number is that among all lines.

## Main definitions

* `SymbolicRegression.StandsAt` — the place of a line among those that count, and its number.
* `SymbolicRegression.readNumber` — the reading of one word of a row.
* `SymbolicRegression.FitnessCase.Faulty` — what is wrong with a row.
* `SymbolicRegression.FirstFault` — the first of some rows with a fault.
* `SymbolicRegression.Header.Heads` — a text begins with a header.

## Main results

* `SymbolicRegression.exists_standsAt` — the numbers of the lines that are read.
* `SymbolicRegression.readNumbers_eq_mapM` — words are read one by one.
* `SymbolicRegression.FitnessCase.read_eq_error_iff` — what a row is refused for.
* `SymbolicRegression.readCases_of_firstFault`, `SymbolicRegression.readCases_of_forall_onRow` —
  what rows are refused for.
* `SymbolicRegression.Problem.read_names_fault` — the fault that is reported of a text, and its
  place.
-/

namespace SymbolicRegression

/-! ## Where a line stands -/

/-- Of the lines that count, `line` is the one with `k` before it, and it is line `number` of the
text when all lines are counted, from one. -/
structure StandsAt (text : String) (k : Nat) (line : List Char) (number : Nat) : Prop where
  /-- Lines are counted from one. -/
  one_le : 1 ≤ number
  /-- The line has this number. -/
  onLine : (text.toList.splitOn '\n')[number - 1]? = some line
  /-- The line counts. -/
  counts : Text.trim line ≠ []
  /-- So many lines above it count. -/
  above : (((text.toList.splitOn '\n').take (number - 1)).filter (Text.trim · ≠ [])).length = k

/-- The lines that are read keep the number of their place among all lines.

**Proof sketch.** Induction on the lines: those above come off one by one, and those of them that
count are taken off `k` as well. -/
theorem exists_place_of_getElem?_filterMap {read : List Char × Nat → Option NumberedLine}
    (hblank : ∀ line number, Text.words line = [] → read (line, number) = none)
    (hread : ∀ line number, Text.words line ≠ [] →
      read (line, number) = some ⟨number, Text.words line⟩)
    {lines : List (List Char)} {first k : Nat} {l : NumberedLine}
    (h : ((lines.zipIdx first).filterMap read)[k]? = some l) :
    ∃ (i : Nat) (line : List Char), lines[i]? = some line ∧ Text.trim line ≠ [] ∧
      ((lines.take i).filter (Text.trim · ≠ [])).length = k ∧ l.number = first + i ∧
        l.words = tokens line := by
  induction lines generalizing first k with
  | nil => simp at h
  | cons line rest ih =>
    rw [List.zipIdx_cons, List.filterMap_cons] at h
    by_cases hwords : Text.words line = []
    · rw [hblank line first hwords] at h
      obtain ⟨i, line', hline', hcounts, habove, hnumber, hl⟩ := ih h
      have htrim := (words_eq_nil_iff_trim line).mp hwords
      exact ⟨i + 1, line', hline', hcounts, by simpa [htrim] using habove, by omega, hl⟩
    · have htrim : Text.trim line ≠ [] := fun h => hwords ((words_eq_nil_iff_trim line).mpr h)
      rw [hread line first hwords] at h
      cases k with
      | zero =>
        obtain rfl := Option.some.inj h
        exact ⟨0, line, rfl, htrim, rfl, rfl, words_eq_tokens line⟩
      | succ k =>
        obtain ⟨i, line', hline', hcounts, habove, hnumber, hl⟩ := ih h
        exact ⟨i + 1, line', hline', hcounts, by simpa [htrim] using habove, by omega, hl⟩

/-- **The number of a line that is read is that of its place in the text.** -/
theorem exists_standsAt {text : String} {k : Nat} {l : NumberedLine}
    (h : (numberedLines text)[k]? = some l) :
    ∃ line, StandsAt text k line l.number ∧ l.words = tokens line := by
  rw [numberedLines, Text.lines_eq_splitOn] at h
  obtain ⟨i, line, hline, hcounts, habove, hnumber, hwords⟩ :=
    exists_place_of_getElem?_filterMap (fun line number hblank => by simp [hblank])
      (fun line number hwords => by cases hline : Text.words line <;> simp_all) h
  obtain rfl : i = l.number - 1 := by omega
  exact ⟨line, ⟨by omega, hline, hcounts, habove⟩, hwords⟩

/-- A line that stands somewhere in the text is found among those that count. -/
theorem StandsAt.getElem?_contentLines {text : String} {k number : Nat} {line : List Char}
    (h : StandsAt text k line number) : (contentLines text)[k]? = some line := by
  obtain ⟨hlt, hline⟩ := List.getElem?_eq_some_iff.mp h.onLine
  have habove := h.above
  rw [contentLines, ← List.take_append_drop (number - 1) (text.toList.splitOn '\n'),
    List.filter_append, List.getElem?_append_right habove.le, habove, Nat.sub_self,
    List.drop_eq_getElem_cons hlt, hline]
  simp [h.counts]

/-! ## Faults of a row -/

/-- The number that a word stands for. -/
def readNumber (word : List Char) : Except RowError Float :=
  match Decimal.readFinite word with
  | some x => .ok x
  | none => .error (.notFinite (String.ofList word))

/-- A word is read as the number that it stands for. -/
theorem readNumber_eq_ok_iff {word : List Char} {x : Float} :
    readNumber word = .ok x ↔ Decimal.readFinite word = some x := by
  cases h : Decimal.readFinite word <;> simp [readNumber, h]

/-- A word is refused if it stands for no finite number. -/
theorem readNumber_eq_error_iff {word : List Char} {e : RowError} :
    readNumber word = .error e ↔
      Decimal.readFinite word = none ∧ e = .notFinite (String.ofList word) := by
  cases h : Decimal.readFinite word <;> simp [readNumber, h, eq_comm]

/-- Words are read one by one. -/
theorem readNumbers_eq_mapM (words : List (List Char)) :
    readNumbers words = words.mapM readNumber := by
  induction words with
  | nil => rfl
  | cons word words ih =>
    rw [readNumbers, List.mapM_cons, ← ih, readNumber]
    cases Decimal.readFinite word with
    | none => rfl
    | some x => cases readNumbers words <;> rfl

namespace FitnessCase

/-- What is wrong with a row that describes no case. -/
inductive Faulty (varCount : Nat) (row : List Char) : RowError → Prop
  /-- A token is no finite number, and those before it are. -/
  | notFinite {i : Nat} {token : List Char} (hplace : (tokens row)[i]? = some token)
      (htoken : Decimal.readFinite token = none)
      (hbefore : ∀ (j : Nat) (t : List Char), j < i → (tokens row)[j]? = some t →
        ∃ x, Decimal.readFinite t = some x) :
      Faulty varCount row (.notFinite (String.ofList token))
  /-- All tokens are finite numbers, but there are not as many as inputs and the target. -/
  | tokenCount (hfinite : ∀ t ∈ tokens row, ∃ x, Decimal.readFinite t = some x)
      (hcount : (tokens row).length ≠ varCount + 1) :
      Faulty varCount row (.tokenCount (varCount + 1) (tokens row).length)

/-- **A row that is not read is refused for what is wrong with it.** -/
theorem read_eq_error_iff {varCount : Nat} {row : List Char} {e : RowError} :
    read varCount (tokens row) = .error e ↔ Faulty varCount row e := by
  have hnumbers : readNumbers (tokens row) = .error e ↔ ∃ (i : Nat) (token : List Char),
      (tokens row)[i]? = some token ∧
        (Decimal.readFinite token = none ∧ e = .notFinite (String.ofList token)) ∧
        ∀ (j : Nat) (t : List Char), j < i → (tokens row)[j]? = some t →
          ∃ x, Decimal.readFinite t = some x := by
    simp only [readNumbers_eq_mapM, mapM_eq_error_iff, readNumber_eq_error_iff,
      readNumber_eq_ok_iff]
  rw [read, bind_eq_error_iff, hnumbers]
  constructor
  · rintro (⟨i, token, hplace, ⟨htoken, rfl⟩, hbefore⟩ | ⟨values, hread, h⟩)
    · exact .notFinite hplace htoken hbefore
    · have hlength := length_eq_of_readNumbers_eq_ok hread
      split at h
      · cases h
      · rename_i hcount
        obtain rfl := Except.error.inj h
        rw [← hlength]
        exact .tokenCount (exists_readNumbers_iff.mp ⟨values, hread⟩) (hlength ▸ hcount)
  · rintro (⟨hplace, htoken, hbefore⟩ | ⟨hfinite, hcount⟩)
    · exact .inl ⟨_, _, hplace, ⟨htoken, rfl⟩, hbefore⟩
    · obtain ⟨values, hread⟩ := exists_readNumbers_iff.mpr hfinite
      refine .inr ⟨values, hread, ?_⟩
      rw [length_eq_of_readNumbers_eq_ok hread] at hcount ⊢
      rw [if_neg hcount]
      rfl

/-- A row with a fault describes no case. -/
theorem Faulty.not_onRow {varCount : Nat} {row : List Char} {e : RowError}
    (h : Faulty varCount row e) : ¬ ∃ c : FitnessCase, c.OnRow varCount row := by
  rintro ⟨c, hc⟩
  cases (read_eq_error_iff.mpr h).symm.trans (read_eq_ok_iff.mpr hc)

/-- A row describes a case or has a fault. -/
theorem exists_onRow_or_faulty (varCount : Nat) (row : List Char) :
    (∃ c : FitnessCase, c.OnRow varCount row) ∨ ∃ e, Faulty varCount row e := by
  cases h : read varCount (tokens row) with
  | ok c => exact .inl ⟨c, read_eq_ok_iff.mp h⟩
  | error e => exact .inr ⟨e, read_eq_error_iff.mp h⟩

end FitnessCase

/-! ## Faults of the rows together -/

/-- Lists with the same images have items with the same image at each place. -/
lemma exists_getElem?_of_map_eq {α β γ : Type} {f : α → γ} {g : β → γ} {l : List α} {l' : List β}
    (h : l.map f = l'.map g) {i : Nat} {a : α} (ha : l[i]? = some a) :
    ∃ b, l'[i]? = some b ∧ g b = f a := by
  have hi := congrArg (fun images => images[i]?) h
  simp only [List.getElem?_map, ha, Option.map_some] at hi
  exact Option.map_eq_some_iff.mp hi.symm

/-- A row has a fault, and the rows before it describe cases. -/
structure FirstFault (varCount : Nat) (rows : List (List Char)) (i : Nat) (row : List Char)
    (e : RowError) : Prop where
  /-- The row has this place. -/
  place : rows[i]? = some row
  /-- This is wrong with it. -/
  faulty : FitnessCase.Faulty varCount row e
  /-- No row before it has a fault. -/
  before : ∀ (j : Nat) (row' : List Char), j < i → rows[j]? = some row' →
    ∃ c : FitnessCase, c.OnRow varCount row'

section

variable {varCount count : Nat} {lines : List NumberedLine} {rows : List (List Char)}

/-- Rows describe cases, or one of them is the first with a fault. -/
theorem forall_onRow_or_firstFault (varCount : Nat) (rows : List (List Char)) :
    (∀ row ∈ rows, ∃ c : FitnessCase, c.OnRow varCount row) ∨
      ∃ i row e, FirstFault varCount rows i row e := by
  induction rows with
  | nil => exact .inl nofun
  | cons row rows ih =>
    rcases FitnessCase.exists_onRow_or_faulty varCount row with hcase | ⟨e, hfaulty⟩
    · rcases ih with hcases | ⟨i, row', e, hrow, hfaulty, hbefore⟩
      · exact .inl (List.forall_mem_cons.mpr ⟨hcase, hcases⟩)
      · refine .inr ⟨i + 1, row', e, hrow, hfaulty, ?_⟩
        intro j row'' hj hrow''
        cases j with
        | zero =>
          obtain rfl := Option.some.inj hrow''
          exact hcase
        | succ j => exact hbefore j row'' (Nat.lt_of_succ_lt_succ hj) hrow''
    · exact .inr ⟨0, row, e, rfl, hfaulty, nofun⟩

/-- **Rows are read up to the first fault**, which is named with the number of its line. -/
theorem readCases_of_firstFault (hrows : lines.map NumberedLine.words = rows.map tokens) {i : Nat}
    {row : List Char} {e : RowError} (h : FirstFault varCount (rows.take count) i row e) :
    ∃ line, lines[i]? = some line ∧
      readCases varCount count lines = .error (.row line.number e) := by
  have hfirst := map_words_take hrows count
  obtain ⟨line, hline, hwords⟩ := exists_getElem?_of_map_eq hfirst.symm h.place
  refine ⟨line, ?_, bind_eq_error_iff.mpr (.inl (mapM_eq_error_iff.mpr ⟨i, line, hline, ?_, ?_⟩))⟩
  · have hi := (List.getElem?_eq_some_iff.mp hline).1
    rw [List.length_take] at hi
    rwa [List.getElem?_take_of_lt (by omega)] at hline
  · rw [hwords, FitnessCase.read_eq_error_iff.mpr h.faulty]
    rfl
  · intro j l hj hl
    obtain ⟨row', hrow', htokens⟩ := exists_getElem?_of_map_eq hfirst hl
    obtain ⟨c, hc⟩ := h.before j row' hj hrow'
    exact ⟨c, mapError_eq_ok_iff.mpr (htokens ▸ FitnessCase.read_eq_ok_iff.mpr hc)⟩

/-- **Rows without a fault are read if there are enough of them.** -/
theorem readCases_of_forall_onRow (hrows : lines.map NumberedLine.words = rows.map tokens)
    (h : ∀ row ∈ rows.take count, ∃ c : FitnessCase, c.OnRow varCount row) :
    (rows.length < count → readCases varCount count lines =
      .error (.missingCases count rows.length)) ∧
    (count ≤ rows.length → ∃ cases, readCases varCount count lines = .ok cases) := by
  simp only [FitnessCase.exists_onRow_iff] at h
  obtain ⟨cases, hcases⟩ := FitnessCase.exists_forall₂_onRow_iff.mpr h
  have hlength := hcases.length_eq
  rw [List.length_take] at hlength
  constructor
  · intro hmissing
    have hread : (lines.take count).mapM (fun line =>
        (FitnessCase.read varCount line.words).mapError (ProblemError.row line.number)) =
          .ok cases :=
      mapM_eq_ok_iff.mpr
        (((forall₂_read_iff (map_words_take hrows count)).mpr hcases).imp fun _ _ hc =>
          mapError_eq_ok_iff.mpr hc)
    have hfew : cases.length = rows.length := by omega
    simp only [readCases, hread, bind, Except.bind, hfew, if_pos hmissing]
    rfl
  · intro henough
    exact ⟨cases, (readCases_eq_ok_iff hrows).mpr ⟨by omega, hcases⟩⟩

end

/-! ## Faults of a case file -/

/-- The first line of the text that counts is the header `h`. -/
def Header.Heads (h : Header) (text : String) : Prop :=
  ∃ line, (contentLines text).head? = some line ∧ h.Declared line

namespace Problem

/-- The lines that are read are those that count: none, or a first one and those behind it. -/
theorem numberedLines_cases (text : String) :
    numberedLines text = [] ∧ contentLines text = [] ∨ ∃ first rest line rows,
      numberedLines text = first :: rest ∧ contentLines text = line :: rows ∧
        first.words = tokens line ∧ rest.map NumberedLine.words = rows.map tokens := by
  have hwords := map_words_numberedLines text
  cases hlines : numberedLines text with
  | nil =>
    rw [hlines, List.map_nil] at hwords
    exact .inl ⟨rfl, List.map_eq_nil_iff.mp hwords.symm⟩
  | cons first rest =>
    rw [hlines, List.map_cons] at hwords
    obtain ⟨line, rows, hcontent, hline, hrows⟩ := List.map_eq_cons_iff.mp hwords.symm
    exact .inr ⟨first, rest, line, rows, rfl, hcontent, hline.symm, hrows.symm⟩

/-- A text without a header is refused for that: it has no line that counts, or the first one is no
header. -/
theorem read_of_not_heads {text : String} (h : ∀ h : Header, ¬ h.Heads text) :
    contentLines text = [] ∧ read text = .error (.header .missing) ∨
      ∃ line rows e, contentLines text = line :: rows ∧ Header.read (tokens line) = .error e ∧
        read text = .error (.header e) := by
  rcases numberedLines_cases text with
    ⟨hlines, hcontent⟩ | ⟨first, rest, line, rows, hlines, hcontent, hfirst, -⟩
  · exact .inl ⟨hcontent, by rw [read, hlines]⟩
  · cases hread : Header.read (tokens line) with
    | error e =>
      refine .inr ⟨line, rows, e, hcontent, hread, ?_⟩
      simp only [read, hlines, hfirst, hread]
      rfl
    | ok header =>
      exact absurd ⟨line, by rw [hcontent]; rfl, Header.read_eq_ok_iff.mp hread⟩ (h header)

section

variable {text : String} {h : Header}

/-- A text with a header is read row by row. -/
theorem read_of_heads (hheads : h.Heads text) :
    ∃ first rest, numberedLines text = first :: rest ∧
      rest.map NumberedLine.words = (contentLines text).tail.map tokens ∧
      read text = (readCases h.varCount h.caseCount rest).map fun cases =>
        ⟨h.varCount, h.constCount, h.minRandom, h.maxRandom, cases⟩ := by
  obtain ⟨line, hline, hdeclared⟩ := hheads
  rcases numberedLines_cases text with
    ⟨-, hcontent⟩ | ⟨first, rest, line', rows, hlines, hcontent, hfirst, hrest⟩
  · simp [hcontent] at hline
  · rw [hcontent] at hline
    obtain rfl := Option.some.inj hline
    have hread : Header.read first.words = .ok h := hfirst ▸ Header.read_eq_ok_iff.mpr hdeclared
    refine ⟨first, rest, hlines, by rw [hcontent]; exact hrest, ?_⟩
    simp only [read, hlines, hread]
    show (readCases h.varCount h.caseCount rest >>= fun _ => _) = _
    cases readCases h.varCount h.caseCount rest <;> rfl

/-- **A text is refused for the first row with a fault**, with the number of its line. -/
theorem read_of_firstFault (hheads : h.Heads text) {i : Nat} {row : List Char} {e : RowError}
    (hfault : FirstFault h.varCount (caseRows text h) i row e) :
    i < h.caseCount ∧ ∃ number, StandsAt text (i + 1) row number ∧
      read text = .error (.row number e) := by
  obtain ⟨first, rest, hlines, hrest, hread⟩ := read_of_heads hheads
  obtain ⟨line, hline, hcases⟩ := readCases_of_firstFault hrest hfault
  obtain ⟨row', hstands, -⟩ := exists_standsAt (k := i + 1) (by rw [hlines]; exact hline)
  have hplace := hfault.place
  have hi : i < h.caseCount := by
    have hlt := (List.getElem?_eq_some_iff.mp hplace).1
    rw [caseRows, List.length_take] at hlt
    omega
  rw [caseRows, List.getElem?_take_of_lt hi, List.getElem?_tail,
    hstands.getElem?_contentLines] at hplace
  obtain rfl := Option.some.inj hplace
  exact ⟨hi, line.number, hstands, by rw [hread, hcases]; rfl⟩

/-- **A text whose declared rows have no fault is refused just if some are missing.** -/
theorem read_of_forall_onRow (hheads : h.Heads text)
    (hvalid : ∀ row ∈ caseRows text h, ∃ c : FitnessCase, c.OnRow h.varCount row) :
    ((contentLines text).tail.length < h.caseCount → read text =
      .error (.missingCases h.caseCount (contentLines text).tail.length)) ∧
    (h.caseCount ≤ (contentLines text).tail.length → ∃ p, read text = .ok p) := by
  obtain ⟨first, rest, hlines, hrest, hread⟩ := read_of_heads hheads
  obtain ⟨hmissing, henough⟩ := readCases_of_forall_onRow hrest hvalid
  constructor
  · intro hfew
    rw [hread, hmissing hfew]
    rfl
  · intro hmany
    obtain ⟨cases, hcases⟩ := henough hmany
    exact ⟨_, by rw [hread, hcases]; rfl⟩

end

/-- **Reading names the first fault of a text, and its place.** A text without a header is refused
for that, whatever follows. If there is a header and one of the rows that it declares describes no
case, the text is refused for the first such row, by the number of its line among all lines of the
text and by what is wrong with it, also if rows are missing. If all these rows describe cases, the
text is refused just if there are fewer of them than declared, with the number of those found. No
line behind the declared rows is ever named. -/
theorem read_names_fault (text : String) :
    ((∀ h : Header, ¬ h.Heads text) → ∃ e, read text = .error (.header e)) ∧
    ∀ h : Header, h.Heads text →
      ((∃ row ∈ caseRows text h, ¬ ∃ c : FitnessCase, c.OnRow h.varCount row) →
        ∃ i row number e, i < h.caseCount ∧ FirstFault h.varCount (caseRows text h) i row e ∧
          StandsAt text (i + 1) row number ∧ read text = .error (.row number e)) ∧
      ((∀ row ∈ caseRows text h, ∃ c : FitnessCase, c.OnRow h.varCount row) →
        ((contentLines text).tail.length < h.caseCount → read text =
          .error (.missingCases h.caseCount (contentLines text).tail.length)) ∧
        (h.caseCount ≤ (contentLines text).tail.length → ∃ p, read text = .ok p)) ∧
      ∀ number e, read text = .error (.row number e) →
        ∃ i row, i < h.caseCount ∧ StandsAt text (i + 1) row number := by
  refine ⟨?_, ?_⟩
  · intro hnone
    rcases read_of_not_heads hnone with ⟨-, hread⟩ | ⟨-, -, e, -, -, hread⟩
    · exact ⟨_, hread⟩
    · exact ⟨e, hread⟩
  intro h hheads
  rcases forall_onRow_or_firstFault h.varCount (caseRows text h) with hvalid | ⟨i, row, e, hfault⟩
  · obtain ⟨hmissing, henough⟩ := read_of_forall_onRow hheads hvalid
    refine ⟨?_, fun _ => ⟨hmissing, henough⟩, ?_⟩
    · rintro ⟨row, hrow, hinvalid⟩
      exact absurd (hvalid row hrow) hinvalid
    · intro number e hrow
      rcases lt_or_ge (contentLines text).tail.length h.caseCount with hfew | hmany
      · cases (hmissing hfew).symm.trans hrow
      · obtain ⟨p, hp⟩ := henough hmany
        cases hp.symm.trans hrow
  · obtain ⟨hi, number, hstands, hread⟩ := read_of_firstFault hheads hfault
    refine ⟨fun _ => ⟨i, row, number, e, hi, hfault, hstands, hread⟩, ?_, ?_⟩
    · intro hvalid
      exact absurd (hvalid row (List.mem_of_getElem? hfault.place)) hfault.faulty.not_onRow
    · intro number' e' hrow
      obtain ⟨rfl, -⟩ := ProblemError.row.inj (Except.error.inj (hread.symm.trans hrow))
      exact ⟨i, row, hi, hstands⟩

/-- A header of four tokens; a row and a line that is no row, where three rows are declared; and
the same with a third row too few. -/
theorem read_names_fault_sample :
    (∃ e, read "1 1 2 3\n0 5" = .error (.header e)) ∧
    (∃ i row, i < 3 ∧ FirstFault 1 ["0 5".toList, "1 x".toList] i row (.notFinite "x") ∧
      StandsAt "1 1 2 3 3\n\n0 5\n1 x" (i + 1) row 4 ∧
      read "1 1 2 3 3\n\n0 5\n1 x" = .error (.row 4 (.notFinite "x"))) ∧
    read "1 1 2 3 3\n\n0 5\n1 7" = .error (.missingCases 3 2) := by
  have hdeclared : Header.Declared "1 1 2 3 3".toList ⟨1, 1, 2.0, 3.0, 3⟩ :=
    Header.read_eq_ok_iff.mp (by rfl)
  refine ⟨(read_names_fault _).1 ?_, ?_, ?_⟩
  · rintro h ⟨line, hline, hheader⟩
    have hfirst : (contentLines "1 1 2 3\n0 5").head? = some "1 1 2 3".toList := by rfl
    obtain rfl := Option.some.inj (hfirst.symm.trans hline)
    have hread : Header.read (tokens "1 1 2 3".toList) = .error (.tokenCount 4) := by rfl
    cases hread.symm.trans (Header.read_eq_ok_iff.mpr hheader)
  · have hread : read "1 1 2 3 3\n\n0 5\n1 x" = .error (.row 4 (.notFinite "x")) := by rfl
    have hrow : FitnessCase.read 1 (tokens "1 x".toList) = .error (.notFinite "x") := by rfl
    obtain ⟨i, row, number, e, hi, hfault, hstands, hread'⟩ :=
      ((read_names_fault "1 1 2 3 3\n\n0 5\n1 x").2 ⟨1, 1, 2.0, 3.0, 3⟩ ⟨_, rfl, hdeclared⟩).1
        ⟨"1 x".toList, by decide, (FitnessCase.read_eq_error_iff.mp hrow).not_onRow⟩
    obtain ⟨rfl, rfl⟩ := ProblemError.row.inj (Except.error.inj (hread.symm.trans hread'))
    exact ⟨i, row, hi, hfault, hstands, hread⟩
  · have hrows : ∀ row ∈ caseRows "1 1 2 3 3\n\n0 5\n1 7" ⟨1, 1, 2.0, 3.0, 3⟩,
        ∃ c : FitnessCase, c.OnRow 1 row := by
      have hcases : caseRows "1 1 2 3 3\n\n0 5\n1 7" ⟨1, 1, 2.0, 3.0, 3⟩ =
          ["0 5".toList, "1 7".toList] := by rfl
      rw [hcases]
      simp only [List.forall_mem_cons]
      exact ⟨⟨⟨#[0.0], 5.0⟩, FitnessCase.read_eq_ok_iff.mp (by rfl)⟩,
        ⟨⟨#[1.0], 7.0⟩, FitnessCase.read_eq_ok_iff.mp (by rfl)⟩, nofun⟩
    exact (((read_names_fault "1 1 2 3 3\n\n0 5\n1 7").2 ⟨1, 1, 2.0, 3.0, 3⟩
      ⟨_, rfl, hdeclared⟩).2.1 hrows).1 (by decide)

end Problem

end SymbolicRegression
