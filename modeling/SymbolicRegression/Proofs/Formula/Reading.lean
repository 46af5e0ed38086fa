import Mathlib.Data.List.Basic
import SymbolicRegression.Formula.Text
import SymbolicRegression.Proofs.Decimal.Text
import SymbolicRegression.Proofs.Fitness.Scoring
import SymbolicRegression.Proofs.Formula.Grammar
import SymbolicRegression.Proofs.Program.Shape

set_option autoImplicit false
set_option relaxedAutoImplicit false

/-!
# Formulas are read back

The text of a program is the infix form of its tree, with every operator in brackets. It is read
back as a term of the same shape, in which the terminals have become variables and numbers, and
which takes the same value as the program does. So the text of a program alone determines its
fitness.

## Main definitions

* `SymbolicRegression.ReadsBack` — the text of a number is a leaf that stands for the number.
* `SymbolicRegression.Tree.term` — the term that the text of a tree is read as.
* `SymbolicRegression.Term.fitnessOn` — the fitness of a term on a list of cases.

## Main results

* `SymbolicRegression.readsBack_of_isFinite` — finite numbers are read back.
* `SymbolicRegression.Program.formula_encode` — the text of an encoded tree is that of the tree.
* `SymbolicRegression.Tree.spelled_formula` — the text of a tree spells its term.
* `SymbolicRegression.Term.read_formula` — the text of a tree is read as its term.
* `SymbolicRegression.Tree.value_term` — the term takes the value of the tree.
-/

namespace SymbolicRegression

/-! ## The text of a program -/

/-- Writing an encoded tree appends its text, and then closes what the tree has finished.

**Proof sketch.** Induction on the tree. The bracket of an operator is opened first; its left
operand, once finished, is followed by the sign, and its right operand closes the bracket. -/
theorem formulaFrom_encode (layout : Layout) (t : Tree) (rest : List Opcode)
    (pending : List Pending) (out : String) :
    formulaFrom layout (t.encode ++ rest) pending out =
      formulaFrom layout rest (closeOperand pending (out ++ t.formula layout)).1
        (closeOperand pending (out ++ t.formula layout)).2 := by
  induction t generalizing rest pending out with
  | leaf slot =>
    rw [Tree.encode, List.singleton_append, formulaFrom, Node.ofOpcode?_ofNat]
    rfl
  | node op left right hl hr =>
    rw [Tree.encode, List.cons_append, List.append_assoc, formulaFrom, Node.ofOpcode?_opcode]
    simp only [hl, closeOperand, hr, Tree.formula, String.append_assoc]

/-- **The text of an encoded tree is the text of the tree.** -/
theorem Program.formula_encode (layout : Layout) (t : Tree) :
    (Program.mk t.encode).formula layout = t.formula layout := by
  have h := formulaFrom_encode layout t [] [] ""
  rw [List.append_nil, String.empty_append] at h
  exact h

/-! ## Terms -/

/-- The text of a number is a leaf that is no variable and stands for the number. -/
structure ReadsBack (x : Float) : Prop where
  /-- There is no blank and no bracket in it. -/
  isLeaf : (Decimal.plain.render x).toList.all Term.isLeafChar = true
  /-- It does not start like a variable. -/
  not_variable : (Decimal.plain.render x).toList.head? ≠ some 'X'
  /-- It stands for the number. -/
  readFinite : Decimal.readFinite (Decimal.plain.render x).toList = some x

/-- A digit is no blank and no bracket. -/
lemma Term.isLeafChar_of_isDigit {c : Char} (h : c.isDigit = true) : isLeafChar c = true := by
  have hne : ∀ d : Char, d.isDigit = false → c ≠ d := by
    rintro d hd rfl
    rw [h] at hd
    cases hd
  simp [isLeafChar, hne ' ' (by decide), hne '(' (by decide), hne ')' (by decide)]

/-- **The text of a finite number is a leaf that stands for the number.** -/
theorem readsBack_of_isFinite {x : Float} (h : x.isFinite = true) : ReadsBack x := by
  obtain ⟨s, y, hnumber, -⟩ := exists_isNumber h
  obtain ⟨coefficient, places, hspells, -⟩ := Decimal.exists_spells hnumber
  have hleaf : ∀ c ∈ (Decimal.plain.magnitudeText (.ofBits x.toBits)).toList,
      Term.isLeafChar c = true := by
    intro c hc
    rcases hspells.isDigit_or_eq hc with hdigit | rfl
    · exact Term.isLeafChar_of_isDigit hdigit
    · rfl
  refine ⟨?_, ?_, Decimal.readFinite_render h⟩
  · rw [Decimal.toList_render _ h]
    refine List.all_eq_true.mpr ?_
    intro c hc
    split at hc
    · rcases List.mem_cons.mp hc with rfl | hc
      · rfl
      · exact hleaf c hc
    · exact hleaf c hc
  · obtain ⟨c, rest, hdigit, htext⟩ := hspells.exists_head
    rw [Decimal.toList_render _ h, htext]
    split
    · simp
    · rw [List.head?_cons]
      rintro heq
      rw [Option.some.inj heq] at hdigit
      cases hdigit

/-- The term that the text of a tree is read as. -/
def Tree.term (layout : Layout) : Tree → Term
  | leaf slot =>
    if slot < layout.varCount then .input slot
    else .number (layout.constants.getD (slot - layout.varCount) 0.0)
  | node op left right => .node op (left.term layout) (right.term layout)

/-- Every terminal of the tree has a meaning in the layout. -/
def Tree.Within (layout : Layout) : Tree → Prop
  | leaf slot => slot < layout.varCount + layout.constants.size
  | node _ left right => left.Within layout ∧ right.Within layout

/-- A tree whose terminals have slots has terminals with a meaning. -/
lemma Tree.within_of_slotsBelow {layout : Layout} {t : Tree}
    (h : SlotsBelow (layout.varCount + layout.constants.size) t.encode) : t.Within layout := by
  induction t with
  | leaf slot =>
    have hlt := h (UInt8.ofNat slot) (by simp [Tree.encode]) (Operator.ofNat_lt_firstOpcode slot)
    have hslot := (Node.ofOpcode?_eq_terminal_iff.mp (Node.ofOpcode?_ofNat slot)).2
    rw [hslot] at hlt
    exact hlt
  | node op left right hl hr =>
    exact ⟨hl fun op' hop' => h op' (by simp [Tree.encode, hop']),
      hr fun op' hop' => h op' (by simp [Tree.encode, hop'])⟩

/-- A complete program whose terminals have a meaning encodes a tree within the layout. -/
lemma Program.IsComplete.exists_within {layout : Layout} {p : Program} (hp : p.IsComplete)
    (hslots : SlotsBelow (layout.varCount + layout.constants.size) p.code) :
    ∃ t : Tree, p = ⟨t.encode⟩ ∧ t.Within layout := by
  obtain ⟨t, rfl⟩ := hp.exists_eq_encode
  exact ⟨t, rfl, t.within_of_slotsBelow hslots⟩

/-- **The term takes the value of the tree** under the inputs and the constants. -/
theorem Tree.value_term {layout : Layout} {inputs : Array Float}
    (hinputs : inputs.size = layout.varCount) (t : Tree) :
    (t.term layout).value inputs = t.value (inputs ++ layout.constants) := by
  induction t with
  | leaf slot =>
    rw [Tree.term, Tree.value]
    split
    · simp only [Term.value, Array.getD_eq_getD_getElem?]
      rw [Array.getElem?_append_left (by omega)]
    · simp only [Term.value, Array.getD_eq_getD_getElem?]
      rw [Array.getElem?_append_right (by omega), hinputs]
  | node op left right hl hr => rw [Tree.term, Term.value, hl, hr, Tree.value]

/-! ## Reading a text -/

namespace Term

/-- A variable is read from its number. -/
lemma ofLeaf?_variable {n : Nat} (h : n + 1 < UInt64.size) :
    ofLeaf? ('X' :: Nat.toDigits 10 (n + 1)) = some (input n) := by
  simp [ofLeaf?, Decimal.readCount_toDigits h]

/-- A number is read from its text. -/
lemma ofLeaf?_number {x : Float} (h : ReadsBack x) :
    ofLeaf? (Decimal.plain.render x).toList = some (number x) := by
  unfold ofLeaf?
  split
  · rename_i digits htext
    exact absurd (by rw [htext]; rfl) h.not_variable
  · rw [h.readFinite]
    rfl

/-- What a label is read as. -/
lemma label_reads {layout : Layout} (hconstants : ∀ c ∈ layout.constants, c.isFinite = true)
    {slot : Fin 110} (hslot : slot < layout.varCount + layout.constants.size) :
    (layout.label slot).toList.all isLeafChar = true ∧
      ofLeaf? (layout.label slot).toList = some ((Tree.leaf slot).term layout) := by
  have hlt := slot.isLt
  rw [Layout.label, Tree.term]
  split
  · have htext : (s!"X{slot.val + 1}" : String).toList =
        'X' :: Nat.toDigits 10 (slot.val + 1) := by
      simp [toString, String.toList_append]
    rw [htext]
    refine ⟨?_, ofLeaf?_variable ?_⟩
    · refine List.all_eq_true.mpr ?_
      intro c hc
      rcases List.mem_cons.mp hc with rfl | hc
      · decide
      · exact isLeafChar_of_isDigit (Decimal.isDigit_of_mem_toDigits hc)
    · simp only [UInt64.size]
      omega
  · have hin : slot.val - layout.varCount < layout.constants.size := by omega
    rw [Array.getElem?_eq_getElem hin, Array.getD_eq_getD_getElem?, Array.getElem?_eq_getElem hin]
    have hreads := readsBack_of_isFinite (hconstants _ (Array.getElem_mem hin))
    exact ⟨hreads.isLeaf, ofLeaf?_number hreads⟩

end Term

/-- **The text of a tree spells its term.**

**Proof sketch.** Induction on the tree. The label of a leaf is the token of a variable or of a
number, and the text of an operator is made of those of its operands as the grammar says. -/
theorem Tree.spelled_formula {layout : Layout}
    (hconstants : ∀ c ∈ layout.constants, c.isFinite = true) {t : Tree} (ht : t.Within layout) :
    Term.Spelled (t.term layout) (t.formula layout).toList := by
  induction t with
  | leaf slot =>
    obtain ⟨hleaf, hreads⟩ := Term.label_reads hconstants ht
    exact .leaf hleaf hreads
  | node op left right hl hr =>
    have htext : ((Tree.node op left right).formula layout).toList =
        '(' :: ((left.formula layout).toList ++
          ' ' :: op.symbol :: ' ' :: ((right.formula layout).toList ++ [')'])) := by
      simp [Tree.formula, Operator.infixText]
    rw [htext]
    exact .node (hl ht.1) (hr ht.2)

/-- **The text of a tree is read as its term.** -/
theorem Term.read_formula {layout : Layout}
    (hconstants : ∀ c ∈ layout.constants, c.isFinite = true) {t : Tree} (ht : t.Within layout) :
    Term.read (t.formula layout).toList = some (t.term layout) :=
  Term.read_eq_some_iff.mpr (t.spelled_formula hconstants ht)

/-! ## Fitness -/

/-- The fitness of a term on a list of cases: the negated sum of its absolute errors, added up in
order from zero, or minus infinity if the sum is not finite. -/
def Term.fitnessOn (t : Term) (cases : List FitnessCase) : Float :=
  Scorer.fitnessOfError
    (cases.foldl (fun error c => error + (t.value c.inputs - c.target).abs) 0.0)

/-- **A program has the fitness of the term that its text is read as.** -/
theorem Tree.fitnessOn_term {layout : Layout} {cases : List FitnessCase}
    (hcases : ∀ c ∈ cases, c.inputs.size = layout.varCount) (t : Tree) :
    (t.term layout).fitnessOn cases = (Program.mk t.encode).fitnessOn cases layout.constants := by
  have hvalue : ∀ (error : Float), ∀ c ∈ cases,
      error + ((t.term layout).value c.inputs - c.target).abs =
        error + ((Program.mk t.encode).valueAt (c.inputs ++ layout.constants) - c.target).abs := by
    intro error c hc
    rw [t.value_term (hcases c hc), Program.valueAt_encode]
  rw [Term.fitnessOn, Program.fitnessOn, Program.errorOn, List.foldl_ext _ _ _ hvalue]

/-- The text of a complete program is read as a term of the same fitness. -/
theorem Program.exists_read_formula {layout : Layout} {cases : List FitnessCase} {p : Program}
    {maxLength : Nat} (hconstants : ∀ c ∈ layout.constants, c.isFinite = true)
    (hcases : ∀ c ∈ cases, c.inputs.size = layout.varCount)
    (hp : p.Fits maxLength (layout.varCount + layout.constants.size)) :
    ∃ t, Term.read (p.formula layout).toList = some t ∧
      t.fitnessOn cases = p.fitnessOn cases layout.constants := by
  obtain ⟨t, rfl, ht⟩ := hp.isComplete.exists_within hp.slotsBelow
  refine ⟨t.term layout, ?_, t.fitnessOn_term hcases⟩
  rw [Program.formula_encode]
  exact Term.read_formula hconstants ht

end SymbolicRegression
