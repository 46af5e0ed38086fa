import Mathlib.Data.List.Nodup
import SymbolicRegression.Proofs.Formula.Reading

set_option autoImplicit false
set_option relaxedAutoImplicit false

/-!
# The text of a program is unambiguous

A text is spelled by one term only, and the term of a tree has the shape and the operators of the
tree, with a variable or a number for every terminal. So programs of one text take the same values;
and they are one program, if no two constants are written alike, since the terminals can then be
told from their labels.

## Main results

* `SymbolicRegression.Tree.term_inj` — trees of one term are one tree, if the constants can be told
  apart.
* `SymbolicRegression.Program.formula_unambiguous` — the text of a complete program determines its
  values, and the program itself if the constants can be told apart.
-/

namespace SymbolicRegression

variable {layout : Layout}

/-! ## Telling terminals apart -/

/-- Constants that are written differently have different values, so the number of a constant can
be told from its value. -/
lemma Layout.eq_of_constant_eq
    (hdistinct : (layout.constants.toList.map Decimal.plain.render).Nodup) {i j : Nat}
    (hi : i < layout.constants.size) (hj : j < layout.constants.size)
    (h : layout.constants.getD i 0.0 = layout.constants.getD j 0.0) : i = j := by
  simp only [Array.getD_eq_getD_getElem?, Array.getElem?_eq_getElem hi,
    Array.getElem?_eq_getElem hj, Option.getD_some] at h
  have hi' : i < (layout.constants.toList.map Decimal.plain.render).length := by simpa using hi
  have hj' : j < (layout.constants.toList.map Decimal.plain.render).length := by simpa using hj
  have htext : (layout.constants.toList.map Decimal.plain.render)[i] =
      (layout.constants.toList.map Decimal.plain.render)[j] := by simp [h]
  exact hdistinct.getElem_inj_iff.mp htext

/-- **Trees of one term are one tree**, if the constants can be told apart.

**Proof sketch.** Induction on the first tree. A variable is the term of no constant, two variables
are told apart by their numbers, and two constants by their values. -/
theorem Tree.term_inj (hdistinct : (layout.constants.toList.map Decimal.plain.render).Nodup)
    {t t' : Tree} (ht : t.Within layout) (ht' : t'.Within layout)
    (h : t.term layout = t'.term layout) : t = t' := by
  induction t generalizing t' with
  | leaf slot =>
    cases t' with
    | leaf slot' =>
      have hslot : slot.val < layout.varCount + layout.constants.size := ht
      have hslot' : slot'.val < layout.varCount + layout.constants.size := ht'
      rw [Tree.term, Tree.term] at h
      refine congrArg Tree.leaf (Fin.ext ?_)
      -- either slot is that of a variable or that of a constant
      split at h <;> split at h
      · exact Term.input.inj h
      · cases h
      · cases h
      · have hoffset := Layout.eq_of_constant_eq hdistinct (by omega) (by omega)
          (Term.number.inj h)
        omega
    | node op' left' right' =>
      rw [Tree.term, Tree.term] at h
      split at h <;> cases h
  | node op left right hl hr =>
    cases t' with
    | leaf slot' =>
      rw [Tree.term, Tree.term] at h
      split at h <;> cases h
    | node op' left' right' =>
      rw [Tree.term, Tree.term] at h
      obtain ⟨rfl, hleft, hright⟩ := Term.node.inj h
      rw [hl ht.1 ht'.1 hleft, hr ht.2 ht'.2 hright]

/-! ## Values -/

/-- Trees of one term take the same value under every table of the layout. -/
lemma Tree.evaluate_eq_of_term_eq {t t' : Tree} (h : t.term layout = t'.term layout)
    {b : Bindings} (hb : b.layout = layout) :
    (Program.mk t.encode).evaluate b = (Program.mk t'.encode).evaluate b := by
  subst hb
  obtain ⟨inputs, hsize, hvalues⟩ := b.exists_inputs
  have hvalue : ∀ u : Tree, (Program.mk u.encode).evaluate b = (u.term b.layout).value inputs := by
    intro u
    calc (Program.mk u.encode).evaluate b
        = u.value b.values := Program.valueAt_encode u b.values
      _ = u.value (inputs ++ b.layout.constants) := by rw [hvalues]; rfl
      _ = (u.term b.layout).value inputs := (u.value_term hsize).symm
  rw [hvalue, hvalue, h]

/-! ## The text of a program -/

/-- **The text of a program is unambiguous.** If the constants are finite and all terminals have a
meaning, the text of a complete program is the infix form of the one tree that it encodes. Reading
it takes all of it and gives the term of this tree, the same shape with the same operators, the
same variables and, to the bit, the same constants; and the grammar gives no other term to it.
Therefore complete programs of one text take the same value under all inputs, and they are one
program if no two constants are written alike. -/
theorem Program.formula_unambiguous (hconstants : ∀ c ∈ layout.constants, c.isFinite = true) :
    (∀ p : Program, p.IsComplete →
      SlotsBelow (layout.varCount + layout.constants.size) p.code →
      ∃ t : Tree, (∀ t' : Tree, p.code = t'.encode ↔ t' = t) ∧
        p.formula layout = t.formula layout ∧
        Term.read (p.formula layout).toList = some (t.term layout) ∧
        ∀ u : Term, u.Spelled (p.formula layout).toList ↔ u = t.term layout) ∧
      ∀ p q : Program, p.IsComplete → q.IsComplete →
        SlotsBelow (layout.varCount + layout.constants.size) p.code →
        SlotsBelow (layout.varCount + layout.constants.size) q.code →
        p.formula layout = q.formula layout →
        (∀ b : Bindings, b.layout = layout → p.evaluate b = q.evaluate b) ∧
          ((layout.constants.toList.map Decimal.plain.render).Nodup → p = q) := by
  constructor
  · intro p hp hslots
    obtain ⟨t, rfl, ht⟩ := hp.exists_within hslots
    have hformula := Program.formula_encode layout t
    have hread := Term.read_formula hconstants ht
    refine ⟨t, fun t' => ?_, hformula, by rw [hformula, hread], fun u => ?_⟩
    · exact Tree.encode_inj.trans eq_comm
    · rw [hformula, ← Term.read_eq_some_iff, hread, Option.some.injEq, eq_comm]
  · intro p q hp hq hpslots hqslots h
    obtain ⟨t, rfl, ht⟩ := hp.exists_within hpslots
    obtain ⟨t', rfl, ht'⟩ := hq.exists_within hqslots
    rw [Program.formula_encode, Program.formula_encode] at h
    -- both trees are read from the same text
    have hterm : t.term layout = t'.term layout := by
      have hread := Term.read_formula hconstants ht
      rw [h, Term.read_formula hconstants ht'] at hread
      exact (Option.some.inj hread).symm
    exact ⟨fun b hb => Tree.evaluate_eq_of_term_eq hterm hb,
      fun hdistinct => by rw [Tree.term_inj hdistinct ht ht' hterm]⟩

/-- The text of a program over one variable and the constants `2.5` and `-1` is read back, and it
is the text of no other program. -/
theorem Program.formula_unambiguous_sample :
    let layout : Layout := ⟨1, #[2.5, -1.0]⟩
    let p : Program := ⟨[110, 0, 112, 1, 113, 0, 2]⟩
    (∀ c ∈ layout.constants, c.isFinite = true) ∧
      (layout.constants.toList.map Decimal.plain.render).Nodup ∧
      p.IsComplete ∧ SlotsBelow (layout.varCount + layout.constants.size) p.code ∧
      p.formula layout = "(X1 + (2.5 * (X1 / -1)))" ∧
      (∃ t : Tree, p.code = t.encode ∧
        Term.read (p.formula layout).toList = some (t.term layout)) ∧
      ∀ q : Program, q.IsComplete →
        SlotsBelow (layout.varCount + layout.constants.size) q.code →
        p.formula layout = q.formula layout → p = q := by
  intro layout p
  have hfinite : layout.constants.toList.all Float.isFinite = true := by decide +kernel
  have hconstants : ∀ c ∈ layout.constants, c.isFinite = true := fun c hc =>
    List.all_eq_true.mp hfinite c (Array.mem_def.mp hc)
  have hdistinct : (layout.constants.toList.map Decimal.plain.render).Nodup := by decide +kernel
  have hp : p.IsComplete := by decide
  have hslots : SlotsBelow (layout.varCount + layout.constants.size) p.code := by decide +kernel
  obtain ⟨hinverse, hunique⟩ := Program.formula_unambiguous hconstants
  obtain ⟨t, ht, -, hread, -⟩ := hinverse p hp hslots
  refine ⟨hconstants, hdistinct, hp, hslots, by decide +kernel, ⟨t, (ht t).mpr rfl, hread⟩, ?_⟩
  intro q hq hqslots h
  exact (hunique p q hp hq hslots hqslots h).2 hdistinct

end SymbolicRegression
