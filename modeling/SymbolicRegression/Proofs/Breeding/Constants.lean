import Mathlib.Data.List.Forall2
import SymbolicRegression.Breeding.Constants
import SymbolicRegression.Proofs.Random.Draws

set_option autoImplicit false
set_option relaxedAutoImplicit false

/-!
# Random constants

A table of bound values starts with a zero for each variable of the problem, followed by as many
constants as the problem asks for, each of them made from one random word.

## Main definitions

* `SymbolicRegression.Problem.constantOf` — the constant that a word stands for.

## Main results

* `SymbolicRegression.Bindings.of_sample` — what a sampled table holds.
-/

namespace SymbolicRegression

/-- The constant of a problem that a random word stands for. -/
def Problem.constantOf (p : Problem) (w : UInt64) : Float :=
  p.minRandom + (p.maxRandom - p.minRandom) * Draw.unitOfWord w

variable {σ : Type} [WordSource σ]

/-- A constant can always be drawn, and a word stands for it. -/
theorem Problem.yields_drawConstant (p : Problem) :
    Draw.Yields (p.drawConstant : Draw σ Float) fun c => ∃ w, c = p.constantOf w := by
  refine Draw.yields_unit.bind fun x ⟨w, hx⟩ => .pure ⟨w, ?_⟩
  rw [hx, Problem.constantOf]

namespace Bindings

/-- The constants of a table that is made from them. -/
theorem constants_ofConstants (varCount : Nat) (constants : List Float) :
    (ofConstants varCount constants).constants = constants.toArray := by
  simp [Bindings.constants, ofConstants, Array.extract_append]

/-- **What a sampled table holds**: one slot for each variable and one constant for each that the
problem asks for, with a word that stands for it. -/
theorem of_sample {p : Problem} {supply supply' : Supply σ} {b : Bindings}
    (h : (sample p : Draw σ Bindings).run supply = .ok (b, supply')) :
    b.varCount = p.varCount ∧ b.values.size = p.terminalCount ∧
      ∀ c ∈ b.constants, ∃ w, c = p.constantOf w := by
  rw [sample, StateT.run_bind, bind_eq_ok_iff] at h
  obtain ⟨⟨terminals, s₁⟩, -, h⟩ := h
  rw [StateT.run_bind, bind_eq_ok_iff] at h
  obtain ⟨⟨_, s₂⟩, -, h⟩ := h
  rw [StateT.run_bind, bind_eq_ok_iff] at h
  obtain ⟨⟨constants, s₃⟩, hdraws, h⟩ := h
  obtain ⟨rfl, -⟩ := Prod.mk.inj (Except.ok.inj h)
  have hconstants : List.Forall₂ (fun q c => q = p ∧ ∃ w, c = p.constantOf w)
      (List.replicate p.constCount p) constants := by
    refine (Draw.Yields.mapM (fun q hq => ?_) s₂).of_eq_ok hdraws
    obtain rfl := List.eq_of_mem_replicate hq
    exact q.yields_drawConstant.mono fun c hc => ⟨rfl, hc⟩
  refine ⟨rfl, ?_, fun c hc => ?_⟩
  · have hlength := hconstants.length_eq
    rw [List.length_replicate] at hlength
    simp [ofConstants, ← hlength, Problem.terminalCount]
  · rw [constants_ofConstants, List.mem_toArray] at hc
    obtain ⟨i, hi, rfl⟩ := List.mem_iff_getElem.mp hc
    exact (hconstants.get (hconstants.length_eq ▸ hi) hi).2

end Bindings

end SymbolicRegression
