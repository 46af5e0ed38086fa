import Mathlib.Tactic.Common
import SymbolicRegression.Proofs.Breeding.Crossover

set_option autoImplicit false
set_option relaxedAutoImplicit false

/-!
# Splicing substitutes a subtree

A splice joins three stretches of two sequences of opcodes. If the stretches start inside complete
programs and stop where the search for the end of a subtree stops, this is an operation on trees:
the subtree of the first parent that is rooted at the first place is replaced by the subtree of the
second parent that is rooted at the second place, and all other nodes stay. Putting the old subtree
back undoes the splice.

## Main definitions

* `SymbolicRegression.Sites.undo` — the places that put the old subtree back.

## Main results

* `SymbolicRegression.Sites.exists_cut` — places found by the search cut out subtrees.
* `SymbolicRegression.Sites.Cut.undo` — the places of the old subtree in the child and in the
  first parent.
* `SymbolicRegression.Sites.splice_substitutes` — splicing substitutes a subtree.
-/

namespace SymbolicRegression

namespace Sites

variable {t₁ t₂ s₁ s₂ : Tree} {sites : Sites}

/-- The places that put the old subtree back: in the child, the stretch that has come from the
second parent; and in the first parent, the stretch that has gone. -/
def undo (sites : Sites) : Sites where
  start1 := sites.start1
  stop1 := sites.start1 + (sites.stop2 - sites.start2)
  start2 := sites.start1
  stop2 := sites.stop1

/-- **Places found by the search cut out subtrees**, one of either parent. -/
theorem exists_cut {p₁ p₂ : Program} (h₁ : p₁.IsComplete) (h₂ : p₂.IsComplete)
    (hstart₁ : sites.start1 < p₁.length) (hstart₂ : sites.start2 < p₂.length)
    (hstop₁ : sites.stop1 = p₁.extent sites.start1)
    (hstop₂ : sites.stop2 = p₂.extent sites.start2) :
    ∃ t₁ t₂ s₁ s₂, p₁ = ⟨t₁.encode⟩ ∧ p₂ = ⟨t₂.encode⟩ ∧ sites.Cut t₁ t₂ s₁ s₂ := by
  obtain ⟨t₁, rfl⟩ := h₁.exists_eq_encode
  obtain ⟨t₂, rfl⟩ := h₂.exists_eq_encode
  obtain ⟨s₁, hs₁⟩ := Program.exists_subtree? hstart₁
  obtain ⟨s₂, hs₂⟩ := Program.exists_subtree? hstart₂
  exact ⟨t₁, t₂, s₁, s₂, rfl, rfl, hs₁, hstop₁.trans (Program.extent_encode hs₁),
    hs₂, hstop₂.trans (Program.extent_encode hs₂)⟩

namespace Cut

variable (h : sites.Cut t₁ t₂ s₁ s₂)
include h

/-- The stretch that comes is as long as the second subtree. -/
theorem stop₂_sub : sites.stop2 - sites.start2 = s₂.size := by
  have hstop₂ := h.stop₂
  omega

/-- The nodes before the first place stay where they are. -/
theorem getElem?_child_of_lt {k : Nat} (hk : k < sites.start1) :
    (t₁.replace sites.start1 s₂).encode[k]? = t₁.encode[k]? := by
  have hlt := Tree.lt_size h.subtree₁
  rw [Tree.encode_replace h.subtree₁, List.append_assoc, List.getElem?_append_left,
    List.getElem?_take_of_lt hk]
  rw [List.length_take, Tree.length_encode]
  omega

/-- The nodes behind the old subtree follow the new one. -/
theorem getElem?_child_add (k : Nat) :
    (t₁.replace sites.start1 s₂).encode[sites.start1 + s₂.size + k]? =
      t₁.encode[sites.stop1 + k]? := by
  have hlt := Tree.lt_size h.subtree₁
  have hlength : (t₁.encode.take sites.start1 ++ s₂.encode).length = sites.start1 + s₂.size := by
    rw [List.length_append, List.length_take, Tree.length_encode, Tree.length_encode]
    omega
  rw [Tree.encode_replace h.subtree₁, List.getElem?_append_right (by omega), hlength,
    List.getElem?_drop, h.stop₁]
  congr 1
  omega

/-- **The places of the old subtree**: in the child they cut out the new subtree, and in the first
parent the old one. -/
theorem undo : sites.undo.Cut (t₁.replace sites.start1 s₂) t₁ s₂ s₁ where
  subtree₁ := Tree.subtree?_replace h.subtree₁ s₂
  stop₁ := congrArg (sites.start1 + ·) h.stop₂_sub
  subtree₂ := h.subtree₁
  stop₂ := h.stop₁

/-- Splicing the old subtree into the child gives the first parent again. -/
theorem splice_undo : splice ⟨(t₁.replace sites.start1 s₂).encode⟩ ⟨t₁.encode⟩ sites.undo =
    .ok ⟨t₁.encode⟩ := by
  have hback : (t₁.replace sites.start1 s₂).replace sites.undo.start1 s₁ = t₁ :=
    (Tree.replace_replace h.subtree₁ s₂ s₁).trans (Tree.replace_self h.subtree₁)
  rw [h.undo.splice_eq, hback]

end Cut

/-- **Splicing substitutes a subtree.** Let both places start inside complete programs and stop at
the extents found there. Then the search has found both extents, so that no stretch is cut off at
the end of its program instead; no subtraction in the length foretold for the child goes below
zero; and the splice gives a complete program of this length. Its tree is the tree of the first
parent with the subtree rooted at the first place replaced by the subtree of the second parent
rooted at the second place: the nodes before the first place and those behind the old subtree are
the same, and the search at the first place stops where the new subtree does. Splicing the old
subtree over this extent gives the first parent again. -/
theorem splice_substitutes {p₁ p₂ : Program} (h₁ : p₁.IsComplete) (h₂ : p₂.IsComplete)
    (hstart₁ : sites.start1 < p₁.length) (hstart₂ : sites.start2 < p₂.length)
    (hstop₁ : sites.stop1 = p₁.extent sites.start1)
    (hstop₂ : sites.stop2 = p₂.extent sites.start2) :
    subtreeEnd p₁.code sites.start1 = some sites.stop1 ∧
      subtreeEnd p₂.code sites.start2 = some sites.stop2 ∧
      (sites.start1 ≤ sites.stop1 ∧ sites.start2 ≤ sites.stop2 ∧
        sites.stop1 - sites.start1 ≤ p₁.length) ∧
      ∃ child : Program, splice p₁ p₂ sites = .ok child ∧ child.IsComplete ∧
        child.length = sites.childLength p₁.length ∧
        (∃ t₁ t₂ s₁ s₂ : Tree, p₁.code = t₁.encode ∧ p₂.code = t₂.encode ∧
          t₁.subtree? sites.start1 = some s₁ ∧ t₂.subtree? sites.start2 = some s₂ ∧
          child.code = (t₁.replace sites.start1 s₂).encode) ∧
        (∀ k, k < sites.start1 → child.code[k]? = p₁.code[k]?) ∧
        (∀ k, child.code[sites.start1 + (sites.stop2 - sites.start2) + k]? =
          p₁.code[sites.stop1 + k]?) ∧
        subtreeEnd child.code sites.start1 =
          some (sites.start1 + (sites.stop2 - sites.start2)) ∧
        splice child p₁ ⟨sites.start1, sites.start1 + (sites.stop2 - sites.start2),
          sites.start1, sites.stop1⟩ = .ok p₁ := by
  obtain ⟨t₁, t₂, s₁, s₂, rfl, rfl, hcut⟩ := exists_cut h₁ h₂ hstart₁ hstart₂ hstop₁ hstop₂
  have hfound₁ := Tree.subtreeEnd_encode hcut.subtree₁
  have hfound₂ := Tree.subtreeEnd_encode hcut.subtree₂
  have hle₁ := Tree.add_size_le hcut.subtree₁
  rw [← hcut.stop₁] at hfound₁ hle₁
  rw [← hcut.stop₂] at hfound₂
  have hroot := Tree.subtreeEnd_encode hcut.undo.subtree₁
  refine ⟨hfound₁, hfound₂, ⟨?_, ?_, ?_⟩, _, hcut.splice_eq, Tree.isComplete_encode _,
    hcut.childLength_eq.symm, ⟨t₁, t₂, s₁, s₂, rfl, rfl, hcut.subtree₁, hcut.subtree₂, rfl⟩,
    fun k hk => hcut.getElem?_child_of_lt hk, fun k => ?_, ?_, hcut.splice_undo⟩
  · rw [hcut.stop₁]
    exact Nat.le_add_right _ _
  · rw [hcut.stop₂]
    exact Nat.le_add_right _ _
  · rw [Program.length, Tree.length_encode]
    omega
  · rw [hcut.stop₂_sub]
    exact hcut.getElem?_child_add k
  · rw [hcut.stop₂_sub]
    exact hroot

/-- The second operand of a sum is replaced by a product from inside a difference. -/
theorem splice_substitutes_sample :
    let p₁ : Program := ⟨[110, 0, 1]⟩
    let p₂ : Program := ⟨[111, 112, 2, 0, 1]⟩
    let sites : Sites := ⟨2, 3, 1, 4⟩
    p₁.IsComplete ∧ p₂.IsComplete ∧ sites.start1 < p₁.length ∧ sites.start2 < p₂.length ∧
      sites.stop1 = p₁.extent sites.start1 ∧ sites.stop2 = p₂.extent sites.start2 ∧
      ∃ child : Program, splice p₁ p₂ sites = .ok child ∧ child.code = [110, 0, 112, 2, 0] ∧
        child.length = sites.childLength p₁.length ∧
        splice child p₁ ⟨2, 5, 2, 3⟩ = .ok p₁ := by
  intro p₁ p₂ sites
  have h₁ : p₁.IsComplete := by decide
  have h₂ : p₂.IsComplete := by decide
  have hstart₁ : sites.start1 < p₁.length := by decide
  have hstart₂ : sites.start2 < p₂.length := by decide
  have hstop₁ : sites.stop1 = p₁.extent sites.start1 := by decide
  have hstop₂ : sites.stop2 = p₂.extent sites.start2 := by decide
  obtain ⟨-, -, -, child, hsplice, -, hlength, -, -, -, -, hback⟩ :=
    splice_substitutes h₁ h₂ hstart₁ hstart₂ hstop₁ hstop₂
  have hcode : child.code = [110, 0, 112, 2, 0] := by
    have hchild : splice p₁ p₂ sites = .ok ⟨[110, 0, 112, 2, 0]⟩ := by rfl
    rw [hsplice] at hchild
    rw [Except.ok.inj hchild]
  exact ⟨h₁, h₂, hstart₁, hstart₂, hstop₁, hstop₂, child, hsplice, hcode, hlength, hback⟩

end Sites

end SymbolicRegression
