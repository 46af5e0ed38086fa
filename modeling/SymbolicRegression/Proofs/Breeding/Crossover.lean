import Mathlib.Tactic.Common
import SymbolicRegression.Breeding.Crossover
import SymbolicRegression.Proofs.Program.Shape
import SymbolicRegression.Proofs.Random.Draws
import SymbolicRegression.Random.Cycle

set_option autoImplicit false
set_option relaxedAutoImplicit false

/-!
# Crossover makes trees

The places that crossover draws in two complete programs are the roots of subtrees, so the child
is the first tree with one of its subtrees replaced by a subtree of the second. In particular the
check of the spliced program never fails, and the length foretold by the places is the real one.

## Main definitions

* `SymbolicRegression.Sites.Cut` — places that cut out a subtree of either tree.

## Main results

* `SymbolicRegression.yields_chooseSites` — the places drawn cut out subtrees.
* `SymbolicRegression.Sites.Cut.splice_eq` — the child that they give.
* `SymbolicRegression.yields_crossover` — crossover keeps the limits of its parents.
* `SymbolicRegression.crossover_caps` — which child crossover gives under a cap.
-/

namespace SymbolicRegression

/-- The places cut the subtree `s₁` out of the tree `t₁` and the subtree `s₂` out of the tree
`t₂`. -/
structure Sites.Cut (t₁ t₂ s₁ s₂ : Tree) (sites : Sites) : Prop where
  /-- The first stretch starts at the root of the first subtree. -/
  subtree₁ : t₁.subtree? sites.start1 = some s₁
  /-- It stops where that subtree stops. -/
  stop₁ : sites.stop1 = sites.start1 + s₁.size
  /-- The second stretch starts at the root of the second subtree. -/
  subtree₂ : t₂.subtree? sites.start2 = some s₂
  /-- It stops where that subtree stops. -/
  stop₂ : sites.stop2 = sites.start2 + s₂.size

/-- Every opcode of an encoding is the root of a subtree. -/
theorem Program.exists_subtree? {t : Tree} {start : Nat}
    (h : start < (Program.mk t.encode).length) : ∃ s, t.subtree? start = some s := by
  rw [length, Tree.length_encode] at h
  exact Tree.exists_subtree? h

/-- At the root of a subtree, the extent is the end of the subtree. -/
theorem Program.extent_encode {t s : Tree} {i : Nat} (h : t.subtree? i = some s) :
    (Program.mk t.encode).extent i = i + s.size := by
  rw [extent, Tree.subtreeEnd_encode h, Option.getD_some]

namespace Sites.Cut

variable {t₁ t₂ s₁ s₂ : Tree} {sites : Sites} (h : sites.Cut t₁ t₂ s₁ s₂)
include h

/-- The second stretch is the encoding of the second subtree. -/
theorem donated_eq : (t₂.encode.take sites.stop2).drop sites.start2 = s₂.encode := by
  rw [h.stop₂, Tree.drop_take_encode h.subtree₂]

/-- Joining the three parts gives the first tree with the second subtree in place of the first. -/
theorem graft_eq : graft ⟨t₁.encode⟩ ⟨t₂.encode⟩ sites =
    .ok ⟨(t₁.replace sites.start1 s₂).encode⟩ := by
  have hle₁ := Tree.add_size_le h.subtree₁
  have hle₂ := Tree.add_size_le h.subtree₂
  have hstop₁ := h.stop₁
  have hstop₂ := h.stop₂
  rw [graft, if_pos, h.donated_eq, h.stop₁, ← Tree.encode_replace h.subtree₁]
  simp only [Program.length, Tree.length_encode]
  omega

/-- **The child that the places give**: neither the order of the places nor the completeness of
the child is ever at fault. -/
theorem splice_eq : splice ⟨t₁.encode⟩ ⟨t₂.encode⟩ sites =
    .ok ⟨(t₁.replace sites.start1 s₂).encode⟩ := by
  have hstop₁ := h.stop₁
  have horder : ¬ sites.stop1 < sites.start1 := by omega
  have hcomplete := (t₁.replace sites.start1 s₂).isComplete_encode
  simp only [splice, horder, if_false, h.graft_eq]
  exact if_pos hcomplete

/-- The length that the places foretell is the length of the child. -/
theorem childLength_eq :
    sites.childLength t₁.encode.length = (t₁.replace sites.start1 s₂).encode.length := by
  have hle := Tree.add_size_le h.subtree₁
  have hstop₁ := h.stop₁
  have hstop₂ := h.stop₂
  rw [Tree.encode_replace h.subtree₁]
  simp only [childLength, List.length_append, List.length_take, List.length_drop,
    Tree.length_encode]
  omega

/-- The child has no other opcodes than its parents. -/
theorem mem_of_mem_child {op : Opcode} (hop : op ∈ (t₁.replace sites.start1 s₂).encode) :
    op ∈ t₁.encode ∨ op ∈ t₂.encode := by
  rw [Tree.encode_replace h.subtree₁, List.append_assoc, List.mem_append, List.mem_append] at hop
  rcases hop with hop | hop | hop
  · exact .inl (List.mem_of_mem_take hop)
  · rw [← h.donated_eq] at hop
    exact .inr (List.mem_of_mem_take (List.mem_of_mem_drop hop))
  · exact .inl (List.mem_of_mem_drop hop)

/-- Once the places are drawn, nothing is left to chance: a child that is too long gives way to the
first parent, and the check of any other never fails. -/
theorem capped_eq {σ : Type} (maxLength : Nat) :
    (if maxLength < sites.childLength (Program.mk t₁.encode).length then return ⟨t₁.encode⟩
      else splice ⟨t₁.encode⟩ ⟨t₂.encode⟩ sites : Draw σ Program) =
    pure (if maxLength < (t₁.replace sites.start1 s₂).encode.length then ⟨t₁.encode⟩
      else ⟨(t₁.replace sites.start1 s₂).encode⟩) := by
  rw [Program.length, h.childLength_eq, h.splice_eq]
  split
  · rfl
  · rfl

end Sites.Cut

variable {σ : Type} [WordSource σ]

/-- **The places drawn cut out subtrees.**

**Proof sketch.** An index drawn below the length of an encoding is the position of some node, and
the search for the end of the subtree there succeeds. -/
theorem yields_chooseSites (t₁ t₂ : Tree) :
    Draw.Yields (chooseSites ⟨t₁.encode⟩ ⟨t₂.encode⟩ : Draw σ Sites) fun sites =>
      ∃ s₁ s₂, sites.Cut t₁ t₂ s₁ s₂ := by
  have hpos : ∀ t : Tree, 0 < (Program.mk t.encode).length := fun t => by
    rw [Program.length, Tree.length_encode]
    exact t.size_pos
  refine (Draw.yields_below (hpos t₁)).bind ?_
  intro i hi
  refine (Draw.yields_below (hpos t₂)).bind fun j hj => .pure ?_
  obtain ⟨s₁, hs₁⟩ := Program.exists_subtree? hi
  obtain ⟨s₂, hs₂⟩ := Program.exists_subtree? hj
  exact ⟨s₁, s₂, hs₁, Program.extent_encode hs₁, hs₂, Program.extent_encode hs₂⟩

/-- **Crossover keeps the limits of its parents**, and the check of its child never fails. -/
theorem yields_crossover {maxLength terminals : Nat} {parent₁ parent₂ : Program}
    (h₁ : parent₁.Fits maxLength terminals) (h₂ : parent₂.Fits maxLength terminals) :
    Draw.Yields (crossover parent₁ parent₂ maxLength : Draw σ Program)
      (Program.Fits maxLength terminals) := by
  obtain ⟨t₁, rfl⟩ := h₁.isComplete.exists_eq_encode
  obtain ⟨t₂, rfl⟩ := h₂.isComplete.exists_eq_encode
  refine (yields_chooseSites t₁ t₂).bind ?_
  rintro sites ⟨s₁, s₂, hcut⟩
  rw [hcut.capped_eq]
  refine .pure ?_
  split
  · exact h₁
  · rename_i hshort
    refine ⟨Tree.isComplete_encode _, Nat.le_of_not_lt hshort, fun op hop hlt => ?_⟩
    rcases hcut.mem_of_mem_child hop with hop | hop
    · exact h₁.slotsBelow op hop hlt
    · exact h₂.slotsBelow op hop hlt

/-! ## The cap -/

/-- **Crossover under a cap.** From every supply, either the words run out while the places are
drawn, whatever the cap, or places are drawn that give a child of the length foretold. Then, for
every cap, the crossover leaves the same words and gives the first parent if the child is longer
than the cap, and the child if not. Its answer is complete and no longer than the cap or the first
parent, and it has no other opcodes than the parents. -/
theorem crossover_caps {p₁ p₂ : Program} (h₁ : p₁.IsComplete) (h₂ : p₂.IsComplete)
    (supply : Supply σ) :
    ((chooseSites p₁ p₂).run supply = .error .supplyExhausted ∧
      ∀ maxLength, (crossover p₁ p₂ maxLength).run supply = .error .supplyExhausted) ∨
    ∃ sites supply' child, (chooseSites p₁ p₂).run supply = .ok (sites, supply') ∧
      splice p₁ p₂ sites = .ok child ∧ sites.childLength p₁.length = child.length ∧
      ∀ maxLength, ∃ result, (crossover p₁ p₂ maxLength).run supply = .ok (result, supply') ∧
        (maxLength < child.length → result = p₁) ∧ (child.length ≤ maxLength → result = child) ∧
        result.IsComplete ∧ result.length ≤ max maxLength p₁.length ∧
        ∀ op ∈ result.code, op ∈ p₁.code ∨ op ∈ p₂.code := by
  obtain ⟨t₁, rfl⟩ := h₁.exists_eq_encode
  obtain ⟨t₂, rfl⟩ := h₂.exists_eq_encode
  have hyields := yields_chooseSites t₁ t₂ supply
  cases hsites : (chooseSites ⟨t₁.encode⟩ ⟨t₂.encode⟩).run supply with
  | error fault =>
    obtain rfl := hyields.of_eq_error hsites
    refine .inl ⟨rfl, fun maxLength => ?_⟩
    rw [crossover, StateT.run_bind, hsites]
    rfl
  | ok r =>
    obtain ⟨sites, supply'⟩ := r
    obtain ⟨s₁, s₂, hcut⟩ := hyields.of_eq_ok hsites
    refine .inr ⟨sites, supply', ⟨(t₁.replace sites.start1 s₂).encode⟩, rfl, hcut.splice_eq,
      hcut.childLength_eq, fun maxLength => ?_⟩
    have hrun : (crossover ⟨t₁.encode⟩ ⟨t₂.encode⟩ maxLength).run supply =
        .ok (if maxLength < (t₁.replace sites.start1 s₂).encode.length then ⟨t₁.encode⟩
          else ⟨(t₁.replace sites.start1 s₂).encode⟩, supply') := by
      rw [crossover, StateT.run_bind, hsites]
      exact congrArg (StateT.run · supply') (hcut.capped_eq maxLength)
    refine ⟨_, hrun, fun hlong => if_pos hlong, fun hshort => if_neg (Nat.not_lt.mpr hshort), ?_⟩
    split
    · exact ⟨h₁, Nat.le_max_right _ _, fun op hop => .inl hop⟩
    · rename_i hshort
      exact ⟨Tree.isComplete_encode _, Nat.le_trans (Nat.le_of_not_lt hshort) (Nat.le_max_left _ _),
        fun op hop => hcut.mem_of_mem_child hop⟩

/-- A child of five opcodes passes a cap of five, and under a cap of four the first parent stands in
for it. The same two words are taken. -/
theorem crossover_caps_sample :
    let p₁ : Program := ⟨[110, 0, 1]⟩
    let p₂ : Program := ⟨[113, 1, 0]⟩
    let words : Supply Cycle := ⟨.ofList [0xb000000000000000, 0], 2⟩
    let rest : Supply Cycle := ⟨⟨#[0xb000000000000000, 0], 2⟩, 0⟩
    p₁.IsComplete ∧ p₂.IsComplete ∧ (chooseSites p₁ p₂).run words = .ok (⟨2, 3, 0, 3⟩, rest) ∧
      (crossover p₁ p₂ 5).run words = .ok (⟨[110, 0, 113, 1, 0]⟩, rest) ∧
      (crossover p₁ p₂ 4).run words = .ok (p₁, rest) := by
  have hchosen : (chooseSites ⟨[110, 0, 1]⟩ ⟨[113, 1, 0]⟩).run
      (⟨.ofList [0xb000000000000000, 0], 2⟩ : Supply Cycle) =
        .ok (⟨2, 3, 0, 3⟩, ⟨⟨#[0xb000000000000000, 0], 2⟩, 0⟩) := by rfl
  have hspliced : splice ⟨[110, 0, 1]⟩ ⟨[113, 1, 0]⟩ ⟨2, 3, 0, 3⟩ =
      .ok ⟨[110, 0, 113, 1, 0]⟩ := by rfl
  intro p₁ p₂ words rest
  have h₁ : p₁.IsComplete := by decide
  have h₂ : p₂.IsComplete := by decide
  obtain ⟨hout, -⟩ | ⟨sites, supply', child, hsites, hsplice, -, hcapped⟩ :=
    crossover_caps h₁ h₂ words
  · cases hchosen.symm.trans hout
  · obtain ⟨rfl, rfl⟩ := Prod.mk.inj (Except.ok.inj (hchosen.symm.trans hsites))
    obtain rfl := Except.ok.inj (hspliced.symm.trans hsplice)
    obtain ⟨result, hrun, -, hshort, -⟩ := hcapped 5
    obtain ⟨result', hrun', hlong, -⟩ := hcapped 4
    obtain rfl := hshort (by decide)
    obtain rfl := hlong (by decide)
    exact ⟨h₁, h₂, hchosen, hrun, hrun'⟩

end SymbolicRegression
