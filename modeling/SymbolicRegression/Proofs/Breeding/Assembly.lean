import SymbolicRegression.Proofs.Breeding.Crossover
import SymbolicRegression.Proofs.Breeding.Mutation
import SymbolicRegression.Proofs.Program.Recognition
import SymbolicRegression.Random.Cycle

set_option autoImplicit false
set_option relaxedAutoImplicit false

/-!
# Programs put together without a check

Splicing and mutation look at the program that they have put together, and a generator looks at the
number of its terminals. Here the operations are followed without these checks, in chains of any
length and on any random words. They put together formulas as long as every terminal has an opcode
of its own and the places of every splice are those of subtrees; if either is given up, they do not.

## Main definitions

* `SymbolicRegression.Sites.Found` — the places of subtrees, as the search finds them.
* `SymbolicRegression.cross` — crossover without the check of its child.
* `SymbolicRegression.Assembled` — the programs that chains of operations put together.

## Main results

* `SymbolicRegression.Assembled.isComplete` — when the programs put together are formulas.
* `SymbolicRegression.assembled_incomplete` — what the operations do otherwise.
-/

namespace SymbolicRegression

/-- A sequence that is admitted is a formula. -/
theorem Program.isComplete_of_ofOpcodes {code : List Opcode} {p : Program}
    (h : ofOpcodes code = .ok p) : p.IsComplete := by
  cases ofOpcodes_eq_iff.mp h with
  | admitted htree => exact subtreeEnd_zero_eq_some_iff.mpr htree

/-- The places start at opcodes of the parents and stop where the search for the end of the subtree
does, or at the end of the parent if there is no subtree. -/
structure Sites.Found (parent₁ parent₂ : Program) (sites : Sites) : Prop where
  /-- The first stretch starts at an opcode. -/
  start₁ : sites.start1 < parent₁.length
  /-- It stops where the search does. -/
  stop₁ : sites.stop1 = parent₁.extent sites.start1
  /-- The second stretch starts at an opcode. -/
  start₂ : sites.start2 < parent₂.length
  /-- It stops where the search does. -/
  stop₂ : sites.stop2 = parent₂.extent sites.start2

/-- In two formulas, the places found cut out subtrees. -/
theorem Sites.Found.exists_cut {t₁ t₂ : Tree} {sites : Sites}
    (h : sites.Found ⟨t₁.encode⟩ ⟨t₂.encode⟩) : ∃ s₁ s₂, sites.Cut t₁ t₂ s₁ s₂ := by
  obtain ⟨s₁, hs₁⟩ := Program.exists_subtree? h.start₁
  obtain ⟨s₂, hs₂⟩ := Program.exists_subtree? h.start₂
  exact ⟨s₁, s₂, hs₁, h.stop₁.trans (Program.extent_encode hs₁), hs₂,
    h.stop₂.trans (Program.extent_encode hs₂)⟩

/-- Two formulas joined at places that are found make a formula. -/
theorem Sites.Found.isComplete_graft {parent₁ parent₂ child : Program} {sites : Sites}
    (h : sites.Found parent₁ parent₂) (h₁ : parent₁.IsComplete) (h₂ : parent₂.IsComplete)
    (hchild : graft parent₁ parent₂ sites = .ok child) : child.IsComplete := by
  obtain ⟨t₁, rfl⟩ := h₁.exists_eq_encode
  obtain ⟨t₂, rfl⟩ := h₂.exists_eq_encode
  obtain ⟨s₁, s₂, hcut⟩ := h.exists_cut
  rw [hcut.graft_eq] at hchild
  obtain rfl := Except.ok.inj hchild
  exact Tree.isComplete_encode _

variable {σ : Type} [WordSource σ]

/-! ## Growth over any number of terminals -/

namespace Growing

/-- Nothing comes of a leaf without terminals. -/
theorem gives_growLeaf_zero (slot : Nat) (b : Buffer) :
    Draw.Gives ((growLeaf 0 slot : Growing σ (Option Nat)).run b) fun _ => False := by
  simp only [growLeaf, randomTerminal, StateT.run_bind, run_place, bind_assoc]
  exact (Draw.gives_below 0).bind fun k hk => absurd hk (Nat.not_lt_zero k)

/-- An operator does not end if its operands do not. -/
theorem gives_growNode_none {operand : Nat → Growing σ (Option Nat)}
    (hoperand : ∀ slot b, Draw.Gives ((operand slot).run b) (·.1 = none)) (slot : Nat)
    (b : Buffer) : Draw.Gives ((growNode operand slot).run b) (·.1 = none) := by
  simp only [growNode, StateT.run_bind, run_place, bind_assoc, pure_bind]
  refine (Draw.Gives.of_yields yields_randomOperator).bind fun op _ => ?_
  refine (hoperand (slot + 1) _).bind ?_
  rintro ⟨right, b₁⟩ hright
  obtain rfl : right = none := hright
  exact .pure rfl

/-- Without terminals no operand ends. -/
theorem gives_growOperand_zero (depth slot : Nat) (b : Buffer) :
    Draw.Gives ((growOperand 0 depth slot : Growing σ (Option Nat)).run b) (·.1 = none) := by
  induction depth generalizing slot b with
  | zero =>
    simp only [growOperand, StateT.run_bind, StateT.run_get, pure_bind]
    split
    · exact (gives_growLeaf_zero slot b).mono fun _ h => h.elim
    · exact .pure rfl
  | succ depth ih =>
    simp only [growOperand, StateT.run_bind, StateT.run_get, pure_bind]
    split
    · simp only [StateT.run_bind, StateT.run_monadLift, bind_assoc, pure_bind]
      refine (Draw.Gives.of_yields (Draw.yields_coin (by decide +kernel))).bind fun heads _ => ?_
      split
      · exact gives_growNode_none ih slot b
      · exact (gives_growLeaf_zero slot b).mono fun _ h => h.elim
    · exact .pure rfl

/-- Without terminals no program fits. -/
theorem gives_growUntilFit_zero (depth attempts : Nat) (b : Buffer) :
    Draw.Gives ((growUntilFit 0 depth attempts : Growing σ Program).run b) fun _ => False := by
  have hgrow (b : Buffer) :
      Draw.Gives ((grow 0 depth 0 : Growing σ (Option Nat)).run b) (·.1 = none) := by
    simp only [grow, if_true, StateT.run_bind, StateT.run_get, pure_bind]
    split
    · exact gives_growNode_none (gives_growOperand_zero _) 0 b
    · exact .pure rfl
  induction attempts generalizing b with
  | zero =>
    intro supply r hr
    cases hr
  | succ attempts ih =>
    simp only [growUntilFit, StateT.run_bind]
    refine (hgrow b).bind ?_
    rintro ⟨stop, b₁⟩ hstop
    obtain rfl : stop = none := hstop
    exact ih b₁

end Growing

/-- **A generator for terminals that have opcodes gives formulas**, whatever stands in its
buffer. -/
theorem Generator.gives_generate {g : Generator} (hle : g.terminals ≤ 110) :
    Draw.Gives (g.generate : Draw σ (Program × Generator)) (·.1.IsComplete) := by
  rcases Nat.eq_zero_or_pos g.terminals with hzero | hpos
  · intro supply r hr
    rw [generate, hzero] at hr
    obtain ⟨⟨p, supply'⟩, hgrown, -⟩ := bind_eq_ok_iff.mp hr
    exact (Growing.gives_growUntilFit_zero _ _ _ supply _ hgrown).elim
  · exact (Draw.Gives.of_yields (yields_generate hpos hle)).mono fun r h => h.1.isComplete

/-! ## Mutation with any number of terminals -/

/-- A valid opcode becomes one of its kind, if every terminal has an opcode. -/
theorem gives_mutateOpcode {probability : Float} {terminals : Nat} (hle : terminals ≤ 110)
    {op : Opcode} (hop : (Node.ofOpcode? op).isSome) :
    Draw.Gives (mutateOpcode probability terminals op : Draw σ Opcode) (SameKind op) := by
  refine (Draw.Gives.trivially (Draw.coin probability)).bind fun heads _ => ?_
  split
  · split
    · exact (Draw.gives_below terminals).bind fun k hk => .pure (.terminal ‹_› ⟨k, by omega⟩)
    · refine (Draw.Gives.of_yields yields_randomOperator).mono ?_
      rintro _ ⟨o, rfl⟩
      exact .operator ‹_› hop o
  · exact .pure (.refl op)

/-- **Mutation of a formula gives a formula if every terminal has an opcode.** -/
theorem gives_resample {parent : Program} {probability : Float} {terminals : Nat}
    (hle : terminals ≤ 110) (h : parent.IsComplete) :
    Draw.Gives (resample parent probability terminals : Draw σ Program) Program.IsComplete := by
  have hcode : Draw.Gives (parent.code.mapM (mutateOpcode probability terminals) :
      Draw σ (List Opcode)) (List.Forall₂ SameKind parent.code) :=
    .mapM fun op hop => gives_mutateOpcode hle (h.isSome_ofOpcode? hop)
  exact hcode.bind fun code hkinds => .pure (h.of_sameKind hkinds)

/-! ## Crossover -/

/-- The first parent with a random subtree replaced by one of the second, whether or not this is a
formula, or the first parent when that is longer than `maxLength`. -/
def cross (parent₁ parent₂ : Program) (maxLength : Nat) : Draw σ Program := do
  let sites ← chooseSites parent₁ parent₂
  if maxLength < sites.childLength parent₁.length then return parent₁
  else graft parent₁ parent₂ sites

/-- The places that crossover draws are found. -/
theorem gives_chooseSites (parent₁ parent₂ : Program) :
    Draw.Gives (chooseSites parent₁ parent₂ : Draw σ Sites) (Sites.Found parent₁ parent₂) :=
  (Draw.gives_below _).bind fun _ h₁ => (Draw.gives_below _).bind fun _ h₂ =>
    .pure ⟨h₁, rfl, h₂, rfl⟩

/-- Of formulas, crossover gives the same child with a look at it and without. -/
theorem crossover_eq_cross {parent₁ parent₂ : Program} (h₁ : parent₁.IsComplete)
    (h₂ : parent₂.IsComplete) (maxLength : Nat) :
    (crossover parent₁ parent₂ maxLength : Draw σ Program) = cross parent₁ parent₂ maxLength := by
  obtain ⟨t₁, rfl⟩ := h₁.exists_eq_encode
  obtain ⟨t₂, rfl⟩ := h₂.exists_eq_encode
  refine (gives_chooseSites _ _).bind_congr fun sites hfound => ?_
  obtain ⟨s₁, s₂, hcut⟩ := hfound.exists_cut
  rw [hcut.splice_eq, hcut.graft_eq]

/-- **Crossover of formulas gives a formula**, with or without a look at it. -/
theorem gives_cross {parent₁ parent₂ : Program} {maxLength : Nat} (h₁ : parent₁.IsComplete)
    (h₂ : parent₂.IsComplete) :
    Draw.Gives (cross parent₁ parent₂ maxLength : Draw σ Program) Program.IsComplete := by
  refine (gives_chooseSites parent₁ parent₂).bind fun sites hsites => ?_
  split
  · exact .pure h₁
  · exact .lift fun child hchild => hsites.isComplete_graft h₁ h₂ hchild

/-! ## Chains of operations -/

/-- The programs that chains of operations put together without a check, when the numbers of
terminals are in `Range` and splices are made at places in `Places`. The buffer of a generator may
hold anything, so it may have been used before. -/
inductive Assembled (Range : Nat → Prop) (Places : Program → Program → Sites → Prop) :
    Program → Prop
  /-- A sequence of opcodes is admitted. -/
  | admitted {code : List Opcode} {p : Program} (h : Program.ofOpcodes code = .ok p) :
      Assembled Range Places p
  /-- A program is grown. -/
  | grown {σ : Type} [WordSource σ] {g : Generator} (hrange : Range g.terminals)
      {supply : Supply σ} {r : (Program × Generator) × Supply σ}
      (h : g.generate.run supply = .ok r) : Assembled Range Places r.1.1
  /-- Two programs are spliced. -/
  | spliced {parent₁ parent₂ child : Program} {sites : Sites}
      (h₁ : Assembled Range Places parent₁) (h₂ : Assembled Range Places parent₂)
      (hplaces : Places parent₁ parent₂ sites) (h : graft parent₁ parent₂ sites = .ok child) :
      Assembled Range Places child
  /-- Two programs are crossed. -/
  | crossed {σ : Type} [WordSource σ] {parent₁ parent₂ : Program} {maxLength : Nat}
      (h₁ : Assembled Range Places parent₁) (h₂ : Assembled Range Places parent₂)
      {supply : Supply σ} {r : Program × Supply σ}
      (h : (cross parent₁ parent₂ maxLength).run supply = .ok r) : Assembled Range Places r.1
  /-- A program is mutated. -/
  | mutated {σ : Type} [WordSource σ] {parent : Program} {probability : Float} {terminals : Nat}
      (hparent : Assembled Range Places parent) (hrange : Range terminals)
      {supply : Supply σ} {r : Program × Supply σ}
      (h : (resample parent probability terminals).run supply = .ok r) :
      Assembled Range Places r.1

/-- **Chains of operations put together formulas, as long as every terminal has an opcode and
splices are made at the places of subtrees.** The lengths, the depths, the probabilities and the
random words may be any. -/
theorem Assembled.isComplete {p : Program} (h : Assembled (· ≤ 110) Sites.Found p) :
    p.IsComplete := by
  induction h with
  | admitted h => exact Program.isComplete_of_ofOpcodes h
  | grown hrange h => exact Generator.gives_generate hrange _ _ h
  | spliced _ _ hplaces h ih₁ ih₂ => exact hplaces.isComplete_graft ih₁ ih₂ h
  | crossed _ _ h ih₁ ih₂ => exact gives_cross ih₁ ih₂ _ _ h
  | mutated _ hrange h ih => exact gives_resample hrange ih _ _ h

/-- The second operand of a sum gives way to a product. -/
theorem assembled_isComplete_sample :
    Assembled (· ≤ 110) Sites.Found ⟨[110, 0, 112, 2, 0]⟩ ∧
      (Program.mk [110, 0, 112, 2, 0]).IsComplete := by
  have hsum : Program.ofOpcodes [110, 0, 1] = .ok ⟨[110, 0, 1]⟩ := rfl
  have hdifference : Program.ofOpcodes [111, 112, 2, 0, 1] = .ok ⟨[111, 112, 2, 0, 1]⟩ := rfl
  have hfound : Sites.Found ⟨[110, 0, 1]⟩ ⟨[111, 112, 2, 0, 1]⟩ ⟨2, 3, 1, 4⟩ :=
    ⟨by decide, by decide, by decide, by decide⟩
  have h : Assembled (· ≤ 110) Sites.Found ⟨[110, 0, 112, 2, 0]⟩ :=
    .spliced (.admitted hsum) (.admitted hdifference) hfound rfl
  exact ⟨h, h.isComplete⟩

/-- **Both conditions are needed.** At places that are not those of subtrees, two terminals are
spliced to an empty sequence; and a terminal without an opcode of its own, drawn in the place of
another one, becomes an operator without operands. -/
theorem assembled_incomplete :
    (¬ ∀ p, Assembled (fun _ => True) (fun _ _ _ => True) p → p.IsComplete) ∧
      (∃ p, Assembled (· ≤ 110) (fun _ _ _ => True) p ∧ ¬ p.IsComplete) ∧
      ∃ p, Assembled (fun _ => True) Sites.Found p ∧ ¬ p.IsComplete := by
  have hleaf : Program.ofOpcodes [0] = .ok ⟨[0]⟩ := rfl
  have hgraft : graft ⟨[0]⟩ ⟨[0]⟩ ⟨0, 1, 0, 0⟩ = .ok ⟨[]⟩ := rfl
  have hspliced (Range : Nat → Prop) : Assembled Range (fun _ _ _ => True) ⟨[]⟩ :=
    .spliced (.admitted hleaf) (.admitted hleaf) trivial hgraft
  have hdrawn : (resample ⟨[0]⟩ 1.0 111).run ⟨Cycle.ofList [0xfed8caf477ed8caf], 1⟩ =
      .ok (⟨[110]⟩, ⟨⟨#[0xfed8caf477ed8caf], 1⟩, 0⟩) := by rfl
  have hmutated : Assembled (fun _ => True) Sites.Found ⟨[110]⟩ :=
    .mutated (.admitted hleaf) trivial hdrawn
  exact ⟨fun h => absurd (h _ (hspliced _)) (by decide), ⟨_, hspliced _, by decide⟩,
    _, hmutated, by decide⟩

end SymbolicRegression
