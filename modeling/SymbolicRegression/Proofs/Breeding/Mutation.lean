import Mathlib.Data.List.Forall2
import SymbolicRegression.Breeding.Mutation
import SymbolicRegression.Proofs.Breeding.Growth
import SymbolicRegression.Proofs.Float.Order
import SymbolicRegression.Random.Cycle

set_option autoImplicit false
set_option relaxedAutoImplicit false

/-!
# Mutation keeps the shape

Mutation replaces terminals by terminals and operators by operators. The search for the end of a
subtree depends on these kinds alone, so parent and child have the same subtrees at the same
places, and the check of the mutated program never fails. With probability zero nothing is replaced,
whichever of the two zeros it is.

## Main definitions

* `SymbolicRegression.SameKind` — two opcodes are both terminals or both operators.
* `SymbolicRegression.Mutated` — what may become of an opcode.

## Main results

* `SymbolicRegression.forestEnd_congr` — the search depends on the kinds of the opcodes alone.
* `SymbolicRegression.yields_mutate` — mutation keeps the limits of its parent.
* `SymbolicRegression.yields_mutate_sameShape` — mutation keeps the shape of its parent.
-/

namespace SymbolicRegression

/-! ## Kinds of opcodes -/

/-- Both opcodes stand for terminals, or both stand for operators, or both are invalid. -/
def SameKind (op op' : Opcode) : Prop :=
  match Node.ofOpcode? op, Node.ofOpcode? op' with
  | some (.terminal _), some (.terminal _) => True
  | some (.operator _), some (.operator _) => True
  | none, none => True
  | _, _ => False

/-- An opcode is of its own kind. -/
theorem SameKind.refl (op : Opcode) : SameKind op op := by
  unfold SameKind
  rcases Node.ofOpcode? op with _ | _ | _ <;> trivial

/-- All terminals are of one kind. -/
theorem SameKind.terminal {op : Opcode} (hop : op < Operator.firstOpcode) (slot : Fin 110) :
    SameKind op (UInt8.ofNat slot) := by
  have hkind : Node.ofOpcode? op = some (.terminal op.toNat) :=
    Node.ofOpcode?_eq_terminal_iff.mpr ⟨hop, rfl⟩
  simp [SameKind, hkind]

/-- All operators are of one kind. -/
theorem SameKind.operator {op : Opcode} (hop : ¬ op < Operator.firstOpcode)
    (hvalid : (Node.ofOpcode? op).isSome) (o : Operator) : SameKind op o.opcode := by
  obtain ⟨node, hnode⟩ := Option.isSome_iff_exists.mp hvalid
  cases node with
  | terminal slot => exact absurd (Node.ofOpcode?_eq_terminal_iff.mp hnode).1 hop
  | operator o' => simp [SameKind, hnode]

/-- Of two opcodes of one kind, both stand for terminals or neither does. -/
theorem SameKind.lt_firstOpcode_iff {op op' : Opcode} (h : SameKind op op') :
    op' < Operator.firstOpcode ↔ op < Operator.firstOpcode := by
  have hterminal : ∀ op : Opcode, op < Operator.firstOpcode ↔
      ∃ slot, Node.ofOpcode? op = some (.terminal slot) := fun op =>
    ⟨fun hlt => ⟨_, Node.ofOpcode?_eq_terminal_iff.mpr ⟨hlt, rfl⟩⟩,
      fun ⟨_, hslot⟩ => (Node.ofOpcode?_eq_terminal_iff.mp hslot).1⟩
  rw [hterminal, hterminal]
  unfold SameKind at h
  generalize Node.ofOpcode? op = node, Node.ofOpcode? op' = node' at h ⊢
  rcases node with _ | _ | _ <;> rcases node' with _ | _ | _ <;> simp at h ⊢

/-- **The search for the end of a subtree depends on the kinds of the opcodes alone.**

**Proof sketch.** Induction along the two sequences: opcodes of one kind change the number of
awaited subtrees alike. -/
theorem forestEnd_congr {code code' : List Opcode} (h : List.Forall₂ SameKind code code')
    (awaited offset : Nat) : forestEnd code awaited offset = forestEnd code' awaited offset := by
  induction h generalizing awaited offset with
  | nil => rfl
  | @cons op op' code code' hop _ ih =>
    cases awaited with
    | zero => simp
    | succ awaited =>
      unfold SameKind at hop
      simp only [forestEnd]
      generalize Node.ofOpcode? op = node, Node.ofOpcode? op' = node' at hop ⊢
      rcases node with _ | _ | _ <;> rcases node' with _ | _ | _
      all_goals first | exact hop.elim | simp only [ih]

/-- Sequences of the same kinds have the same subtrees at the same places. -/
theorem subtreeEnd_congr {code code' : List Opcode} (h : List.Forall₂ SameKind code code')
    (start : Nat) : subtreeEnd code start = subtreeEnd code' start :=
  forestEnd_congr (List.forall₂_drop start h) 1 start

/-- A sequence of the same kinds as a formula is a formula. -/
theorem Program.IsComplete.of_sameKind {p : Program} (hp : p.IsComplete) {code : List Opcode}
    (h : List.Forall₂ SameKind p.code code) : (Program.mk code).IsComplete := by
  rw [Program.IsComplete, ← subtreeEnd_congr h, ← h.length_eq]
  exact hp

/-! ## Mutated opcodes -/

/-- What may become of an opcode: itself, or another one of its kind, which if it is a terminal is
one of the first `terminals`. -/
def Mutated (terminals : Nat) (op op' : Opcode) : Prop :=
  op' = op ∨ SameKind op op' ∧ (op' < Operator.firstOpcode → op'.toNat < terminals)

/-- An opcode keeps its kind. -/
theorem Mutated.sameKind {terminals : Nat} {op op' : Opcode} (h : Mutated terminals op op') :
    SameKind op op' := by
  rcases h with rfl | h
  · exact .refl op'
  · exact h.1

variable {σ : Type} [WordSource σ]

/-- A coin of probability zero never shows heads.

**Proof sketch.** The words that count as heads are those below zero. -/
theorem Draw.yields_coin_ne_zero {p : Float} (hp : 0.0 ≤ p ∧ p ≤ 1.0) :
    Yields (coin p : Draw σ Bool) fun heads => heads → ¬ p == 0.0 := by
  by_cases hzero : p == 0.0
  · have hone : ¬ p == 1.0 := by
      rcases eq_zero_or_eq_neg_zero hzero with rfl | rfl <;> decide +kernel
    have hnone : headsBelow p = 0 := by
      rcases eq_zero_or_eq_neg_zero hzero with rfl | rfl <;> decide +kernel
    rw [coin, if_pos hp, if_neg hone]
    refine yields_word.bind fun w _ => .pure fun hheads => ?_
    rw [hnone] at hheads
    exact absurd (of_decide_eq_true hheads) UInt64.not_lt_zero
  · exact (yields_coin hp).mono fun _ _ _ => hzero

/-- What becomes of a valid opcode. -/
theorem yields_mutateOpcode {probability : Float} (hp : 0.0 ≤ probability ∧ probability ≤ 1.0)
    {terminals : Nat} (hpos : 0 < terminals) (hle : terminals ≤ 110) {op : Opcode}
    (hop : (Node.ofOpcode? op).isSome) :
    Draw.Yields (mutateOpcode probability terminals op : Draw σ Opcode) fun op' =>
      Mutated terminals op op' ∧ (probability == 0.0 → op = op') := by
  refine (Draw.yields_coin_ne_zero hp).bind ?_
  intro heads hheads
  split
  · have hnonzero : ¬ probability == 0.0 := hheads ‹_›
    split
    · rename_i hlt
      refine (yields_randomTerminal hpos hle).mono fun op' ⟨slot, hslot, hop'⟩ => ?_
      refine ⟨.inr ⟨hop' ▸ .terminal hlt slot, ?_⟩, fun hzero => absurd hzero hnonzero⟩
      intro _
      rw [hop', UInt8.toNat_ofNat']
      omega
    · rename_i hlt
      refine yields_randomOperator.mono fun op' ⟨o, hop'⟩ => ?_
      refine ⟨.inr ⟨hop' ▸ .operator hlt hop o, ?_⟩, fun hzero => absurd hzero hnonzero⟩
      intro hlt'
      exact absurd (hop' ▸ hlt') o.not_opcode_lt
  · exact .pure ⟨.inl rfl, fun _ => rfl⟩

/-- The opcodes of a tree are valid. -/
theorem Tree.isSome_ofOpcode? {t : Tree} {op : Opcode} (h : op ∈ t.encode) :
    (Node.ofOpcode? op).isSome := by
  induction t with
  | leaf slot =>
    obtain rfl := List.mem_singleton.mp h
    simp
  | node o left right hl hr =>
    simp only [encode, List.mem_cons, List.mem_append] at h
    rcases h with rfl | h | h
    · simp
    · exact hl h
    · exact hr h

/-- The opcodes of a formula are valid. -/
theorem Program.IsComplete.isSome_ofOpcode? {p : Program} (hp : p.IsComplete) {op : Opcode}
    (hop : op ∈ p.code) : (Node.ofOpcode? op).isSome := by
  obtain ⟨t, ht⟩ := p.isComplete_iff_exists_encode.mp hp
  exact Tree.isSome_ofOpcode? (ht ▸ hop)

/-- The opcodes of a formula that stand for no terminals are those of the operators. -/
theorem Program.IsComplete.exists_operator {p : Program} (hp : p.IsComplete) {op : Opcode}
    (hop : op ∈ p.code) (hlt : ¬ op < Operator.firstOpcode) : ∃ o : Operator, op = o.opcode := by
  obtain ⟨node, hnode⟩ := Option.isSome_iff_exists.mp (hp.isSome_ofOpcode? hop)
  cases node with
  | terminal slot => exact absurd (Node.ofOpcode?_eq_terminal_iff.mp hnode).1 hlt
  | operator o => exact ⟨o, Node.eq_opcode_of_ofOpcode? hnode⟩

/-- **What becomes of the opcodes of a formula**, which is a formula again. -/
theorem yields_mutate_forall₂ {probability : Float} (hp : 0.0 ≤ probability ∧ probability ≤ 1.0)
    {terminals : Nat} (hpos : 0 < terminals) (hle : terminals ≤ 110) {parent : Program}
    (h : parent.IsComplete) :
    Draw.Yields (mutate parent probability terminals : Draw σ Program) fun child =>
      child.IsComplete ∧ List.Forall₂ (Mutated terminals) parent.code child.code ∧
        (probability == 0.0 → child = parent) := by
  have hcode : Draw.Yields (parent.code.mapM (mutateOpcode probability terminals) :
      Draw σ (List Opcode)) (List.Forall₂ (fun op op' =>
        Mutated terminals op op' ∧ (probability == 0.0 → op = op')) parent.code) :=
    .mapM fun op hop => yields_mutateOpcode hp hpos hle (h.isSome_ofOpcode? hop)
  simp only [mutate, resample, bind_assoc, pure_bind]
  refine hcode.bind fun code hcode => ?_
  have hmutated : List.Forall₂ (Mutated terminals) parent.code code := hcode.imp fun _ _ => And.left
  have hcomplete : (Program.mk code).IsComplete :=
    h.of_sameKind (hmutated.imp fun _ _ => Mutated.sameKind)
  rw [Program.certify, if_pos hcomplete]
  refine .lift ⟨hcomplete, hmutated, fun hzero => ?_⟩
  have hsame : List.Forall₂ (· = ·) parent.code code := hcode.imp fun _ _ hop => hop.2 hzero
  rw [List.forall₂_eq_eq_eq] at hsame
  rw [← hsame]

/-- **Mutation keeps the limits of its parent**, and the check of its child never fails. -/
theorem yields_mutate {probability : Float} (hp : 0.0 ≤ probability ∧ probability ≤ 1.0)
    {maxLength terminals : Nat} (hpos : 0 < terminals) (hle : terminals ≤ 110) {parent : Program}
    (h : parent.Fits maxLength terminals) :
    Draw.Yields (mutate parent probability terminals : Draw σ Program)
      (Program.Fits maxLength terminals) := by
  refine (yields_mutate_forall₂ hp hpos hle h.isComplete).mono ?_
  rintro ⟨code⟩ ⟨hcomplete, hmutated, -⟩
  have hlength : code.length = parent.code.length := hmutated.length_eq.symm
  refine ⟨hcomplete, ?_, fun op' hop' hlt => ?_⟩
  · rw [Program.length, hlength]
    exact h.length_le
  · obtain ⟨i, hi, rfl⟩ := List.mem_iff_getElem.mp hop'
    have hmut := hmutated.get (hlength ▸ hi) hi
    rcases hmut with heq | ⟨-, hbelow⟩
    · simp only [List.get_eq_getElem] at heq
      rw [heq] at hlt ⊢
      exact h.slotsBelow _ (List.getElem_mem _) hlt
    · exact hbelow hlt

/-- **Mutation keeps the shape of its parent.** The child of a formula is a formula of the same
length. In every place a terminal has become a terminal, either itself or one of the first
`terminals`, and an operator has become one of the four operators, so that from every place the
search for the end of a subtree comes to the same end. If the probability is zero, the child is the
parent. The only fault that mutation can end in is the lack of random words. -/
theorem yields_mutate_sameShape {probability : Float} (hp : 0.0 ≤ probability ∧ probability ≤ 1.0)
    {terminals : Nat} (hpos : 0 < terminals) (hle : terminals ≤ 110) {parent : Program}
    (h : parent.IsComplete) :
    Draw.Yields (mutate parent probability terminals : Draw σ Program) fun child =>
      child.IsComplete ∧ child.length = parent.length ∧
      (∀ (i : Nat) (op op' : Opcode), parent.code[i]? = some op → child.code[i]? = some op' →
        (op' < Operator.firstOpcode ↔ op < Operator.firstOpcode) ∧
        (¬ op' < Operator.firstOpcode → ∃ o : Operator, op' = o.opcode) ∧
        (op' < Operator.firstOpcode → op' = op ∨ op'.toNat < terminals)) ∧
      (∀ i, subtreeEnd child.code i = subtreeEnd parent.code i) ∧
      (probability == 0.0 → child = parent) := by
  refine (yields_mutate_forall₂ hp hpos hle h).mono ?_
  rintro ⟨code⟩ ⟨hcomplete, hmutated, hzero⟩
  have hkinds : List.Forall₂ SameKind parent.code code := hmutated.imp fun _ _ => Mutated.sameKind
  refine ⟨hcomplete, hmutated.length_eq.symm, ?_, fun i => (subtreeEnd_congr hkinds i).symm, hzero⟩
  intro i op op' hop hop'
  obtain ⟨hi, rfl⟩ := List.getElem?_eq_some_iff.mp hop
  obtain ⟨hi', rfl⟩ := List.getElem?_eq_some_iff.mp hop'
  refine ⟨(hkinds.get hi hi').lt_firstOpcode_iff,
    hcomplete.exists_operator (List.getElem_mem hi'), fun hlt => ?_⟩
  rcases hmutated.get hi hi' with heq | ⟨-, hbelow⟩
  · exact .inl heq
  · exact .inr (hbelow hlt)

/-- With probability one half, a sum of two variables becomes the product of the first and a third
one. With probability minus zero, the same words leave it as it is. -/
theorem yields_mutate_sameShape_sample :
    let parent : Program := ⟨[110, 0, 1]⟩
    let child : Program := ⟨[112, 0, 2]⟩
    let words : Supply Cycle := ⟨.ofList [0, 0x8000000000000000, 0x8000000000000000, 0,
      0xb000000000000000], 5⟩
    parent.IsComplete ∧
      (∃ rest, (mutate parent 0.5 3).run words = .ok (child, rest) ∧ child.IsComplete ∧
        child.length = parent.length ∧
        ∀ i, subtreeEnd child.code i = subtreeEnd parent.code i) ∧
      ∃ same rest, (mutate parent (-0.0) 3).run words = .ok (same, rest) ∧ same = parent := by
  have hhalf : (0.0 : Float) ≤ 0.5 ∧ (0.5 : Float) ≤ 1.0 := by decide +kernel
  have hzero : (0.0 : Float) ≤ -0.0 ∧ (-0.0 : Float) ≤ 1.0 := by decide +kernel
  have hchild : (mutate ⟨[110, 0, 1]⟩ 0.5 3).run (⟨.ofList [0, 0x8000000000000000,
      0x8000000000000000, 0, 0xb000000000000000], 5⟩ : Supply Cycle) =
        .ok (⟨[112, 0, 2]⟩, ⟨⟨#[0, 0x8000000000000000, 0x8000000000000000, 0,
          0xb000000000000000], 5⟩, 0⟩) := by rfl
  have hsame : (mutate ⟨[110, 0, 1]⟩ (-0.0) 3).run (⟨.ofList [0, 0x8000000000000000,
      0x8000000000000000, 0, 0xb000000000000000], 5⟩ : Supply Cycle) =
        .ok (⟨[110, 0, 1]⟩, ⟨⟨#[0, 0x8000000000000000, 0x8000000000000000, 0,
          0xb000000000000000], 3⟩, 2⟩) := by rfl
  intro parent child words
  have hparent : parent.IsComplete := by decide
  have hshape : Draw.Yields (mutate parent 0.5 3 : Draw Cycle Program) _ :=
    yields_mutate_sameShape hhalf (by decide) (by decide) hparent
  have hshape' : Draw.Yields (mutate parent (-0.0) 3 : Draw Cycle Program) _ :=
    yields_mutate_sameShape hzero (by decide) (by decide) hparent
  obtain ⟨hcomplete, hlength, -, hends, -⟩ := (hshape _).of_eq_ok hchild
  obtain ⟨-, -, -, -, hkept⟩ := (hshape' _).of_eq_ok hsame
  exact ⟨hparent, ⟨_, hchild, hcomplete, hlength, hends⟩, _, _, hsame, hkept (by decide +kernel)⟩

end SymbolicRegression
