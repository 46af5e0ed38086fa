import SymbolicRegression.Proofs.Breeding.Growth

set_option autoImplicit false
set_option relaxedAutoImplicit false

/-!
# The slots that growth comes to

Growth calls itself for each operand. Here it is written once more, so that every call first notes
down the slot that it is for. The notes are kept whatever becomes of the call, also if the random
words run out before it has ended. Nothing else is changed: without the notes it is growth itself.

The calls come to one slot after another, so there are no more of them than slots left in the
buffer, and one that finds none.

## Main definitions

* `SymbolicRegression.Noting` — growth that notes down slots.
* `SymbolicRegression.Growing.noteGrow` — grow a subtree, noting down the slot of every call.
* `SymbolicRegression.Growing.Passes` — calls at one slot after another.

## Main results

* `SymbolicRegression.Growing.passes_noteNode` — an operator and its operands.
* `SymbolicRegression.Growing.passes_noteGrow` — the slots that growth comes to.
-/

namespace SymbolicRegression

variable {σ : Type}

/-- A computation that draws words, writes a buffer and notes down slots. The notes outlast a
fault. -/
abbrev Noting (σ : Type) := StateT Buffer (StateT (Supply σ) (ExceptT Fault (StateM (List Nat))))

namespace Noting

variable {α β : Type}

/-- What a computation comes to from a buffer, a supply of words and the slots noted so far, and the
slots noted then. -/
def outcome (x : Noting σ α) (b : Buffer) (supply : Supply σ) (visited : List Nat) :
    Except Fault ((α × Buffer) × Supply σ) × List Nat :=
  x b supply visited

/-- Note down a slot. -/
def note (slot : Nat) : Noting σ Unit :=
  fun b supply visited => (.ok (((), b), supply), visited ++ [slot])

/-- A computation that notes down nothing. -/
def ofGrowing (x : Growing σ α) : Noting σ α :=
  fun b supply visited => ((x.run b).run supply, visited)

/-- Two computations in a row: the second is made if the first has an answer. -/
theorem outcome_bind (x : Noting σ α) (f : α → Noting σ β) (b : Buffer) (supply : Supply σ)
    (visited : List Nat) :
    (x >>= f).outcome b supply visited =
      match x.outcome b supply visited with
      | (.ok ((a, b'), supply'), visited') => (f a).outcome b' supply' visited'
      | (.error fault, visited') => (.error fault, visited') := by
  show (x >>= f) b supply visited = match x b supply visited with
    | (.ok ((a, b'), supply'), visited') => (f a) b' supply' visited'
    | (.error fault, visited') => (.error fault, visited')
  simp only [bind, StateT.bind, ExceptT.bind, ExceptT.mk]
  rcases x b supply visited with ⟨fault | ⟨⟨a, b'⟩, supply'⟩, visited'⟩
  · rfl
  · rfl

end Noting

namespace Growing

open Noting (note ofGrowing)

variable [WordSource σ]

/-- Place a random operator, and after it two operands. -/
def noteNode (operand : Nat → Noting σ (Option Nat)) (slot : Nat) : Noting σ (Option Nat) := do
  ofGrowing (place slot randomOperator)
  match ← operand (slot + 1) with
  | none => return none
  | some right => operand right

/-- Grow an operand of at most the given depth, noting down the slot of every call. -/
def noteOperand (terminals : Nat) : (depth slot : Nat) → Noting σ (Option Nat)
  | 0, slot => do
    note slot
    if slot < (← get).capacity then ofGrowing (growLeaf terminals slot) else return none
  | depth + 1, slot => do
    note slot
    if slot < (← get).capacity then
      if ← ofGrowing (Draw.coin 0.5 : Draw σ Bool) then noteNode (noteOperand terminals depth) slot
      else ofGrowing (growLeaf terminals slot)
    else return none

/-- Grow a subtree, noting down the slot of every call. -/
def noteGrow (terminals depth slot : Nat) : Noting σ (Option Nat) := do
  if slot = 0 then
    note 0
    if 0 < (← get).capacity then noteNode (noteOperand terminals (depth - 1)) 0
    else return none
  else noteOperand terminals depth slot

/-! ## One slot after another -/

/-- **Calls at one slot after another.** From the buffer `b` the computation that notes down slots
comes to the same outcome as growth. It has noted down the slots from `first` on, one after another:
no more than there are in the buffer from there, and one. If an end is given, all slots before it
and no others have been noted down, and it lies within the buffer. -/
def Passes (first : Nat) (b : Buffer) (noted : Noting σ (Option Nat))
    (grown : Growing σ (Option Nat)) : Prop :=
  ∀ (supply : Supply σ) (visited : List Nat), ∃ k ≤ b.capacity - first + 1,
    noted.outcome b supply visited =
      ((grown.run b).run supply, visited ++ List.range' first k) ∧
    ∀ r, (grown.run b).run supply = .ok r → r.1.2.capacity = b.capacity ∧
      ∀ stop, r.1.1 = some stop → stop = first + k ∧ stop ≤ b.capacity

variable {slot : Nat} {b : Buffer}

omit [WordSource σ] in
/-- **A call notes down its slot before the others**, and there are none if it finds no slot. -/
theorem passes_call {noted : Noting σ (Option Nat)} {grown : Growing σ (Option Nat)}
    (h : slot < b.capacity → Passes (slot + 1) b noted grown) :
    Passes slot b (do note slot; if slot < (← get).capacity then noted else return none)
      (do if slot < (← get).capacity then grown else return none) := by
  intro supply visited
  have hnoted :
      Noting.outcome (do note slot; if slot < (← get).capacity then noted else return none)
        b supply visited =
      (if slot < b.capacity then noted else return none).outcome b supply
        (visited ++ [slot]) := by
    rw [Noting.outcome_bind]
    rfl
  simp only [hnoted, StateT.run_bind, StateT.run_get, pure_bind]
  split
  · obtain ⟨k, hk, houtcome, hanswer⟩ := h ‹_› supply (visited ++ [slot])
    refine ⟨k + 1, by omega, ?_, fun r hr => ⟨(hanswer r hr).1, fun stop hstop => ?_⟩⟩
    · rw [List.range'_succ, List.append_cons visited slot (List.range' (slot + 1) k)]
      exact houtcome
    · obtain ⟨hend, hle⟩ := (hanswer r hr).2 stop hstop
      exact ⟨by omega, hle⟩
  · refine ⟨1, Nat.le_add_left _ _, rfl, fun r hr => ?_⟩
    obtain rfl := Except.ok.inj hr
    exact ⟨rfl, fun stop h => by cases h⟩

omit [WordSource σ] in
/-- A draw that decides how to go on calls for no slot. -/
theorem passes_draw {α : Type} {first : Nat} {d : Draw σ α} {noted : α → Noting σ (Option Nat)}
    {grown : α → Growing σ (Option Nat)} (h : ∀ a, Passes first b (noted a) (grown a)) :
    Passes first b (do let a ← ofGrowing (d : Growing σ α); noted a)
      (do let a ← (d : Growing σ α); grown a) := by
  intro supply visited
  have hnoted : Noting.outcome (ofGrowing (d : Growing σ α)) b supply visited =
      (d.run supply >>= fun r => .ok ((r.1, b), r.2), visited) := rfl
  have hgrown : ((do let a ← (d : Growing σ α); grown a).run b).run supply =
      d.run supply >>= fun r => ((grown r.1).run b).run r.2 := by
    simp only [StateT.run_bind, StateT.run_monadLift, bind_assoc, pure_bind]
    rfl
  rw [Noting.outcome_bind, hnoted, hgrown]
  rcases d.run supply with fault | ⟨a, supply'⟩
  · refine ⟨0, Nat.zero_le _, ?_, fun r hr => by cases hr⟩
    rw [List.range'_zero, List.append_nil]
    rfl
  · exact h a supply' visited

/-- A random terminal calls for no other slot. -/
theorem passes_growLeaf (terminals : Nat) (hslot : slot < b.capacity) :
    Passes (slot + 1) b (ofGrowing (growLeaf terminals slot) : Noting σ (Option Nat))
      (growLeaf terminals slot) := by
  intro supply visited
  refine ⟨0, Nat.zero_le _, ?_, fun r hr => ?_⟩
  · rw [List.range'_zero, List.append_nil]
    rfl
  · simp only [growLeaf, StateT.run_bind, run_place, bind_assoc, pure_bind, bind_eq_ok_iff] at hr
    obtain ⟨⟨op, supply'⟩, -, hr⟩ := hr
    obtain rfl := Except.ok.inj hr
    refine ⟨Buffer.capacity_write _ _ _, fun stop hstop => ?_⟩
    obtain rfl := Option.some.inj hstop
    exact ⟨rfl, hslot⟩

/-- What growing an operator comes to: the operator is drawn and written, and the right operand is
grown if the left one has an end. -/
theorem run_growNode (operand : Nat → Growing σ (Option Nat)) (slot : Nat) (b : Buffer)
    (supply : Supply σ) :
    ((growNode operand slot).run b).run supply =
      match (randomOperator : Draw σ Opcode).run supply with
      | .error fault => .error fault
      | .ok (op, supply₁) =>
        match ((operand (slot + 1)).run (b.write slot op)).run supply₁ with
        | .error fault => .error fault
        | .ok ((none, b₁), supply₂) => .ok ((none, b₁), supply₂)
        | .ok ((some right, b₁), supply₂) => ((operand right).run b₁).run supply₂ := by
  simp only [growNode, StateT.run_bind, run_place, bind_assoc, pure_bind]
  rcases (randomOperator : Draw σ Opcode).run supply with fault | ⟨op, supply₁⟩
  · rfl
  · show (((operand (slot + 1)).run (b.write slot op)).run supply₁ >>= fun r => _) = _
    simp only
    rcases ((operand (slot + 1)).run (b.write slot op)).run supply₁ with
      fault | ⟨⟨_ | right, b₁⟩, supply₂⟩
    · rfl
    · rfl
    · rfl

/-- The same, with the slots noted down. -/
theorem outcome_noteNode (operand : Nat → Noting σ (Option Nat)) (slot : Nat) (b : Buffer)
    (supply : Supply σ) (visited : List Nat) :
    (noteNode operand slot).outcome b supply visited =
      match (randomOperator : Draw σ Opcode).run supply with
      | .error fault => (.error fault, visited)
      | .ok (op, supply₁) =>
        match (operand (slot + 1)).outcome (b.write slot op) supply₁ visited with
        | (.error fault, visited₁) => (.error fault, visited₁)
        | (.ok ((none, b₁), supply₂), visited₁) => (.ok ((none, b₁), supply₂), visited₁)
        | (.ok ((some right, b₁), supply₂), visited₁) =>
          (operand right).outcome b₁ supply₂ visited₁ := by
  have hplace : (ofGrowing (place slot randomOperator) : Noting σ Unit).outcome b supply visited =
      ((randomOperator : Draw σ Opcode).run supply >>= fun r =>
        .ok (((), b.write slot r.1), r.2), visited) := by
    rw [Noting.outcome, ofGrowing, run_place]
    rfl
  rw [noteNode, Noting.outcome_bind, hplace]
  rcases (randomOperator : Draw σ Opcode).run supply with fault | ⟨op, supply₁⟩
  · rfl
  · show Noting.outcome (operand (slot + 1) >>= _) (b.write slot op) supply₁ visited = _
    rw [Noting.outcome_bind]
    simp only
    rcases (operand (slot + 1)).outcome (b.write slot op) supply₁ visited with
      ⟨fault | ⟨⟨_ | right, b₁⟩, supply₂⟩, visited₁⟩
    · rfl
    · rfl
    · rfl

/-- **An operator and its operands.** The calls for the right operand come behind those for the left
one, and there are none if the left one is given up. -/
theorem passes_noteNode {noted : Nat → Noting σ (Option Nat)}
    {grown : Nat → Growing σ (Option Nat)}
    (hoperand : ∀ slot b, Passes slot b (noted slot) (grown slot)) (slot : Nat) (b : Buffer) :
    Passes (slot + 1) b (noteNode noted slot) (growNode grown slot) := by
  intro supply visited
  rw [run_growNode, outcome_noteNode]
  rcases (randomOperator : Draw σ Opcode).run supply with fault | ⟨op, supply₁⟩
  · refine ⟨0, Nat.zero_le _, ?_, fun r hr => by cases hr⟩
    rw [List.range'_zero, List.append_nil]
  obtain ⟨k₁, hk₁, hleft, hanswer₁⟩ := hoperand (slot + 1) (b.write slot op) supply₁ visited
  rw [Buffer.capacity_write] at hk₁ hanswer₁
  simp only [hleft]
  rcases hgrown : ((grown (slot + 1)).run (b.write slot op)).run supply₁ with
    fault | ⟨⟨_ | right, b₁⟩, supply₂⟩
  · exact ⟨k₁, hk₁, rfl, fun r hr => by cases hr⟩
  · refine ⟨k₁, hk₁, rfl, fun r hr => ?_⟩
    obtain rfl := Except.ok.inj hr
    exact hanswer₁ _ hgrown
  · obtain ⟨hcapacity, hend⟩ := hanswer₁ _ hgrown
    obtain ⟨rfl, hle⟩ := hend right rfl
    obtain ⟨k₂, hk₂, hright, hanswer₂⟩ :=
      hoperand (slot + 1 + k₁) b₁ supply₂ (visited ++ List.range' (slot + 1) k₁)
    simp only at hcapacity
    rw [hcapacity] at hk₂ hanswer₂
    refine ⟨k₁ + k₂, by omega, ?_, fun r hr => ?_⟩
    · rw [List.append_assoc, List.range'_append_1] at hright
      exact hright
    · obtain ⟨hcapacity', hend'⟩ := hanswer₂ r hr
      exact ⟨hcapacity', fun stop hstop => by have := hend' stop hstop; omega⟩

/-- The slots that growth of an operand comes to.

**Proof sketch.** Induction on the depth budget: an operand is a terminal, or an operator with
operands of one level less. -/
theorem passes_noteOperand (terminals depth slot : Nat) (b : Buffer) :
    Passes slot b (noteOperand terminals depth slot : Noting σ (Option Nat))
      (growOperand terminals depth slot) := by
  induction depth generalizing slot b with
  | zero => exact passes_call (passes_growLeaf terminals)
  | succ depth ih =>
    refine passes_call fun hslot => passes_draw fun heads => ?_
    split
    · exact passes_noteNode ih slot b
    · exact passes_growLeaf terminals hslot

/-- **The slots that growth comes to**: whatever words are drawn, its calls are for one slot after
another. -/
theorem passes_noteGrow (terminals depth slot : Nat) (b : Buffer) :
    Passes slot b (noteGrow terminals depth slot : Noting σ (Option Nat))
      (grow terminals depth slot) := by
  by_cases hslot : slot = 0
  · subst hslot
    exact passes_call fun _ => passes_noteNode (passes_noteOperand terminals (depth - 1)) 0 b
  · rw [noteGrow, grow, if_neg hslot, if_neg hslot]
    exact passes_noteOperand terminals depth slot b

end Growing

end SymbolicRegression
