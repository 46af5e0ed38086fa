import SymbolicRegression.Proofs.Breeding.Crossover
import SymbolicRegression.Proofs.Breeding.Growth

set_option autoImplicit false
set_option relaxedAutoImplicit false

/-!
# Breeding stays inside its rows

Some operations have an answer wherever they look: a slot past the last one written is read as
zero, a buffer takes an opcode in any slot, and the difference of two places is zero if they are
the wrong way round. Here it is shown that none of them is ever used that way: growth writes no slot
past its buffer, the search for the end of a subtree counts no further than the program is long,
and the places of a crossover lie in order and inside both parents.

## Main definitions

* `SymbolicRegression.Searching` — the states of the search for the end of a subtree.
* `SymbolicRegression.Sites.Inside` — places in order and inside both parents.
* `SymbolicRegression.Buffer.Within` — no slot past the capacity has been written.

## Main results

* `SymbolicRegression.Searching.bounded` — the search stays inside the program.
* `SymbolicRegression.yields_chooseSites_inside` — the places of a crossover are inside.
* `SymbolicRegression.Generator.yields_generate_within` — growth stays inside its buffer.
-/

namespace SymbolicRegression

/-! ## The search for the end of a subtree -/

/-- The search for the end of the subtree at `start` has come to a state: what is left of the
program, how many subtrees are awaited, and the offset of what is left. -/
inductive Searching (code : List Opcode) (start : Nat) : List Opcode → Nat → Nat → Prop
  /-- The search begins with one subtree to be found. -/
  | begin : Searching code start (code.drop start) 1 start
  /-- A terminal is one of the subtrees awaited. -/
  | terminal {op : Opcode} {rest : List Opcode} {awaited offset slot : Nat}
      (h : Searching code start (op :: rest) (awaited + 1) offset)
      (hop : Node.ofOpcode? op = some (.terminal slot)) :
      Searching code start rest awaited (offset + 1)
  /-- An operator is one of the subtrees awaited if its two operands are. -/
  | operator {op : Opcode} {rest : List Opcode} {awaited offset : Nat} {o : Operator}
      (h : Searching code start (op :: rest) (awaited + 1) offset)
      (hop : Node.ofOpcode? op = some (.operator o)) :
      Searching code start rest (awaited + 2) (offset + 1)

namespace Searching

variable {code rest : List Opcode} {start awaited offset : Nat}

/-- The states are those of the search. -/
theorem subtreeEnd_eq (h : Searching code start rest awaited offset) :
    subtreeEnd code start = forestEnd rest awaited offset := by
  induction h with
  | begin => rfl
  | terminal _ hop ih => rw [ih, forestEnd, hop]
  | operator _ hop ih => rw [ih, forestEnd, hop]

/-- **The search stays inside the program**: the offset never passes its end, and no more subtrees
are awaited than opcodes have been read, but for the one to be found. -/
theorem bounded (h : Searching code start rest awaited offset) (hstart : start ≤ code.length) :
    offset + rest.length = code.length ∧ awaited ≤ offset - start + 1 ∧ start ≤ offset := by
  induction h with
  | begin =>
    rw [List.length_drop]
    omega
  | terminal _ _ ih =>
    rw [List.length_cons] at ih
    omega
  | operator _ _ ih =>
    rw [List.length_cons] at ih
    omega

end Searching

/-! ## The places of a crossover -/

/-- The places lie in order and inside both parents, and the length that they foretell is a word. -/
structure Sites.Inside (parent₁ parent₂ : Program) (sites : Sites) : Prop where
  /-- The first stretch does not stop before it starts. -/
  order₁ : sites.start1 ≤ sites.stop1
  /-- It does not leave the first parent. -/
  stop₁ : sites.stop1 ≤ parent₁.length
  /-- The second stretch does not stop before it starts. -/
  order₂ : sites.start2 ≤ sites.stop2
  /-- It does not leave the second parent. -/
  stop₂ : sites.stop2 ≤ parent₂.length
  /-- What is left of the first parent and what comes from the second add up to a word. -/
  childLength_lt : sites.childLength parent₁.length < UInt64.size

/-- Places that cut out subtrees are inside, if both parents can be stored. -/
theorem Sites.Cut.inside {t₁ t₂ s₁ s₂ : Tree} {sites : Sites} (h : sites.Cut t₁ t₂ s₁ s₂)
    (h₁ : t₁.encode.length ≤ Storage.limit) (h₂ : t₂.encode.length ≤ Storage.limit) :
    sites.Inside ⟨t₁.encode⟩ ⟨t₂.encode⟩ := by
  have hle₁ := Tree.add_size_le h.subtree₁
  have hle₂ := Tree.add_size_le h.subtree₂
  obtain ⟨-, hstop₁, -, hstop₂⟩ := h
  rw [Tree.length_encode] at h₁ h₂
  have hlimit : Storage.limit + Storage.limit < UInt64.size := by decide
  refine ⟨by omega, ?_, by omega, ?_, ?_⟩
  · rw [Program.length, Tree.length_encode]
    omega
  · rw [Program.length, Tree.length_encode]
    omega
  · rw [childLength, Program.length, Tree.length_encode]
    omega

variable {σ : Type} [WordSource σ]

/-- **The places of a crossover are inside.** -/
theorem yields_chooseSites_inside {parent₁ parent₂ : Program} (h₁ : parent₁.IsComplete)
    (h₂ : parent₂.IsComplete) (hlength₁ : parent₁.length ≤ Storage.limit)
    (hlength₂ : parent₂.length ≤ Storage.limit) :
    Draw.Yields (chooseSites parent₁ parent₂ : Draw σ Sites) (Sites.Inside parent₁ parent₂) := by
  obtain ⟨t₁, rfl⟩ := h₁.exists_eq_encode
  obtain ⟨t₂, rfl⟩ := h₂.exists_eq_encode
  exact (yields_chooseSites t₁ t₂).mono fun sites ⟨_, _, hcut⟩ => hcut.inside hlength₁ hlength₂

/-! ## The slots of growth -/

namespace Buffer

/-- No slot past the capacity has been written. The slots up to the last one written are stored and
stay so, so a single stray opcode would show for ever. -/
def Within (b : Buffer) : Prop := b.stored.size ≤ b.capacity

/-- The slots stored after an opcode is written. -/
theorem size_stored_write (b : Buffer) (slot : Nat) (op : Opcode) :
    (b.write slot op).stored.size = max b.stored.size (slot + 1) := by
  unfold write
  split
  · rw [Array.size_setIfInBounds]
    omega
  · simp only [Array.size_push, Array.size_append, Array.size_replicate]
    omega

/-- Writing a slot of a buffer stays inside. -/
theorem Within.write {b : Buffer} (h : b.Within) {slot : Nat} (hslot : slot < b.capacity)
    (op : Opcode) : (b.write slot op).Within := by
  unfold Within at *
  rw [size_stored_write, capacity_write]
  omega

end Buffer

namespace Growing

/-- Growth stays inside: no slot past the capacity has been written, and the next slot, if one is
given, is at most the one past the buffer. -/
def StaysWithin (capacity : Nat) (r : Option Nat × Buffer) : Prop :=
  r.2.Within ∧ r.2.capacity = capacity ∧ ∀ stop, r.1 = some stop → stop ≤ capacity

variable {terminals : Nat} {b : Buffer}

/-- A random terminal in a slot of the buffer stays inside. -/
theorem yields_growLeaf_within (hpos : 0 < terminals) {slot : Nat} (hb : b.Within)
    (hslot : slot < b.capacity) :
    Draw.Yields ((growLeaf terminals slot : Growing σ (Option Nat)).run b)
      (StaysWithin b.capacity) := by
  simp only [growLeaf, randomTerminal, StateT.run_bind, run_place, bind_assoc, pure_bind,
    StateT.run_pure]
  refine (Draw.yields_below hpos).bind fun k _ => .pure ⟨hb.write hslot _, by simp, ?_⟩
  intro stop hstop
  obtain rfl := Option.some.inj hstop
  exact hslot

/-- An operator in a slot of the buffer stays inside if its operands do. -/
theorem yields_growNode_within {operand : Nat → Growing σ (Option Nat)}
    (hoperand : ∀ slot b, b.Within →
      Draw.Yields ((operand slot).run b) (StaysWithin b.capacity))
    {slot : Nat} (hb : b.Within) (hslot : slot < b.capacity) :
    Draw.Yields ((growNode operand slot).run b) (StaysWithin b.capacity) := by
  simp only [growNode, StateT.run_bind, run_place, bind_assoc, pure_bind]
  refine yields_randomOperator.bind fun op _ => ?_
  refine (hoperand (slot + 1) _ (hb.write hslot op)).bind ?_
  rintro ⟨right, b₁⟩ ⟨hb₁, hwritten, -⟩
  have hcapacity : b₁.capacity = b.capacity := by simpa using hwritten
  cases right with
  | none => exact .pure ⟨hb₁, hcapacity, fun _ h => by simp at h⟩
  | some right => exact hcapacity ▸ hoperand right b₁ hb₁

/-- An operand stays inside.

**Proof sketch.** Induction on the depth budget: a slot is written only after it has been compared
with the capacity, and an operator's operands have one level less. -/
theorem yields_growOperand_within (hpos : 0 < terminals) (depth slot : Nat) (hb : b.Within) :
    Draw.Yields ((growOperand terminals depth slot : Growing σ (Option Nat)).run b)
      (StaysWithin b.capacity) := by
  have hnone : ∀ {b : Buffer}, b.Within → StaysWithin b.capacity (none, b) := fun hb =>
    ⟨hb, rfl, fun _ h => by simp at h⟩
  induction depth generalizing slot b with
  | zero =>
    simp only [growOperand, StateT.run_bind, StateT.run_get, pure_bind]
    split
    · exact yields_growLeaf_within hpos hb ‹_›
    · exact .pure (hnone hb)
  | succ depth ih =>
    simp only [growOperand, StateT.run_bind, StateT.run_get, pure_bind]
    split
    · simp only [StateT.run_bind, StateT.run_monadLift, bind_assoc, pure_bind]
      refine (Draw.yields_coin (by decide +kernel)).bind fun heads _ => ?_
      split
      · exact yields_growNode_within (fun slot b hb => ih slot hb) hb ‹_›
      · exact yields_growLeaf_within hpos hb ‹_›
    · exact .pure (hnone hb)

/-- A subtree grown from the first slot stays inside. -/
theorem yields_grow_within (hpos : 0 < terminals) (depth : Nat) (hb : b.Within) :
    Draw.Yields ((grow terminals depth 0 : Growing σ (Option Nat)).run b)
      (StaysWithin b.capacity) := by
  simp only [grow, if_true, StateT.run_bind, StateT.run_get, pure_bind]
  split
  · exact yields_growNode_within (fun slot b hb => yields_growOperand_within hpos _ slot hb) hb ‹_›
  · exact .pure ⟨hb, rfl, fun _ h => by simp at h⟩

/-- Programs grown until one fits stay inside, every attempt of them. -/
theorem yields_growUntilFit_within (hpos : 0 < terminals) (depth attempts : Nat) (hb : b.Within) :
    Draw.Yields ((growUntilFit terminals depth attempts : Growing σ Program).run b) fun r =>
      r.2.Within ∧ r.2.capacity = b.capacity ∧ r.1.length ≤ b.capacity := by
  induction attempts generalizing b with
  | zero => exact fun _ => rfl
  | succ attempts ih =>
    simp only [growUntilFit, StateT.run_bind]
    refine (yields_grow_within hpos depth hb).bind ?_
    rintro ⟨stop, b₁⟩ ⟨hb₁, hgrown, hstop⟩
    have hcapacity : b₁.capacity = b.capacity := hgrown
    cases stop with
    | none => exact hcapacity ▸ ih hb₁
    | some stop =>
      simp only [StateT.run_bind, StateT.run_get, pure_bind, StateT.run_pure]
      refine .pure ⟨hb₁, hcapacity, ?_⟩
      simpa [Buffer.take, Program.length] using hstop stop rfl

end Growing

namespace Generator

/-- **Growth stays inside its buffer**: a generator that has written no slot past its buffer makes
a program that fits into it, and still has written none. -/
theorem yields_generate_within {g : Generator} (hpos : 0 < g.terminals) (hg : g.buffer.Within) :
    Draw.Yields (g.generate : Draw σ (Program × Generator)) fun r =>
      r.1.length ≤ g.buffer.capacity ∧ r.2.buffer.Within ∧
        r.2.buffer.capacity = g.buffer.capacity ∧ r.2.terminals = g.terminals := by
  intro supply
  have h := Growing.yields_growUntilFit_within (σ := σ) hpos g.depth supply.left hg
  exact (h supply).bind fun r hr => ⟨hr.2.2, hr.1, hr.2.1, rfl⟩

end Generator

end SymbolicRegression
