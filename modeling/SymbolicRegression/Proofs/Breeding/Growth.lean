import Mathlib.Tactic.Common
import SymbolicRegression.Breeding.Growth
import SymbolicRegression.Proofs.Program.Shape
import SymbolicRegression.Proofs.Random.Draws

set_option autoImplicit false
set_option relaxedAutoImplicit false

/-!
# Growth makes trees

Whatever words are drawn, a subtree that fits into the buffer is the encoding of a tree, written
from the slot where growth began and nowhere before it. So the operands of an operator stand side
by side, and a generator gives complete programs within its limits.

## Main definitions

* `SymbolicRegression.Buffer.Holds` — a sequence of opcodes stands in the slots from a place on.
* `SymbolicRegression.Growing.Grown` — what growth from a slot leaves behind.
* `SymbolicRegression.Growing.Rooted` — the trees that are grown from the first slot.

## Main results

* `SymbolicRegression.Growing.yields_growNode` — two grown operands make a grown operator.
* `SymbolicRegression.Growing.yields_grow` — what `grow` leaves behind.
* `SymbolicRegression.Generator.yields_generate` — a generator gives programs within its limits.
-/

namespace SymbolicRegression

namespace Buffer

/-! ## Slots of a buffer -/

/-- Writing changes no capacity. -/
@[simp] theorem capacity_write (b : Buffer) (slot : Nat) (op : Opcode) :
    (b.write slot op).capacity = b.capacity := by
  unfold write
  split <;> rfl

/-- The opcode just written is read. -/
@[simp] theorem get_write_self (b : Buffer) (slot : Nat) (op : Opcode) :
    (b.write slot op).get slot = op := by
  unfold write get
  split
  · simp [*]
  · have hsize : (b.stored ++ Array.replicate (slot - b.stored.size) 0).size = slot := by
      simp only [Array.size_append, Array.size_replicate]
      omega
    rw [Array.getD_eq_getD_getElem?, Array.getElem?_push, hsize, if_pos rfl]
    rfl

/-- All other slots keep their opcodes. -/
theorem get_write_of_ne (b : Buffer) {slot i : Nat} (op : Opcode) (h : i ≠ slot) :
    (b.write slot op).get i = b.get i := by
  unfold write get
  split
  · simp [Ne.symm h]
  · have hsize : (b.stored ++ Array.replicate (slot - b.stored.size) 0).size = slot := by
      simp only [Array.size_append, Array.size_replicate]
      omega
    simp only [Array.getD_eq_getD_getElem?, Array.getElem?_push, hsize, if_neg h,
      Array.getElem?_append]
    split
    · rfl
    · rw [Array.getElem?_eq_none (show b.stored.size ≤ i by omega), Array.getElem?_replicate]
      split <;> rfl

/-- The opcodes stand in the slots from `slot` on. -/
def Holds (b : Buffer) (slot : Nat) (code : List Opcode) : Prop :=
  (List.range' slot code.length).map b.get = code

/-- What a buffer holds is also held by a buffer that agrees with it there. -/
theorem Holds.congr {b b' : Buffer} {slot : Nat} {code : List Opcode} (h : b.Holds slot code)
    (heq : ∀ i, slot ≤ i → i < slot + code.length → b'.get i = b.get i) : b'.Holds slot code := by
  have hmap : (List.range' slot code.length).map b'.get =
      (List.range' slot code.length).map b.get := by
    refine List.map_congr_left ?_
    intro i hi
    rw [List.mem_range'_1] at hi
    exact heq i hi.1 hi.2
  exact hmap.trans h

/-- Two stretches side by side are one stretch. -/
theorem Holds.append {b : Buffer} {slot : Nat} {front back : List Opcode} (hf : b.Holds slot front)
    (hb : b.Holds (slot + front.length) back) : b.Holds slot (front ++ back) := by
  unfold Holds at *
  rw [List.length_append, ← List.range'_append_1, List.map_append, hf, hb]

/-- A slot holds its opcode. -/
theorem holds_singleton (b : Buffer) (slot : Nat) : b.Holds slot [b.get slot] := by
  simp [Holds]

/-- What a buffer holds from its first slot on is what is taken from it. -/
theorem Holds.take_eq {b : Buffer} {code : List Opcode} (h : b.Holds 0 code) :
    b.take code.length = code := by
  rw [take, List.range_eq_range']
  exact h

end Buffer

/-! ## Random opcodes -/

variable {σ : Type} [WordSource σ]

/-- A random operator has the opcode of an operator. -/
theorem yields_randomOperator :
    Draw.Yields (randomOperator : Draw σ Opcode) fun op => ∃ o : Operator, op = o.opcode := by
  refine (Draw.yields_below (by decide)).bind fun k hk => .pure ?_
  have hk : k < 4 := hk
  obtain rfl | rfl | rfl | rfl : k = 0 ∨ k = 1 ∨ k = 2 ∨ k = 3 := by omega
  · exact ⟨.add, rfl⟩
  · exact ⟨.sub, rfl⟩
  · exact ⟨.mul, rfl⟩
  · exact ⟨.div, rfl⟩

/-- A random terminal has the opcode of a slot below the number of terminals. -/
theorem yields_randomTerminal {terminals : Nat} (hpos : 0 < terminals) (hle : terminals ≤ 110) :
    Draw.Yields (randomTerminal terminals : Draw σ Opcode) fun op =>
      ∃ slot : Fin 110, slot.val < terminals ∧ op = UInt8.ofNat slot :=
  (Draw.yields_below hpos).bind fun k hk => .pure ⟨⟨k, by omega⟩, hk, rfl⟩

namespace Growing

/-! ## Grown subtrees -/

/-- **What growth from a slot leaves behind**: the slots before it are as they were, and if an end
is given then the slots up to it, within the capacity, hold a tree of the kind `P`. -/
def Grown (P : Tree → Prop) (slot : Nat) (b : Buffer) (r : Option Nat × Buffer) : Prop :=
  r.2.capacity = b.capacity ∧ (∀ i < slot, r.2.get i = b.get i) ∧
    ∀ stop, r.1 = some stop → stop ≤ b.capacity ∧
      ∃ t : Tree, P t ∧ stop = slot + t.size ∧ r.2.Holds slot t.encode

/-- Growth that is given up leaves the slots before it as they were. -/
theorem grown_none {P : Tree → Prop} {slot : Nat} {b : Buffer} : Grown P slot b (none, b) :=
  ⟨rfl, fun _ _ => rfl, fun _ h => by simp at h⟩

/-- A tree may be known to be of a wider kind. -/
theorem Grown.mono {P Q : Tree → Prop} {slot : Nat} {b : Buffer} {r : Option Nat × Buffer}
    (h : Grown P slot b r) (hPQ : ∀ t, P t → Q t) : Grown Q slot b r := by
  refine ⟨h.1, h.2.1, ?_⟩
  intro stop hstop
  obtain ⟨hle, t, ht, hsize, hholds⟩ := h.2.2 stop hstop
  exact ⟨hle, t, hPQ t ht, hsize, hholds⟩

omit [WordSource σ] in
/-- Placing a drawn opcode writes what was drawn. -/
theorem run_place (slot : Nat) (draw : Draw σ Opcode) (b : Buffer) :
    (place slot draw).run b = draw >>= fun op => pure ((), b.write slot op) := by
  simp [place]

/-- A random terminal is a grown leaf. -/
theorem yields_growLeaf {terminals slot : Nat} {b : Buffer} (hpos : 0 < terminals)
    (hle : terminals ≤ 110) (hslot : slot < b.capacity) :
    Draw.Yields ((growLeaf terminals slot : Growing σ (Option Nat)).run b)
      (Grown (fun t => ∃ k : Fin 110, k.val < terminals ∧ t = .leaf k) slot b) := by
  simp only [growLeaf, StateT.run_bind, run_place, bind_assoc, pure_bind, StateT.run_pure]
  refine (yields_randomTerminal hpos hle).bind fun op ⟨k, hk, hop⟩ => .pure ?_
  refine ⟨by simp, fun i hi => Buffer.get_write_of_ne b op (by omega), fun stop hstop => ?_⟩
  obtain rfl := Option.some.inj hstop
  refine ⟨hslot, .leaf k, ⟨k, hk, rfl⟩, rfl, ?_⟩
  simpa [Tree.encode, hop] using (b.write slot op).holds_singleton slot

/-- **Two grown operands make a grown operator.**

**Proof sketch.** The operator is written first, so both operands keep it. The right operand
starts where the left one stops and therefore keeps that one too. The three stretches stand side
by side and together encode the operator with its operands. -/
theorem yields_growNode {P : Tree → Prop} {operand : Nat → Growing σ (Option Nat)}
    (hoperand : ∀ slot b, Draw.Yields ((operand slot).run b) (Grown P slot b)) (slot : Nat)
    (b : Buffer) :
    Draw.Yields ((growNode operand slot).run b)
      (Grown (fun t => ∃ op left right, t = .node op left right ∧ P left ∧ P right) slot b) := by
  simp only [growNode, StateT.run_bind, run_place, bind_assoc, pure_bind]
  refine yields_randomOperator.bind ?_
  rintro op ⟨o, hop⟩
  refine (hoperand (slot + 1) (b.write slot op)).bind ?_
  rintro ⟨right, b₁⟩ ⟨hcap₁, hkeep₁, hgrown₁⟩
  have hcap : b₁.capacity = b.capacity := by simpa using hcap₁
  have hroot₁ : b₁.get slot = op := by rw [hkeep₁ slot (by omega), Buffer.get_write_self]
  have hbefore₁ : ∀ i < slot, b₁.get i = b.get i := fun i hi => by
    rw [hkeep₁ i (by omega), Buffer.get_write_of_ne b op (by omega)]
  cases right with
  | none => exact .pure ⟨hcap, hbefore₁, fun _ h => by simp at h⟩
  | some right =>
    obtain ⟨-, l, hl, hright, hholds₁⟩ := hgrown₁ right rfl
    refine (hoperand right b₁).mono ?_
    rintro ⟨stop, b₂⟩ ⟨hcap₂, hkeep₂, hgrown₂⟩
    refine ⟨hcap₂.trans hcap, fun i hi => ?_, fun stop' hstop => ?_⟩
    · rw [hkeep₂ i (by omega), hbefore₁ i hi]
    · obtain ⟨hle, r, hr, hend, hholds₂⟩ := hgrown₂ stop' hstop
      refine ⟨hcap ▸ hle, .node o l r, ⟨o, l, r, rfl, hl, hr⟩, ?_, ?_⟩
      · simp only [Tree.size]
        omega
      · have hroot : b₂.Holds slot [o.opcode] := by
          have h := b₂.holds_singleton slot
          rwa [hkeep₂ slot (by omega), hroot₁, hop] at h
        have hleft : b₂.Holds (slot + 1) l.encode :=
          hholds₁.congr fun i _ hi => hkeep₂ i (by rw [Tree.length_encode] at hi; omega)
        have hoperands : b₂.Holds (slot + 1) (l.encode ++ r.encode) :=
          hleft.append (by rwa [Tree.length_encode, ← hright])
        exact hroot.append hoperands

/-- The trees of at most the given height over the first `terminals` terminals. -/
def Small (terminals depth : Nat) (t : Tree) : Prop :=
  t.height ≤ depth ∧ SlotsBelow terminals t.encode

/-- A terminal is a small tree of any height. -/
theorem small_leaf {terminals depth : Nat} {k : Fin 110} (hk : k.val < terminals) :
    Small terminals depth (.leaf k) := by
  refine ⟨Nat.zero_le _, ?_⟩
  intro op hop _
  obtain rfl := List.mem_singleton.mp hop
  have hk' := k.isLt
  rw [UInt8.toNat_ofNat']
  omega

/-- An operator with small operands is a small tree of one more level. -/
theorem small_node {terminals depth : Nat} {op : Operator} {left right : Tree}
    (hl : Small terminals depth left) (hr : Small terminals depth right) :
    Small terminals (depth + 1) (.node op left right) := by
  refine ⟨?_, fun code hcode hlt => ?_⟩
  · have := hl.1
    have := hr.1
    simp only [Tree.height]
    omega
  · simp only [Tree.encode, List.mem_cons, List.mem_append] at hcode
    obtain rfl | hcode | hcode := hcode
    · exact absurd hlt op.not_opcode_lt
    · exact hl.2 code hcode hlt
    · exact hr.2 code hcode hlt

/-- **An operand is grown as a small tree.**

**Proof sketch.** Induction on the depth budget. Without a budget a terminal is placed; otherwise
the coin decides between a terminal and an operator whose operands have one level less. -/
theorem yields_growOperand {terminals : Nat} (hpos : 0 < terminals) (hle : terminals ≤ 110)
    (depth slot : Nat) (b : Buffer) :
    Draw.Yields ((growOperand terminals depth slot : Growing σ (Option Nat)).run b)
      (Grown (Small terminals depth) slot b) := by
  have hleaf : ∀ depth slot b, slot < b.capacity →
      Draw.Yields ((growLeaf terminals slot : Growing σ (Option Nat)).run b)
        (Grown (Small terminals depth) slot b) := fun depth slot b h =>
    (yields_growLeaf hpos hle h).mono fun r hr => hr.mono fun t ⟨k, hk, ht⟩ => ht ▸ small_leaf hk
  induction depth generalizing slot b with
  | zero =>
    simp only [growOperand, StateT.run_bind, StateT.run_get, pure_bind]
    split
    · exact hleaf 0 slot b ‹_›
    · exact .pure grown_none
  | succ depth ih =>
    simp only [growOperand, StateT.run_bind, StateT.run_get, pure_bind]
    split
    · simp only [StateT.run_bind, StateT.run_monadLift, bind_assoc, pure_bind]
      refine (Draw.yields_coin (by decide +kernel)).bind ?_
      intro heads _
      split
      · refine (yields_growNode ih slot b).mono fun r hr => hr.mono ?_
        rintro t ⟨op, left, right, rfl, hl, hr⟩
        exact small_node hl hr
      · exact hleaf (depth + 1) slot b ‹_›
    · exact .pure grown_none

/-- The trees that are grown from the first slot: an operator with operands of one level less than
the budget, and of no level at all if there is no budget. -/
def Rooted (terminals depth : Nat) (t : Tree) : Prop :=
  ∃ op left right, t = .node op left right ∧
    Small terminals (depth - 1) left ∧ Small terminals (depth - 1) right

/-- **What `grow` leaves behind** at the first slot. -/
theorem yields_grow {terminals : Nat} (hpos : 0 < terminals) (hle : terminals ≤ 110) (depth : Nat)
    (b : Buffer) :
    Draw.Yields ((grow terminals depth 0 : Growing σ (Option Nat)).run b)
      (Grown (Rooted terminals depth) 0 b) := by
  simp only [grow, if_true, StateT.run_bind, StateT.run_get, pure_bind]
  split
  · exact yields_growNode (yields_growOperand hpos hle (depth - 1)) 0 b
  · exact .pure grown_none

/-- Programs grown until one fits encode trees that are grown from the first slot.

**Proof sketch.** Induction on the attempts: the first that gives an end gives a tree in the slots
from the first one on, and those are what is taken. -/
theorem yields_growUntilFit {terminals : Nat} (hpos : 0 < terminals) (hle : terminals ≤ 110)
    (depth attempts : Nat) (b : Buffer) :
    Draw.Yields ((growUntilFit terminals depth attempts : Growing σ Program).run b) fun r =>
      r.2.capacity = b.capacity ∧
        ∃ t : Tree, Rooted terminals depth t ∧ t.size ≤ b.capacity ∧ r.1 = ⟨t.encode⟩ := by
  induction attempts generalizing b with
  | zero => exact fun _ => rfl
  | succ attempts ih =>
    simp only [growUntilFit, StateT.run_bind]
    refine (yields_grow hpos hle depth b).bind ?_
    rintro ⟨stop, b₁⟩ ⟨hcap, _, hgrown⟩
    have hcap : b₁.capacity = b.capacity := hcap
    cases stop with
    | none => exact (ih b₁).mono fun r hr => by rwa [hcap] at hr
    | some stop =>
      simp only [StateT.run_bind, StateT.run_get, pure_bind, StateT.run_pure]
      obtain ⟨hstop, t, ht, hsize, hholds⟩ := hgrown stop rfl
      rw [Nat.zero_add] at hsize
      refine .pure ⟨hcap, t, ht, hsize ▸ hstop, ?_⟩
      rw [hsize, ← Tree.length_encode, hholds.take_eq]

end Growing

namespace Generator

/-- **A generator gives trees that are grown from the first slot** and fit into its buffer, and it
keeps its limits. -/
theorem yields_generate_rooted {g : Generator} (hpos : 0 < g.terminals) (hle : g.terminals ≤ 110) :
    Draw.Yields (g.generate : Draw σ (Program × Generator)) fun r =>
      (∃ t : Tree, Growing.Rooted g.terminals g.depth t ∧ t.size ≤ g.buffer.capacity ∧
        r.1 = ⟨t.encode⟩) ∧
      r.2.buffer.capacity = g.buffer.capacity ∧ r.2.terminals = g.terminals ∧
        r.2.depth = g.depth := by
  intro supply
  have h := Growing.yields_growUntilFit (σ := σ) hpos hle g.depth supply.left g.buffer
  exact (h supply).bind fun r hr => ⟨hr.2, hr.1, rfl, rfl⟩

/-- **A generator gives programs within its limits**, and keeps them. -/
theorem yields_generate {g : Generator} (hpos : 0 < g.terminals) (hle : g.terminals ≤ 110) :
    Draw.Yields (g.generate : Draw σ (Program × Generator)) fun r =>
      r.1.Fits g.buffer.capacity g.terminals ∧ r.2.buffer.capacity = g.buffer.capacity ∧
        r.2.terminals = g.terminals := by
  refine (yields_generate_rooted hpos hle).mono ?_
  rintro ⟨_, g'⟩ ⟨⟨t, ⟨op, left, right, rfl, hl, hr⟩, hsize, rfl⟩, hcapacity, hterminals, -⟩
  refine ⟨⟨Tree.isComplete_encode _, ?_, (Growing.small_node hl hr).2⟩, hcapacity, hterminals⟩
  rw [Program.length, Tree.length_encode]
  exact hsize

/-- As many programs as asked for are added, all of them within the limits of the generator.

**Proof sketch.** Induction on the number of programs: each is added behind those before it. -/
theorem yields_generateMany {maxLength terminals : Nat} (hpos : 0 < terminals)
    (hle : terminals ≤ 110) (n : Nat) (g : Generator) (hbuffer : g.buffer.capacity = maxLength)
    (hterminals : g.terminals = terminals) (done : Array Program)
    (hdone : ∀ p ∈ done, p.Fits maxLength terminals) :
    Draw.Yields (generateMany n g done : Draw σ (Array Program)) fun programs =>
      programs.size = done.size + n ∧ ∀ p ∈ programs, p.Fits maxLength terminals := by
  induction n generalizing g done with
  | zero => exact .pure ⟨rfl, hdone⟩
  | succ n ih =>
    subst hbuffer hterminals
    refine (yields_generate hpos hle).bind ?_
    rintro ⟨p, g'⟩ ⟨hp, hcap, hterms⟩
    refine (ih g' hcap hterms (done.push p) ?_).mono fun programs h => ?_
    · intro q hq
      rcases Array.mem_push.mp hq with hq | rfl
      · exact hdone q hq
      · exact hp
    · refine ⟨?_, h.2⟩
      rw [h.1, Array.size_push]
      omega

end Generator

end SymbolicRegression
