import SymbolicRegression.Proofs.Breeding.Capacity
import SymbolicRegression.Proofs.Program.Recognition

set_option autoImplicit false
set_option relaxedAutoImplicit false

/-!
# The programs of a generator

A generator keeps its buffer from one call to the next, with whatever subtrees and abandoned
attempts have left there. Its limits never change, and they bound all programs that it gives: the
length by the capacity of the buffer, the height by the depth budget, and the terminals by their
number. A program starts with an operator even if there is no budget.

## Main definitions

* `SymbolicRegression.Generator.Used` — a generator after any number of calls.

## Main results

* `SymbolicRegression.Tree.size_lt_two_pow` — a low tree is small.
* `SymbolicRegression.Generator.Used.limits` — calls do not change the limits.
* `SymbolicRegression.Generator.Used.yields_wellFormed` — what a generator gives after any calls.
-/

namespace SymbolicRegression

/-! ## Trees over numbered terminals -/

/-- **A low tree is small**: every level holds at most twice as many nodes as the one above it. -/
theorem Tree.size_lt_two_pow (t : Tree) : t.size < 2 ^ (t.height + 1) := by
  induction t with
  | leaf slot => exact Nat.lt_two_pow_self
  | node op left right hl hr =>
    have hl' : 2 ^ (left.height + 1) ≤ 2 ^ (max left.height right.height + 1) :=
      Nat.pow_le_pow_right (by decide) (by omega)
    have hr' : 2 ^ (right.height + 1) ≤ 2 ^ (max left.height right.height + 1) :=
      Nat.pow_le_pow_right (by decide) (by omega)
    rw [size, height, Nat.pow_succ]
    omega

/-- The opcodes of a tree over the first `terminals` terminals are those of the operators and of
these terminals. -/
theorem Tree.opcode_mem {t : Tree} {terminals : Nat} (ht : SlotsBelow terminals t.encode)
    {op : Opcode} (hop : op ∈ t.encode) : 110 ≤ op ∧ op ≤ 113 ∨ op.toNat < terminals := by
  have hvalid : op.toNat < 114 := t.allValid_encode op hop
  rcases Nat.lt_or_ge op.toNat 110 with hlt | hge
  · exact .inr (ht op hop hlt)
  · exact .inl ⟨hge, Nat.le_of_lt_succ hvalid⟩

namespace Growing

variable {terminals depth : Nat} {t : Tree}

/-- The height of a tree that is grown from the first slot. -/
theorem Rooted.height_le (h : Rooted terminals depth t) : t.height ≤ max depth 1 := by
  obtain ⟨op, left, right, rfl, ⟨hl, -⟩, ⟨hr, -⟩⟩ := h
  rw [Tree.height]
  omega

/-- The terminals of a tree that is grown from the first slot. -/
theorem Rooted.slotsBelow (h : Rooted terminals depth t) : SlotsBelow terminals t.encode := by
  obtain ⟨op, left, right, rfl, hl, hr⟩ := h
  exact (small_node hl hr).2

/-- A tree that is grown from the first slot has two operands. -/
theorem Rooted.three_le_size (h : Rooted terminals depth t) : 3 ≤ t.size := by
  obtain ⟨op, left, right, rfl, -⟩ := h
  have hl := left.size_pos
  have hr := right.size_pos
  rw [Tree.size]
  omega

/-- A tree that is grown from the first slot starts with an operator. -/
theorem Rooted.head?_encode (h : Rooted terminals depth t) :
    ∃ o : Operator, t.encode.head? = some o.opcode := by
  obtain ⟨op, left, right, rfl, -⟩ := h
  exact ⟨op, rfl⟩

end Growing

namespace Generator

/-! ## Calls on one generator -/

/-- A generator that has been made for the limits and has then been called for any subtrees, whether
or not they fit, and for any programs, on any random words. -/
inductive Used (maxLength terminals depth : Nat) : Generator → Prop
  /-- A generator is made. -/
  | fresh : Used maxLength terminals depth (Generator.fresh maxLength terminals depth)
  /-- It is called for a subtree. -/
  | grown {σ : Type} [WordSource σ] {g : Generator} (h : Used maxLength terminals depth g)
      {budget slot : Nat} {supply : Supply σ} {r : (Option Nat × Generator) × Supply σ}
      (hrun : (g.grow budget slot).run supply = .ok r) : Used maxLength terminals depth r.1.2
  /-- It is called for a program. -/
  | generated {σ : Type} [WordSource σ] {g : Generator} (h : Used maxLength terminals depth g)
      {supply : Supply σ} {r : (Program × Generator) × Supply σ}
      (hrun : g.generate.run supply = .ok r) : Used maxLength terminals depth r.1.2

variable {σ : Type} [WordSource σ]

/-- A call for a subtree changes no limit. -/
theorem gives_grow_limits (g : Generator) (depth slot : Nat) :
    Draw.Gives (g.grow depth slot : Draw σ (Option Nat × Generator)) fun r =>
      r.2.buffer.capacity = g.buffer.capacity ∧ r.2.terminals = g.terminals ∧
        r.2.depth = g.depth := by
  refine (Growing.gives_grow g.terminals depth slot g.buffer).bind ?_
  rintro ⟨stop, _⟩ ⟨code, rfl, -⟩
  exact .pure ⟨Buffer.capacity_writeAll _ _ _, rfl, rfl⟩

/-- **Calls do not change the limits.**

**Proof sketch.** Induction on the calls: a call writes opcodes into the buffer and does nothing
else to the generator. -/
theorem Used.limits {maxLength terminals depth : Nat} (hpos : 0 < terminals)
    (hle : terminals ≤ 110) {g : Generator} (h : g.Used maxLength terminals depth) :
    g.buffer.capacity = maxLength ∧ g.terminals = terminals ∧ g.depth = depth := by
  induction h with
  | fresh => exact ⟨rfl, rfl, rfl⟩
  | grown _ hrun ih =>
    obtain ⟨rfl, rfl, rfl⟩ := ih
    exact gives_grow_limits _ _ _ _ _ hrun
  | @generated _ _ g _ supply r hrun ih =>
    obtain ⟨rfl, rfl, rfl⟩ := ih
    exact ((yields_generate_rooted hpos hle supply).of_eq_ok hrun).2

/-- **What a generator gives, after any calls.** A program is exactly one formula of at least three
and at most `maxLength` opcodes, each of which is one of the four operators or one of the terminals.
It starts with an operator, and its tree is no higher than the depth budget, or of height one if
there is no budget, which bounds its length once more. The only fault that a call can end in is the
lack of random words. -/
theorem Used.yields_wellFormed {maxLength terminals depth : Nat} (hpos : 0 < terminals)
    (hle : terminals ≤ 110) {g : Generator} (hg : g.Used maxLength terminals depth) :
    Draw.Yields (g.generate : Draw σ (Program × Generator)) fun r =>
      r.1.IsComplete ∧ 3 ≤ r.1.length ∧ r.1.length ≤ maxLength ∧
      (∃ o : Operator, r.1.code.head? = some o.opcode) ∧
      (∀ op ∈ r.1.code, 110 ≤ op ∧ op ≤ 113 ∨ op.toNat < terminals) ∧
      (∃ t : Tree, r.1.code = t.encode ∧ t.height ≤ max depth 1) ∧
      r.1.length ≤ 2 ^ (max depth 1 + 1) - 1 := by
  obtain ⟨rfl, rfl, rfl⟩ := hg.limits hpos hle
  refine (yields_generate_rooted hpos hle).mono ?_
  rintro ⟨_, g'⟩ ⟨⟨t, ht, hsize, rfl⟩, -⟩
  have hlength : (Program.mk t.encode).length = t.size := t.length_encode
  have hheight : 2 ^ (t.height + 1) ≤ 2 ^ (max g.depth 1 + 1) :=
    Nat.pow_le_pow_right (by decide) (Nat.succ_le_succ ht.height_le)
  have hsmall := t.size_lt_two_pow
  simp only [hlength]
  refine ⟨t.isComplete_encode, ht.three_le_size, hsize, ht.head?_encode, ?_,
    ⟨t, rfl, ht.height_le⟩, by omega⟩
  intro op hop
  exact Tree.opcode_mem ht.slotsBelow hop

/-- A generator has given up a difference that has filled its buffer of three slots. On the words
that are left it gives a product. -/
theorem Used.yields_wellFormed_sample :
    ∃ (g : Generator) (words : Supply Cycle) (r : (Program × Generator) × Supply Cycle),
      (g.Used 3 2 2 ∧ g.buffer.take 3 = [110, 111, 1]) ∧ g.generate.run words = .ok r ∧
        r.1.1.code = [112, 0, 1] ∧ r.1.1.IsComplete ∧ 3 ≤ r.1.1.length ∧ r.1.1.length ≤ 3 ∧
        ∃ t : Tree, r.1.1.code = t.encode ∧ t.height ≤ max 2 1 := by
  let words : Supply Cycle := ⟨.ofList [0, 0, 0x4000000000000000, 0x8000000000000000,
    0x8000000000000000, 0x8000000000000000, 0, 0x8000000000000000, 0x8000000000000000], 9⟩
  have htest : (((Generator.fresh 3 2 2).grow 2 0).run words).toOption.any (fun r =>
      r.1.2.buffer.take 3 = [110, 111, 1] ∧
        (r.1.2.generate.run r.2).toOption.any (·.1.1.code = [112, 0, 1])) = true := by
    decide +kernel
  rcases hgrown : ((Generator.fresh 3 2 2).grow 2 0).run words with fault | ⟨⟨stop, g⟩, words'⟩
  · rw [hgrown] at htest
    cases htest
  rw [hgrown] at htest
  obtain ⟨hbuffer, htest⟩ := of_decide_eq_true htest
  rcases hgenerated : g.generate.run words' with fault | r
  · simp only [hgenerated] at htest
    cases htest
  simp only [hgenerated] at htest
  have hg : g.Used 3 2 2 := .grown .fresh hgrown
  obtain ⟨hcomplete, hlong, hshort, -, -, htree, -⟩ :=
    (hg.yields_wellFormed (by decide) (by decide) words').of_eq_ok hgenerated
  exact ⟨g, words', r, ⟨hg, hbuffer⟩, hgenerated, of_decide_eq_true htest, hcomplete, hlong,
    hshort, htree⟩

end Generator

end SymbolicRegression
