import SymbolicRegression.Proofs.Program.Traversal

set_option autoImplicit false
set_option relaxedAutoImplicit false

/-!
# The extents of subtrees

Whoever asks where the subtree at an opcode of a complete program ends gets an answer, at every
opcode. The stretches that these answers mark off are the encodings of the subtrees of one tree.
Two of them are apart or one lies in the other, and that of an operator is the operator followed by
the stretches of its two operands.

## Main results

* `SymbolicRegression.Tree.subtree?_add` — the subtrees of a subtree.
* `SymbolicRegression.Tree.exists_subtree?_within` — a stretch that begins in another ends in it.
* `SymbolicRegression.Tree.subtree?_operands` — the operands of an operator.
* `SymbolicRegression.Program.IsComplete.extents_form_tree` — the extents of a complete program.
-/

namespace SymbolicRegression

namespace Tree

variable {t s : Tree} {i : Nat}

/-- **The subtrees of a subtree** are subtrees of the whole tree, as many places further on as the
subtree is.

**Proof sketch.** Induction along the search for the position of the subtree. A position in it lies
in the same operand as the subtree does. -/
theorem subtree?_add {u : Tree} {j : Nat} (h : t.subtree? i = some s)
    (hu : s.subtree? j = some u) : t.subtree? (i + j) = some u := by
  fun_induction subtree? t i with
  | case1 t =>
    obtain rfl := Option.some.inj h
    rwa [Nat.zero_add]
  | case2 slot i => cases h
  | case3 op left right i hi ih =>
    have hlt := lt_size hu
    have hle := add_size_le h
    rw [Nat.succ_add, subtree?, if_pos (by omega)]
    exact ih h
  | case4 op left right i hi ih =>
    have hsub : i + j - left.size = i - left.size + j := by omega
    rw [Nat.succ_add, subtree?, if_neg (by omega), hsub]
    exact ih h

/-- **A stretch that begins in another ends in it.** -/
theorem exists_subtree?_within (h : t.subtree? i = some s) {j : Nat} (hij : i ≤ j)
    (hj : j < i + s.size) : ∃ u, t.subtree? j = some u ∧ j + u.size ≤ i + s.size := by
  obtain ⟨u, hu⟩ := exists_subtree? (t := s) (i := j - i) (by omega)
  have hle := add_size_le hu
  have hsub := subtree?_add h hu
  rw [Nat.add_sub_cancel' hij] at hsub
  exact ⟨u, hsub, by omega⟩

/-- **The operands of an operator**: the left one follows the operator, and the right one follows
the left one. -/
theorem subtree?_operands {op : Operator} {left right : Tree}
    (h : t.subtree? i = some (.node op left right)) :
    t.subtree? (i + 1) = some left ∧ t.subtree? (i + 1 + left.size) = some right := by
  have hleft : (node op left right).subtree? 1 = some left := by
    rw [subtree?, if_pos left.size_pos]
    cases left <;> rfl
  have hright : (node op left right).subtree? (1 + left.size) = some right := by
    rw [Nat.add_comm, subtree?, if_neg (Nat.lt_irrefl _), Nat.sub_self]
    cases right <;> rfl
  rw [Nat.add_assoc]
  exact ⟨subtree?_add h hleft, subtree?_add h hright⟩

/-- The opcode at the root of a subtree tells its kind. -/
theorem getElem?_encode (h : t.subtree? i = some s) : t.encode[i]? = s.encode.head? := by
  obtain ⟨front, back, rfl, hcode, -⟩ := exists_encode_eq h
  have hpos := s.size_pos
  rw [← s.length_encode] at hpos
  rw [hcode, List.append_assoc, List.getElem?_append_right (Nat.le_refl _), Nat.sub_self,
    List.getElem?_append_left hpos, List.head?_eq_getElem?]

/-- At the opcode of an operator stands a subtree with that operator at its root. -/
theorem exists_eq_node {op : Opcode} {o : Operator} (h : t.subtree? i = some s)
    (hget : t.encode[i]? = some op) (hop : Node.ofOpcode? op = some (.operator o)) :
    ∃ left right, s = .node o left right := by
  rw [getElem?_encode h] at hget
  cases s with
  | leaf slot =>
    obtain rfl := Option.some.inj hget
    simp at hop
  | node o' left right =>
    obtain rfl := Option.some.inj hget
    rw [Node.ofOpcode?_opcode, Option.some.injEq, Node.operator.injEq] at hop
    exact ⟨left, right, by rw [hop]⟩

end Tree

/-- The encoding of a tree is admitted. -/
theorem Program.ofOpcodes_encode (t : Tree) : ofOpcodes t.encode = .ok ⟨t.encode⟩ :=
  ofOpcodes_eq_iff.mpr (.admitted (treeEndsAt_length_iff.mpr ⟨t, rfl⟩))

namespace Tree

variable {t s : Tree} {i : Nat}

/-- **Two extents are apart, or one lies in the other.** -/
theorem extents_nested {j stop stop' : Nat} (hij : i < j) (hj : j < t.size)
    (hstop : subtreeEnd t.encode i = some stop) (hstop' : subtreeEnd t.encode j = some stop') :
    stop ≤ j ∨ stop' ≤ stop := by
  obtain ⟨s, hs⟩ := exists_subtree? (t := t) (i := i) (by omega)
  obtain rfl := Option.some.inj ((subtreeEnd_encode hs).symm.trans hstop)
  rcases Nat.lt_or_ge j (i + s.size) with hlt | hge
  · obtain ⟨u, hu, hle⟩ := exists_subtree?_within hs (Nat.le_of_lt hij) hlt
    obtain rfl := Option.some.inj ((subtreeEnd_encode hu).symm.trans hstop')
    exact .inr hle
  · exact .inl hge

/-- An operator ends behind its operands. -/
theorem add_size_node (i : Nat) (op : Operator) (left right : Tree) :
    i + (node op left right).size = i + 1 + left.size + right.size := by
  rw [size]
  omega

end Tree

/-- **The extents of a complete program form its tree.** The program encodes a tree, and at each of
its opcodes the search finds an end behind the opcode and within the program. The stretch up to it
is the encoding of the subtree rooted there, so it is a program of its own. Two such stretches are
apart, or one lies in the other. At an operator, the stretch of the left operand begins with the
next opcode, that of the right operand where the left one ends, and it ends where the stretch of the
operator does. -/
theorem Program.IsComplete.extents_form_tree {p : Program} (hp : p.IsComplete) :
    ∃ t : Tree, p.code = t.encode ∧
      (∀ i < p.length, ∃ s stop, t.subtree? i = some s ∧ subtreeEnd p.code i = some stop ∧
        i < stop ∧ stop ≤ p.length ∧ (p.code.take stop).drop i = s.encode ∧
        ofOpcodes ((p.code.take stop).drop i) = .ok ⟨(p.code.take stop).drop i⟩) ∧
      (∀ i j stop stop', i < j → j < p.length → subtreeEnd p.code i = some stop →
        subtreeEnd p.code j = some stop' → stop ≤ j ∨ stop' ≤ stop) ∧
      ∀ i op o, p.code[i]? = some op → Node.ofOpcode? op = some (.operator o) →
        ∃ left right middle stop, t.subtree? i = some (.node o left right) ∧
          subtreeEnd p.code i = some stop ∧ subtreeEnd p.code (i + 1) = some middle ∧
          subtreeEnd p.code middle = some stop ∧
          (p.code.take middle).drop (i + 1) = left.encode ∧
          (p.code.take stop).drop middle = right.encode := by
  obtain ⟨t, rfl⟩ := hp.exists_eq_encode
  have hlength : (Program.mk t.encode).length = t.size := t.length_encode
  simp only [hlength]
  refine ⟨t, rfl, fun i hi => ?_, fun i j stop stop' hij hj => Tree.extents_nested hij hj,
    fun i op o hget hop => ?_⟩
  · obtain ⟨s, hs⟩ := Tree.exists_subtree? hi
    have hpos := s.size_pos
    have hcode := Tree.drop_take_encode hs
    refine ⟨s, i + s.size, hs, Tree.subtreeEnd_encode hs, by omega, Tree.add_size_le hs, hcode, ?_⟩
    rw [hcode, ofOpcodes_encode]
  · have hi : i < t.size := by
      rw [← t.length_encode]
      exact (List.getElem?_eq_some_iff.mp hget).1
    obtain ⟨s, hs⟩ := Tree.exists_subtree? hi
    obtain ⟨left, right, rfl⟩ := Tree.exists_eq_node hs hget hop
    obtain ⟨hleft, hright⟩ := Tree.subtree?_operands hs
    have hstop := Tree.subtreeEnd_encode hs
    rw [Tree.add_size_node] at hstop
    exact ⟨left, right, i + 1 + left.size, i + 1 + left.size + right.size, hs, hstop,
      Tree.subtreeEnd_encode hleft, Tree.subtreeEnd_encode hright, Tree.drop_take_encode hleft,
      Tree.drop_take_encode hright⟩

/-- A product of a sum and a terminal: the sum is the left operand and ends where the terminal
begins. -/
theorem Program.IsComplete.extents_form_tree_sample :
    let p : Program := ⟨[112, 110, 0, 1, 2]⟩
    p.IsComplete ∧
      (∃ stop, subtreeEnd p.code 1 = some stop ∧ stop = 4 ∧
        ofOpcodes ((p.code.take stop).drop 1) = .ok ⟨(p.code.take stop).drop 1⟩) ∧
      ((4 : Nat) ≤ 2 ∨ (3 : Nat) ≤ 4) ∧
      ∃ middle stop, subtreeEnd p.code 1 = some middle ∧ subtreeEnd p.code middle = some stop ∧
        middle = 4 ∧ stop = 5 := by
  intro p
  have hp : p.IsComplete := by decide
  have hsum : subtreeEnd p.code 1 = some 4 := rfl
  obtain ⟨t, hcode, hextent, hnested, hoperands⟩ := hp.extents_form_tree
  obtain ⟨s, stop, hs, hstop, -, -, -, hadmitted⟩ := hextent 1 (by decide)
  obtain ⟨left, right, middle, stop', -, hend, hmiddle, hright, -, -⟩ :=
    hoperands 0 112 .mul rfl rfl
  obtain rfl := Option.some.inj (hsum.symm.trans hstop)
  obtain rfl := Option.some.inj (hsum.symm.trans hmiddle)
  obtain rfl : 5 = stop' := Option.some.inj ((rfl : subtreeEnd p.code 0 = some 5).symm.trans hend)
  exact ⟨hp, ⟨4, hsum, rfl, hadmitted⟩, hnested 1 2 4 3 (by decide) (by decide) rfl rfl,
    4, 5, hsum, hright, rfl, rfl⟩

end SymbolicRegression
