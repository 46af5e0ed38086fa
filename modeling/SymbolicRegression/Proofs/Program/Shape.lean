import Mathlib.Algebra.Ring.Nat
import Mathlib.Tactic.Common
import SymbolicRegression.Program.Tree

set_option autoImplicit false
set_option relaxedAutoImplicit false

/-!
# Sequences of opcodes as trees

The one-pass search for the end of a subtree keeps a single number, the count of subtrees still
awaited. Here it is shown to read exactly the pre-order encodings of trees: a sequence is complete
if and only if it encodes a tree, and the search started inside an encoding stops where the
subtree rooted there does.

## Main definitions

* `SymbolicRegression.Tree.subtree?` — the subtree rooted at a pre-order position.
* `SymbolicRegression.Tree.replace` — a tree with another tree at a pre-order position.
* `SymbolicRegression.Program.Fits` — a complete program within limits of length and terminals.

## Main results

* `SymbolicRegression.Tree.encode_append_inj` — no encoding is the beginning of another.
* `SymbolicRegression.forestEnd_encode_append` — the search passes over an encoded tree.
* `SymbolicRegression.Program.isComplete_iff_exists_encode` — the complete programs are the
  encodings of trees.
* `SymbolicRegression.Tree.subtreeEnd_encode` — where the subtree at a position stops.
* `SymbolicRegression.Tree.encode_replace` — replacing a subtree, on the sequence of opcodes.
-/

namespace SymbolicRegression

/-! ## Opcodes -/

namespace Node

/-- The opcode of a slot stands for that slot. -/
@[simp] theorem ofOpcode?_ofNat (slot : Fin 110) :
    ofOpcode? (UInt8.ofNat slot) = some (.terminal slot) := by
  revert slot
  decide

/-- The opcode of an operator stands for that operator. -/
@[simp] theorem ofOpcode?_opcode (op : Operator) : ofOpcode? op.opcode = some (.operator op) := by
  cases op <;> rfl

/-- The opcodes of terminals are those below the first operator, and name their slot. -/
theorem ofOpcode?_eq_terminal_iff {op : Opcode} {slot : Nat} :
    ofOpcode? op = some (.terminal slot) ↔ op < Operator.firstOpcode ∧ op.toNat = slot := by
  unfold ofOpcode?
  split
  · simp_all
  · rename_i hop
    cases Operator.ofOpcode? op <;> simp [hop]

/-- An opcode stands for an operator only if it is the opcode of that operator. -/
theorem eq_opcode_of_ofOpcode? {op : Opcode} {o : Operator}
    (h : ofOpcode? op = some (.operator o)) : op = o.opcode := by
  unfold ofOpcode? at h
  split at h
  · simp at h
  · unfold Operator.ofOpcode? at h
    split at h <;> simp at h <;> subst h <;> rfl

end Node

/-- The opcode of an operator lies past those of the terminals. -/
theorem Operator.not_opcode_lt (op : Operator) : ¬ op.opcode < firstOpcode := by
  cases op <;> decide

/-- The opcode of a slot lies among those of the terminals. -/
theorem Operator.ofNat_lt_firstOpcode (slot : Fin 110) : UInt8.ofNat slot < firstOpcode := by
  revert slot
  decide

/-! ## Encodings -/

namespace Tree

/-- **No encoding is the beginning of another**: the encoding that a sequence of opcodes starts
with determines its tree, and so also what is left of the sequence.

**Proof sketch.** Induction on the first tree. The first opcode stands for one node only, so both
trees are leaves of one slot, or both have the same operator; then the operands are compared in
turn. -/
theorem encode_append_inj {t t' : Tree} {rest rest' : List Opcode}
    (h : t.encode ++ rest = t'.encode ++ rest') : t = t' ∧ rest = rest' := by
  induction t generalizing t' rest rest' with
  | leaf slot =>
    cases t' with
    | leaf slot' =>
      obtain ⟨hop, hrest⟩ := List.cons.inj h
      have hnode := congrArg Node.ofOpcode? hop
      simp only [Node.ofOpcode?_ofNat, Option.some.injEq, Node.terminal.injEq] at hnode
      exact ⟨congrArg leaf (Fin.ext hnode), hrest⟩
    | node op' left' right' =>
      have hnode := congrArg Node.ofOpcode? (List.cons.inj h).1
      simp at hnode
  | node op left right hl hr =>
    cases t' with
    | leaf slot' =>
      have hnode := congrArg Node.ofOpcode? (List.cons.inj h).1
      simp at hnode
    | node op' left' right' =>
      obtain ⟨hop, htail⟩ := List.cons.inj h
      have hnode := congrArg Node.ofOpcode? hop
      simp only [Node.ofOpcode?_opcode, Option.some.injEq, Node.operator.injEq] at hnode
      simp only [List.append_eq, List.append_assoc] at htail
      obtain ⟨rfl, hback⟩ := hl htail
      obtain ⟨rfl, hrest⟩ := hr hback
      exact ⟨by rw [hnode], hrest⟩

/-- Different trees have different encodings. -/
theorem encode_inj {t t' : Tree} : t.encode = t'.encode ↔ t = t' := by
  constructor
  · intro h
    have happend : t.encode ++ [] = t'.encode ++ [] := by rw [h]
    exact (encode_append_inj happend).1
  · rintro rfl
    rfl

end Tree

/-! ## The search for the end of a subtree -/

/-- If nothing is awaited the search stops at once. -/
@[simp] theorem forestEnd_zero (code : List Opcode) (offset : Nat) :
    forestEnd code 0 offset = some offset := by
  cases code <;> rfl

/-- **The search passes over an encoded tree**: one subtree less is awaited behind it, and the
offset has grown by its size.

**Proof sketch.** Induction on the tree. A terminal takes one step. An operator raises the number
of awaited subtrees by one, and its two operands are passed over in turn. -/
theorem forestEnd_encode_append (t : Tree) (rest : List Opcode) (awaited offset : Nat) :
    forestEnd (t.encode ++ rest) (awaited + 1) offset =
      forestEnd rest awaited (offset + t.size) := by
  induction t generalizing rest awaited offset with
  | leaf slot => simp [Tree.encode, Tree.size, forestEnd]
  | node op left right hl hr =>
    simp only [Tree.encode, List.cons_append, List.append_assoc, forestEnd, Node.ofOpcode?_opcode]
    rw [hl, hr, Tree.size]
    congr 1
    omega

/-- What the search passes over is a row of encoded trees, one for each subtree awaited.

**Proof sketch.** Induction along the search. A terminal is a tree of its own; an operator takes
the first two of the trees found behind it as its operands. -/
theorem exists_trees_of_forestEnd {code : List Opcode} {awaited offset stop : Nat}
    (h : forestEnd code awaited offset = some stop) :
    ∃ (ts : List Tree) (rest : List Opcode), ts.length = awaited ∧
      code = ts.flatMap Tree.encode ++ rest ∧ stop = offset + (ts.map Tree.size).sum := by
  induction code generalizing awaited offset with
  | nil =>
    cases awaited with
    | zero => exact ⟨[], [], rfl, rfl, by simpa using h.symm⟩
    | succ awaited => simp [forestEnd] at h
  | cons op code ih =>
    cases awaited with
    | zero => exact ⟨[], op :: code, rfl, rfl, by simpa using h.symm⟩
    | succ awaited =>
      rcases hop : Node.ofOpcode? op with _ | slot | o
      · simp [forestEnd, hop] at h
      · simp only [forestEnd, hop] at h
        obtain ⟨ts, rest, hlen, hcode, hstop⟩ := ih h
        obtain ⟨hlt, rfl⟩ := Node.ofOpcode?_eq_terminal_iff.mp hop
        refine ⟨.leaf ⟨op.toNat, hlt⟩ :: ts, rest, by simp [hlen], ?_, ?_⟩
        · simp [Tree.encode, hcode]
        · simp only [hstop, List.map_cons, List.sum_cons, Tree.size]
          omega
      · simp only [forestEnd, hop] at h
        obtain ⟨ts, rest, hlen, hcode, hstop⟩ := ih h
        obtain ⟨left, ts, rfl⟩ := List.exists_cons_of_length_eq_add_one hlen
        obtain ⟨right, ts, rfl⟩ := List.exists_cons_of_length_eq_add_one (Nat.succ.inj hlen)
        refine ⟨.node o left right :: ts, rest, by simpa using hlen, ?_, ?_⟩
        · simp [Tree.encode, hcode, Node.eq_opcode_of_ofOpcode? hop]
        · simp only [hstop, List.map_cons, List.sum_cons, Tree.size]
          omega

/-! ## Complete programs -/

/-- The encoding of a tree is a complete program. -/
theorem Tree.isComplete_encode (t : Tree) : (Program.mk t.encode).IsComplete := by
  have h := forestEnd_encode_append t [] 0 0
  simpa [Program.IsComplete, subtreeEnd, Tree.length_encode] using h

/-- **The complete programs are the encodings of trees.** -/
theorem Program.isComplete_iff_exists_encode (p : Program) :
    p.IsComplete ↔ ∃ t : Tree, p.code = t.encode := by
  constructor
  · intro h
    obtain ⟨ts, rest, hlen, hcode, hstop⟩ := exists_trees_of_forestEnd h
    obtain ⟨t, rfl⟩ := List.length_eq_one_iff.mp hlen
    have hrest : rest = [] := by
      have := congrArg List.length hcode
      simp only [List.drop_zero, List.flatMap_cons, List.flatMap_nil, List.append_nil,
        List.length_append, Tree.length_encode] at this
      simp only [List.map_cons, List.map_nil, List.sum_cons, List.sum_nil] at hstop
      exact List.eq_nil_of_length_eq_zero (by omega)
    exact ⟨t, by simpa [hrest] using hcode⟩
  · rintro ⟨t, ht⟩
    have := t.isComplete_encode
    rwa [← ht] at this

/-- A complete program is the encoding of a tree. -/
theorem Program.IsComplete.exists_eq_encode {p : Program} (hp : p.IsComplete) :
    ∃ t : Tree, p = ⟨t.encode⟩ := by
  obtain ⟨t, ht⟩ := p.isComplete_iff_exists_encode.mp hp
  exact ⟨t, congrArg Program.mk ht⟩

namespace Tree

/-- A tree has at least one node. -/
theorem size_pos (t : Tree) : 0 < t.size := by
  cases t <;> simp [size]

/-! ## Subtrees by position -/

/-- The subtree rooted at a pre-order position, if the tree has that many nodes. -/
def subtree? : Tree → Nat → Option Tree
  | t, 0 => some t
  | leaf _, _ + 1 => none
  | node _ left right, i + 1 =>
    if i < left.size then left.subtree? i else right.subtree? (i - left.size)

/-- The tree with another tree in place of the subtree rooted at a pre-order position. -/
def replace : Tree → Nat → Tree → Tree
  | _, 0, new => new
  | leaf slot, _ + 1, _ => leaf slot
  | node op left right, i + 1, new =>
    if i < left.size then node op (left.replace i new) right
    else node op left (right.replace (i - left.size) new)

/-- Every position of a tree is the root of a subtree. -/
theorem exists_subtree? {t : Tree} {i : Nat} (h : i < t.size) : ∃ s, t.subtree? i = some s := by
  fun_induction subtree? t i with
  | case1 t => exact ⟨t, rfl⟩
  | case2 slot i => simp [size] at h
  | case3 op left right i hi ih => exact ih hi
  | case4 op left right i hi ih => exact ih (by simp only [size] at h; omega)

/-- **A subtree is a stretch of the encoding**: its opcodes stand at its position, and putting
another tree there replaces that stretch alone.

**Proof sketch.** Induction along the search for the position. In the left operand what follows
the stretch ends with the right operand; in the right operand the left one comes before it. -/
theorem exists_encode_eq {t s : Tree} {i : Nat} (h : t.subtree? i = some s) :
    ∃ front back : List Opcode, front.length = i ∧ t.encode = front ++ s.encode ++ back ∧
      ∀ new : Tree, (t.replace i new).encode = front ++ new.encode ++ back := by
  fun_induction subtree? t i with
  | case1 t =>
    obtain rfl := Option.some.inj h
    exact ⟨[], [], rfl, by simp, fun new => by simp [replace]⟩
  | case2 slot i => simp at h
  | case3 op left right i hi ih =>
    obtain ⟨front, back, hlen, hcode, hnew⟩ := ih h
    refine ⟨op.opcode :: front, back ++ right.encode, by simp [hlen], ?_, fun new => ?_⟩
    · simp [encode, hcode]
    · simp [replace, hi, encode, hnew]
  | case4 op left right i hi ih =>
    obtain ⟨front, back, hlen, hcode, hnew⟩ := ih h
    refine ⟨op.opcode :: (left.encode ++ front), back, ?_, ?_, fun new => ?_⟩
    · simp only [List.length_cons, List.length_append, hlen, length_encode]
      omega
    · simp [encode, hcode]
    · simp [replace, hi, encode, hnew]

/-- The opcodes of a subtree stand at its position. -/
theorem drop_encode {t s : Tree} {i : Nat} (h : t.subtree? i = some s) :
    ∃ back : List Opcode, t.encode.drop i = s.encode ++ back := by
  obtain ⟨front, back, rfl, hcode, -⟩ := exists_encode_eq h
  exact ⟨back, by simp [hcode]⟩

/-- The opcodes between the root and the end of a subtree are its encoding. -/
theorem drop_take_encode {t s : Tree} {i : Nat} (h : t.subtree? i = some s) :
    (t.encode.take (i + s.size)).drop i = s.encode := by
  obtain ⟨front, back, rfl, hcode, -⟩ := exists_encode_eq h
  rw [hcode, ← s.length_encode, ← List.length_append, List.take_left, List.drop_left]

/-- **The search started at a position stops where the subtree rooted there does.** -/
theorem subtreeEnd_encode {t s : Tree} {i : Nat} (h : t.subtree? i = some s) :
    subtreeEnd t.encode i = some (i + s.size) := by
  obtain ⟨back, hback⟩ := drop_encode h
  rw [subtreeEnd, hback, forestEnd_encode_append, forestEnd_zero]

/-- A subtree lies within the tree. -/
theorem add_size_le {t s : Tree} {i : Nat} (h : t.subtree? i = some s) : i + s.size ≤ t.size := by
  obtain ⟨front, back, rfl, hcode, -⟩ := exists_encode_eq h
  have := congrArg List.length hcode
  simp only [List.length_append, length_encode] at this
  omega

/-- **Replacing a subtree, on the sequence of opcodes**: the opcodes before it, those of the new
tree, and those behind it. -/
theorem encode_replace {t s : Tree} {i : Nat} (h : t.subtree? i = some s) (new : Tree) :
    (t.replace i new).encode =
      t.encode.take i ++ new.encode ++ t.encode.drop (i + s.size) := by
  obtain ⟨front, back, rfl, hcode, hnew⟩ := exists_encode_eq h
  have hdrop : t.encode.drop (front.length + s.size) = back := by
    rw [hcode, ← length_encode, ← List.length_append]
    exact List.drop_left
  rw [hnew, hdrop, hcode]
  simp

/-- Only the positions of a tree are roots of subtrees. -/
theorem lt_size {t s : Tree} {i : Nat} (h : t.subtree? i = some s) : i < t.size := by
  have hle := add_size_le h
  have hpos := s.size_pos
  omega

/-- A tree that has been put at a position is the subtree there. -/
theorem subtree?_replace {t s : Tree} {i : Nat} (h : t.subtree? i = some s) (new : Tree) :
    (t.replace i new).subtree? i = some new := by
  fun_induction subtree? t i with
  | case1 t => simp [replace, subtree?]
  | case2 slot i => simp at h
  | case3 op left right i hi ih =>
    have hlt := lt_size (ih h)
    simp only [replace, hi, if_true, subtree?, hlt, ih h]
  | case4 op left right i hi ih => simp only [replace, hi, if_false, subtree?, ih h]

/-- Of two trees that are put at one position, the second stays. -/
theorem replace_replace {t s : Tree} {i : Nat} (h : t.subtree? i = some s) (new new' : Tree) :
    (t.replace i new).replace i new' = t.replace i new' := by
  fun_induction subtree? t i with
  | case1 t => simp [replace]
  | case2 slot i => simp at h
  | case3 op left right i hi ih =>
    have hlt : i < (left.replace i new).size := lt_size (subtree?_replace h new)
    simp only [replace, hi, if_true, hlt, ih h]
  | case4 op left right i hi ih => simp only [replace, hi, if_false, ih h]

/-- Putting a subtree where it is changes nothing. -/
theorem replace_self {t s : Tree} {i : Nat} (h : t.subtree? i = some s) : t.replace i s = t := by
  fun_induction subtree? t i with
  | case1 t => simpa [replace] using h.symm
  | case2 slot i => simp at h
  | case3 op left right i hi ih => simp only [replace, hi, if_true, ih h]
  | case4 op left right i hi ih => simp only [replace, hi, if_false, ih h]

end Tree

/-! ## Programs within limits -/

/-- Every terminal among the opcodes is one of the first `terminals`. -/
def SlotsBelow (terminals : Nat) (code : List Opcode) : Prop :=
  ∀ op ∈ code, op < Operator.firstOpcode → op.toNat < terminals

instance (terminals : Nat) (code : List Opcode) : Decidable (SlotsBelow terminals code) :=
  inferInstanceAs (Decidable (∀ op ∈ code, op < Operator.firstOpcode → op.toNat < terminals))

/-- A complete program of at most `maxLength` opcodes over the first `terminals` terminals. -/
structure Program.Fits (maxLength terminals : Nat) (p : Program) : Prop where
  /-- The program is exactly one formula. -/
  isComplete : p.IsComplete
  /-- It is no longer than allowed. -/
  length_le : p.length ≤ maxLength
  /-- It uses no other terminals. -/
  slotsBelow : SlotsBelow terminals p.code

end SymbolicRegression
