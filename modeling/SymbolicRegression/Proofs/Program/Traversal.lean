import Mathlib.Logic.Relation
import SymbolicRegression.Proofs.Program.Recognition

set_option autoImplicit false
set_option relaxedAutoImplicit false

/-!
# One count in place of a stack

The end of a subtree has a nested description: a terminal ends behind itself, and an operator ends
where its right operand does, which begins where its left operand ends. The search for it does not
nest. It goes over the opcodes once and keeps the number of subtrees still awaited. Here the two
are compared on every sequence of opcodes, whatever stands before the subtree, in it or behind it.

The search is also taken apart into its rounds, with a count that could fall below zero if the
rounds let it. That gives how many rounds there are and how large the count grows.

## Main definitions

* `SymbolicRegression.nestedEnd` — the end of a subtree by nested recursion.
* `SymbolicRegression.Search` — where the search stands between two rounds.
* `SymbolicRegression.Search.run` — the search, cut off after a number of rounds.
* `SymbolicRegression.Search.Next` — one round, while a subtree is awaited.

## Main results

* `SymbolicRegression.forestEnd_succ` — awaited subtrees are passed over one after another.
* `SymbolicRegression.subtreeEnd_eq_nestedEnd` — the search finds the end that nesting describes.
* `SymbolicRegression.Search.run_eq` — the search, in rounds.
* `SymbolicRegression.Search.InRange.of_reaches` — the count stays in range.
* `SymbolicRegression.subtreeEnd_of_stretch` — the search reads no more than the subtree.
* `SymbolicRegression.subtreeEnd_traverses` — all of it together.
-/

namespace SymbolicRegression

/-- The offset just past the subtree at `start`, by nested recursion. There is none if there is no
valid opcode, or if an operand has none. -/
def nestedEnd (code : List Opcode) (start : Nat) : Option { stop : Nat // start < stop } :=
  match h : code[start]? with
  | none => none
  | some op =>
    match Node.ofOpcode? op with
    | none => none
    | some (.terminal _) => some ⟨start + 1, Nat.lt_succ_self start⟩
    | some (.operator _) =>
      have : start < code.length := (List.getElem?_eq_some_iff.mp h).1
      (nestedEnd code (start + 1)).bind fun left =>
        (nestedEnd code left.val).map fun right =>
          ⟨right.val, Nat.lt_trans (Nat.lt_of_succ_lt left.property) right.property⟩
termination_by code.length - start
decreasing_by
  all_goals omega

/-! ## One round of the search -/

section Round

variable {code : List Opcode} {offset : Nat}

/-- Without an opcode nothing is found. -/
theorem forestEnd_drop_of_none (hget : code[offset]? = none) (awaited : Nat) :
    forestEnd (code.drop offset) (awaited + 1) offset = none := by
  rw [List.drop_eq_nil_of_le (List.getElem?_eq_none_iff.mp hget), forestEnd]

/-- A round of the search reads one opcode. -/
theorem forestEnd_drop_of_some {op : Opcode} (hget : code[offset]? = some op) (awaited : Nat) :
    forestEnd (code.drop offset) (awaited + 1) offset =
      match Node.ofOpcode? op with
      | none => none
      | some (.terminal _) => forestEnd (code.drop (offset + 1)) awaited (offset + 1)
      | some (.operator _) => forestEnd (code.drop (offset + 1)) (awaited + 2) (offset + 1) := by
  obtain ⟨hlt, rfl⟩ := List.getElem?_eq_some_iff.mp hget
  rw [List.drop_eq_getElem_cons hlt]
  rfl

end Round

/-! ## Nesting -/

/-- **Awaited subtrees are passed over one after another**: the search for the last of them is the
search for the first, and behind its end the search for the others.

**Proof sketch.** What the search for the first passes over is an encoded tree, and the search for
all of them passes over that tree, too. If the first has no end then the search for all finds none
either, since what it passes over would begin with a tree. -/
theorem forestEnd_succ (code : List Opcode) (awaited offset : Nat) :
    forestEnd code (awaited + 1) offset =
      (forestEnd code 1 offset).bind fun stop =>
        forestEnd (code.drop (stop - offset)) awaited stop := by
  cases hfirst : forestEnd code 1 offset with
  | some stop =>
    obtain ⟨ts, rest, hlength, rfl, rfl⟩ := exists_trees_of_forestEnd hfirst
    obtain ⟨t, rfl⟩ := List.length_eq_one_iff.mp hlength
    have hrest : (t.encode ++ rest).drop (offset + t.size - offset) = rest := by
      rw [Nat.add_sub_cancel_left, ← Tree.length_encode, List.drop_left]
    simp only [List.flatMap_cons, List.flatMap_nil, List.append_nil, List.map_cons, List.map_nil,
      List.sum_cons, List.sum_nil, Nat.add_zero, Option.bind_some, hrest]
    exact forestEnd_encode_append t rest awaited offset
  | none =>
    cases hall : forestEnd code (awaited + 1) offset with
    | none => rfl
    | some stop =>
      obtain ⟨ts, rest, hlength, rfl, -⟩ := exists_trees_of_forestEnd hall
      obtain ⟨t, ts, rfl⟩ := List.exists_cons_of_length_eq_add_one hlength
      rw [List.flatMap_cons, List.append_assoc, forestEnd_encode_append, forestEnd_zero] at hfirst
      cases hfirst

/-- The search goes forward. -/
theorem lt_of_subtreeEnd {code : List Opcode} {start stop : Nat}
    (h : subtreeEnd code start = some stop) : start < stop := by
  obtain ⟨ts, rest, hlength, -, rfl⟩ := exists_trees_of_forestEnd h
  obtain ⟨t, rfl⟩ := List.length_eq_one_iff.mp hlength
  have hpos := t.size_pos
  simp only [List.map_cons, List.map_nil, List.sum_cons, List.sum_nil]
  omega

/-- **An operator ends where its right operand does**, and that begins where the left one ends. -/
theorem subtreeEnd_of_operator {code : List Opcode} {start : Nat} {op : Opcode} {o : Operator}
    (hget : code[start]? = some op) (hop : Node.ofOpcode? op = some (.operator o)) :
    subtreeEnd code start = (subtreeEnd code (start + 1)).bind (subtreeEnd code) := by
  rw [subtreeEnd, forestEnd_drop_of_some hget]
  simp only [hop]
  rw [forestEnd_succ]
  refine Option.bind_congr fun right hright => ?_
  have hlt := lt_of_subtreeEnd hright
  rw [List.drop_drop, Nat.add_sub_cancel' (Nat.le_of_lt hlt), subtreeEnd]

/-- **The search finds the end that nesting describes**, on every sequence of opcodes.

**Proof sketch.** Induction along the nested recursion. -/
theorem subtreeEnd_eq_nestedEnd (code : List Opcode) (start : Nat) :
    subtreeEnd code start = (nestedEnd code start).map Subtype.val := by
  fun_induction nestedEnd code start with
  | case1 start hget => exact forestEnd_drop_of_none hget 0
  | case2 start op hget hop =>
    rw [subtreeEnd, forestEnd_drop_of_some hget]
    simp only [hop, Option.map_none]
  | case3 start op hget slot hop =>
    rw [subtreeEnd, forestEnd_drop_of_some hget]
    simp only [hop, forestEnd_zero, Option.map_some]
  | case4 start op hget o hop _ ihleft ihright =>
    rw [subtreeEnd_of_operator hget hop, ihleft]
    cases hleft : nestedEnd code (start + 1) with
    | none => rfl
    | some left =>
      simp only [Option.map_some, Option.bind_some, ihright left, Option.map_map]
      rfl

/-! ## Rounds -/

/-- Where the search stands between two rounds. The count is an integer, so that too many rounds
could take it below zero. -/
structure Search where
  /-- The number of subtrees awaited. -/
  awaited : Int
  /-- The offset that is read next. -/
  offset : Nat

namespace Search

/-- One round: a terminal ends a subtree, and an operator makes one more awaited. Without a valid
opcode the search is given up. -/
def round (code : List Opcode) (s : Search) : Option Search :=
  match code[s.offset]?.bind Node.ofOpcode? with
  | none => none
  | some (.terminal _) => some ⟨s.awaited - 1, s.offset + 1⟩
  | some (.operator _) => some ⟨s.awaited + 1, s.offset + 1⟩

/-- What the search finds if rounds are made while a subtree is awaited, but no more of them than
given; nothing if these are too few. -/
def run (code : List Opcode) : (rounds : Nat) → Search → Option (Option Nat)
  | 0, s => if 0 < s.awaited then none else some (some s.offset)
  | rounds + 1, s =>
    if 0 < s.awaited then
      match s.round code with
      | none => some none
      | some s' => run code rounds s'
    else some (some s.offset)

/-- While a subtree is awaited a round leads from the one place of the search to the other. -/
def Next (code : List Opcode) (s s' : Search) : Prop := 0 < s.awaited ∧ s.round code = some s'

/-- **The search, in rounds.** Those that the opcodes from its offset on allow for, and one more to
notice their end, are enough for it.

**Proof sketch.** Induction on the rounds: each one is one opcode of the search. -/
theorem run_eq {code : List Opcode} {rounds offset : Nat} (h : code.length - offset < rounds)
    (awaited : Nat) :
    run code rounds ⟨awaited, offset⟩ = some (forestEnd (code.drop offset) awaited offset) := by
  induction rounds generalizing offset awaited with
  | zero => omega
  | succ rounds ih =>
    cases awaited with
    | zero => rw [run, if_neg (by simp), forestEnd_zero]
    | succ awaited =>
      rw [run, if_pos (by simp), round]
      cases hget : code[offset]? with
      | none => rw [forestEnd_drop_of_none hget]; rfl
      | some op =>
        have hlt := (List.getElem?_eq_some_iff.mp hget).1
        rw [forestEnd_drop_of_some hget]
        rcases hop : Node.ofOpcode? op with _ | slot | o
        · simp [hop]
        · have hcount : ((awaited + 1 : Nat) : Int) - 1 = awaited := by omega
          simp only [Option.bind_some, hop, hcount]
          exact ih (by omega) awaited
        · have hcount : ((awaited + 1 : Nat) : Int) + 1 = (awaited + 2 : Nat) := by omega
          simp only [Option.bind_some, hop, hcount]
          exact ih (by omega) (awaited + 2)

/-- What is known of every place of a search that began at `start`: it has read one opcode for each
subtree awaited, or all but one, and no opcode past the end. -/
structure InRange (code : List Opcode) (start : Nat) (s : Search) : Prop where
  /-- The count has not fallen below zero. -/
  nonneg : 0 ≤ s.awaited
  /-- An opcode makes at most one more subtree awaited. -/
  awaited_le : s.awaited + start ≤ s.offset + 1
  /-- Only opcodes have been read. -/
  offset_le : s.offset ≤ max start code.length

variable {code : List Opcode} {start : Nat} {s s' : Search}

/-- A search begins in range. -/
theorem InRange.begin (code : List Opcode) (start : Nat) : InRange code start ⟨1, start⟩ where
  nonneg := Int.one_nonneg
  awaited_le := by
    show (1 : Int) + start ≤ start + 1
    omega
  offset_le := Nat.le_max_left _ _

/-- A round stays in range. -/
theorem InRange.next (h : InRange code start s) (hnext : Next code s s') :
    InRange code start s' := by
  obtain ⟨hpos, hround⟩ := hnext
  obtain ⟨hnonneg, hawaited, hoffset⟩ := h
  rw [round] at hround
  split at hround
  · cases hround
  · rename_i slot hnode
    obtain ⟨op, hget, -⟩ := Option.bind_eq_some_iff.mp hnode
    have hlt := (List.getElem?_eq_some_iff.mp hget).1
    obtain rfl := Option.some.inj hround
    exact ⟨by dsimp only; omega, by push_cast; omega, by dsimp only; omega⟩
  · rename_i o hnode
    obtain ⟨op, hget, -⟩ := Option.bind_eq_some_iff.mp hnode
    have hlt := (List.getElem?_eq_some_iff.mp hget).1
    obtain rfl := Option.some.inj hround
    exact ⟨by dsimp only; omega, by push_cast; omega, by dsimp only; omega⟩

/-- **The count stays in range** from the beginning of a search on. -/
theorem InRange.of_reaches (h : Relation.ReflTransGen (Next code) ⟨1, start⟩ s) :
    InRange code start s := by
  induction h with
  | refl => exact .begin code start
  | tail _ hnext ih => exact ih.next hnext

/-- The count exceeds the number of opcodes by one at most. -/
theorem InRange.awaited_le_length (h : InRange code start s) : s.awaited ≤ code.length + 1 := by
  obtain ⟨-, hawaited, hoffset⟩ := h
  omega

end Search

/-! ## What the search reads -/

section Stretch

variable {code : List Opcode} {start stop : Nat}

/-- A subtree ends where the sequence does at the latest. -/
theorem le_length_of_subtreeEnd (h : subtreeEnd code start = some stop) : stop ≤ code.length :=
  (subtreeEnd_eq_some_iff.mp h).1

/-- An end depends on the opcodes up to it only. -/
theorem subtreeEnd_of_stretch {code' : List Opcode} (h : subtreeEnd code start = some stop)
    (hsame : (code'.take stop).drop start = (code.take stop).drop start) :
    subtreeEnd code' start = some stop := by
  obtain ⟨hle, t, ht⟩ := subtreeEnd_eq_some_iff.mp h
  have hlt := lt_of_subtreeEnd h
  have hlength := congrArg List.length hsame
  simp only [List.length_drop, List.length_take] at hlength
  exact subtreeEnd_eq_some_iff.mpr ⟨by omega, t, hsame.trans ht⟩

/-- Nothing before a complete sequence or behind it keeps its end from being found. -/
theorem subtreeEnd_append {b : List Opcode} (hb : (Program.mk b).IsComplete) (a c : List Opcode) :
    subtreeEnd (a ++ b ++ c) a.length = some (a.length + b.length) := by
  obtain ⟨t, rfl⟩ := (Program.isComplete_iff_exists_encode _).mp hb
  rw [subtreeEnd, List.append_assoc, List.drop_left, forestEnd_encode_append, forestEnd_zero,
    Tree.length_encode]

end Stretch

/-! ## The traversal -/

/-- **The traversal finds what nested recursion describes, and stays within its bounds.** On every
sequence of opcodes, a program or not, and from every offset, it comes to the end that the nested
description gives, or to none if that gives none. No more rounds are made than opcodes are left from
the offset on, and one; the count of awaited subtrees is never negative, and it exceeds the number
of opcodes by one at most. An end lies within the sequence and depends on the opcodes from the
offset to that end only, so a complete sequence is found to end where it does whatever stands before
it and behind it. -/
theorem subtreeEnd_traverses (code : List Opcode) (start : Nat) :
    subtreeEnd code start = (nestedEnd code start).map Subtype.val ∧
      Search.run code (code.length - start + 1) ⟨1, start⟩ = some (subtreeEnd code start) ∧
      (∀ s, Relation.ReflTransGen (Search.Next code) ⟨1, start⟩ s →
        0 ≤ s.awaited ∧ s.awaited ≤ code.length + 1) ∧
      (∀ stop, subtreeEnd code start = some stop →
        start < stop ∧ stop ≤ code.length ∧ ∀ code' : List Opcode,
          (code'.take stop).drop start = (code.take stop).drop start →
            subtreeEnd code' start = some stop) ∧
      ∀ a b c : List Opcode, (Program.mk b).IsComplete →
        subtreeEnd (a ++ b ++ c) a.length = some (a.length + b.length) := by
  refine ⟨subtreeEnd_eq_nestedEnd code start, ?_, fun s hreach => ?_, fun stop hstop => ?_,
    fun a b c hb => subtreeEnd_append hb a c⟩
  · exact Search.run_eq (Nat.lt_succ_self _) 1
  · have hrange := Search.InRange.of_reaches hreach
    exact ⟨hrange.nonneg, hrange.awaited_le_length⟩
  · exact ⟨lt_of_subtreeEnd hstop, le_length_of_subtreeEnd hstop,
      fun code' hsame => subtreeEnd_of_stretch hstop hsame⟩

/-- A sum of a terminal and a difference, between invalid opcodes. When both opcodes of operators
have been read two subtrees are awaited. -/
theorem subtreeEnd_traverses_sample :
    let code : List Opcode := [255, 110, 3, 111, 0, 1, 200, 7]
    let other : List Opcode := [0, 110, 3, 111, 0, 1]
    (nestedEnd code 1).map Subtype.val = some 6 ∧ Search.run code 8 ⟨1, 1⟩ = some (some 6) ∧
      (Relation.ReflTransGen (Search.Next code) ⟨1, 1⟩ ⟨2, 4⟩ ∧ (0 : Int) ≤ 2 ∧ (2 : Int) ≤ 8 + 1) ∧
      ((other.take 6).drop 1 = (code.take 6).drop 1 ∧ subtreeEnd other 1 = some 6) ∧
      (Program.mk [110, 3, 111, 0, 1]).IsComplete ∧
        subtreeEnd ([255] ++ [110, 3, 111, 0, 1] ++ [200, 7]) 1 = some (1 + 5) := by
  intro code other
  obtain ⟨hnested, hrun, hcount, hstretch, happend⟩ := subtreeEnd_traverses code 1
  have hend : subtreeEnd code 1 = some 6 := rfl
  have hsame : (other.take 6).drop 1 = (code.take 6).drop 1 := rfl
  have hcomplete : (Program.mk [110, 3, 111, 0, 1]).IsComplete := by decide
  have hreach : Relation.ReflTransGen (Search.Next code) ⟨1, 1⟩ ⟨2, 4⟩ :=
    ((Relation.ReflTransGen.single (b := ⟨2, 2⟩) ⟨by decide, rfl⟩).tail
      (c := ⟨1, 3⟩) ⟨by decide, rfl⟩).tail ⟨by decide, rfl⟩
  rw [hend] at hnested hrun
  exact ⟨hnested.symm, hrun, ⟨hreach, hcount _ hreach⟩,
    ⟨hsame, (hstretch 6 hend).2.2 other hsame⟩, hcomplete, happend [255] _ [200, 7] hcomplete⟩

end SymbolicRegression
