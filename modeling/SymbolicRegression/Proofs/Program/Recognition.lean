import SymbolicRegression.Proofs.Program.Shape

set_option autoImplicit false
set_option relaxedAutoImplicit false

/-!
# Which sequences are programs

A sequence of opcodes is admitted as a program if it is the pre-order encoding of a tree, and
otherwise it is refused for one of four reasons. Here both are told from the trees that a sequence
starts with: since no encoding is the beginning of another, a sequence starts with one tree at most,
and the count of awaited subtrees finds where that tree ends.

## Main definitions

* `SymbolicRegression.AllValid` — all opcodes stand for a terminal or an operator.
* `SymbolicRegression.InvalidFirstAt` — the first opcode that does not.
* `SymbolicRegression.TreeEndsAt` — the beginning of a sequence that encodes a tree.
* `SymbolicRegression.Verdict` — what becomes of a sequence, and why.

## Main results

* `SymbolicRegression.subtreeEnd_eq_some_iff` — the search finds where a tree ends.
* `SymbolicRegression.firstInvalid_eq_some_iff` — the search finds the first invalid opcode.
* `SymbolicRegression.ofOpcodes_eq_iff` — admission follows the verdict.
* `SymbolicRegression.Program.ofOpcodes_recognizes` — the programs, and what is wrong with all other
  sequences.
-/

namespace SymbolicRegression

/-! ## Valid opcodes -/

/-- The opcodes below 114 stand for something, and no others do. -/
theorem Node.isSome_ofOpcode?_iff {op : Opcode} : (ofOpcode? op).isSome ↔ op.toNat < 114 := by
  unfold ofOpcode?
  split
  · rename_i hlt
    have hlt' : op.toNat < 110 := hlt
    simp only [Option.isSome_some, true_iff]
    omega
  · rename_i hge
    have hge' : ¬ op.toNat < 110 := hge
    rw [Option.isSome_map]
    unfold Operator.ofOpcode?
    split
    · decide
    · decide
    · decide
    · decide
    · rename_i h₀ h₁ h₂ h₃
      have hne : ∀ k : UInt8, op ≠ k → op.toNat ≠ k.toNat := fun k hk h => hk (UInt8.toNat.inj h)
      have h₀' : op.toNat ≠ 110 := hne 110 h₀
      have h₁' : op.toNat ≠ 111 := hne 111 h₁
      have h₂' : op.toNat ≠ 112 := hne 112 h₂
      have h₃' : op.toNat ≠ 113 := hne 113 h₃
      simp only [Option.isSome_none, Bool.false_eq_true, false_iff]
      omega

/-- All opcodes stand for a terminal or an operator. -/
def AllValid (code : List Opcode) : Prop := ∀ op ∈ code, op.toNat < 114

/-- The opcode `op` at `offset` is invalid, and all before it are valid. -/
structure InvalidFirstAt (code : List Opcode) (offset : Nat) (op : Opcode) : Prop where
  /-- It stands there. -/
  getElem? : code[offset]? = some op
  /-- It stands for nothing. -/
  invalid : 114 ≤ op.toNat
  /-- Those before it stand for something. -/
  before : AllValid (code.take offset)

/-- The search for an invalid opcode finds the first one, or there is none.

**Proof sketch.** Induction on the sequence: behind a valid opcode everything has moved on by one
place. -/
theorem firstInvalid_spec (code : List Opcode) (start : Nat) :
    match firstInvalid code start with
    | none => AllValid code
    | some (i, op) => ∃ offset, i = start + offset ∧ InvalidFirstAt code offset op := by
  induction code generalizing start with
  | nil => simp [firstInvalid, AllValid]
  | cons op code ih =>
    have hvalid := @Node.isSome_ofOpcode?_iff op
    rw [firstInvalid]
    cases hop : Node.ofOpcode? op with
    | none =>
      rw [hop] at hvalid
      have hinvalid : 114 ≤ op.toNat := by simpa using hvalid
      exact ⟨0, rfl, rfl, hinvalid, by simp [AllValid]⟩
    | some node =>
      rw [hop] at hvalid
      have hop' : op.toNat < 114 := by simpa using hvalid
      have hrest := ih (start + 1)
      simp only
      cases hfirst : firstInvalid code (start + 1) with
      | none =>
        rw [hfirst] at hrest
        simpa [AllValid, hop'] using hrest
      | some found =>
        rw [hfirst] at hrest
        obtain ⟨offset, hi, hget, hinvalid, hbefore⟩ := hrest
        refine ⟨offset + 1, by omega, by simpa using hget, hinvalid, ?_⟩
        simpa [AllValid, hop'] using hbefore

/-- The first invalid opcode shows that not all opcodes are valid. -/
theorem InvalidFirstAt.not_allValid {code : List Opcode} {offset : Nat} {op : Opcode}
    (h : InvalidFirstAt code offset op) : ¬ AllValid code := by
  intro hvalid
  have hop := hvalid op (List.mem_of_getElem? h.getElem?)
  have hinvalid := h.invalid
  omega

/-- There is only one first invalid opcode. -/
theorem InvalidFirstAt.unique {code : List Opcode} {i j : Nat} {op op' : Opcode}
    (h : InvalidFirstAt code i op) (h' : InvalidFirstAt code j op') : i = j ∧ op = op' := by
  have hle : ∀ {i j : Nat} {op op' : Opcode}, InvalidFirstAt code i op →
      InvalidFirstAt code j op' → j ≤ i := by
    intro i j op op' h h'
    by_contra hlt
    have hmem : op ∈ code.take j := by
      refine List.mem_of_getElem? (i := i) ?_
      rw [List.getElem?_take_of_lt (by omega)]
      exact h.getElem?
    have hvalid := h'.before op hmem
    have hinvalid := h.invalid
    omega
  obtain rfl : i = j := le_antisymm (hle h' h) (hle h h')
  exact ⟨rfl, Option.some.inj (h.getElem?.symm.trans h'.getElem?)⟩

/-- The search finds an opcode just if it is the first invalid one. -/
theorem firstInvalid_eq_some_iff {code : List Opcode} {offset : Nat} {op : Opcode} :
    firstInvalid code 0 = some (offset, op) ↔ InvalidFirstAt code offset op := by
  have hspec := firstInvalid_spec code 0
  constructor
  · intro h
    rw [h] at hspec
    obtain ⟨offset', rfl, hfirst⟩ := hspec
    rwa [Nat.zero_add]
  · intro h
    cases hfound : firstInvalid code 0 with
    | none =>
      rw [hfound] at hspec
      exact absurd hspec h.not_allValid
    | some found =>
      rw [hfound] at hspec
      obtain ⟨offset', hoffset, hfirst⟩ := hspec
      obtain ⟨rfl, hop⟩ := hfirst.unique h
      rw [Nat.zero_add] at hoffset
      rw [← hoffset, ← hop]

/-- The search finds nothing just if all opcodes are valid. -/
theorem firstInvalid_eq_none_iff {code : List Opcode} :
    firstInvalid code 0 = none ↔ AllValid code := by
  have hspec := firstInvalid_spec code 0
  constructor
  · intro h
    rwa [h] at hspec
  · intro hvalid
    cases hfound : firstInvalid code 0 with
    | none => rfl
    | some found => exact absurd hvalid (firstInvalid_eq_some_iff.mp hfound).not_allValid

/-- The opcodes of a tree are valid. -/
theorem Tree.allValid_encode (t : Tree) : AllValid t.encode := by
  intro op hop
  induction t with
  | leaf slot =>
    obtain rfl := List.mem_singleton.mp hop
    exact Node.isSome_ofOpcode?_iff.mp (by simp)
  | node o left right hl hr =>
    simp only [encode, List.mem_cons, List.mem_append] at hop
    rcases hop with rfl | hop | hop
    · exact Node.isSome_ofOpcode?_iff.mp (by simp)
    · exact hl hop
    · exact hr hop

/-! ## The tree that a sequence starts with -/

/-- The first `stop` opcodes are the encoding of a tree. -/
def TreeEndsAt (code : List Opcode) (stop : Nat) : Prop :=
  stop ≤ code.length ∧ ∃ t : Tree, code.take stop = t.encode

/-- **The search finds an end just if the opcodes up to it are the encoding of a tree.** -/
theorem subtreeEnd_eq_some_iff {code : List Opcode} {start stop : Nat} :
    subtreeEnd code start = some stop ↔
      stop ≤ code.length ∧ ∃ t : Tree, (code.take stop).drop start = t.encode := by
  constructor
  · intro h
    obtain ⟨ts, rest, hlength, hcode, hstop⟩ := exists_trees_of_forestEnd h
    obtain ⟨t, rfl⟩ := List.length_eq_one_iff.mp hlength
    have hcode : code.drop start = t.encode ++ rest := by simpa using hcode
    have hstop : stop = start + t.size := by simpa using hstop
    have hsize := congrArg List.length hcode
    simp only [List.length_drop, List.length_append, Tree.length_encode] at hsize
    have hpos := t.size_pos
    refine ⟨by omega, t, ?_⟩
    rw [List.drop_take, hcode, hstop, Nat.add_sub_cancel_left, ← Tree.length_encode,
      List.take_left]
  · rintro ⟨hle, t, ht⟩
    have hsize := congrArg List.length ht
    simp only [List.length_drop, List.length_take, Nat.min_eq_left hle, Tree.length_encode] at hsize
    have hpos := t.size_pos
    have hcode : code.drop start = t.encode ++ code.drop stop := calc
      code.drop start = (code.take stop ++ code.drop stop).drop start := by
        rw [List.take_append_drop]
      _ = (code.take stop).drop start ++ code.drop stop := by
        refine List.drop_append_of_le_length ?_
        rw [List.length_take]
        omega
      _ = t.encode ++ code.drop stop := by rw [ht]
    rw [subtreeEnd, hcode, forestEnd_encode_append, forestEnd_zero]
    exact congrArg some (by omega)

/-- The search from the first opcode finds where the first tree ends, and nothing if the sequence
starts with no tree. -/
theorem subtreeEnd_zero_eq_some_iff {code : List Opcode} {stop : Nat} :
    subtreeEnd code 0 = some stop ↔ TreeEndsAt code stop :=
  subtreeEnd_eq_some_iff

/-- A sequence starts with one tree at most. -/
theorem TreeEndsAt.unique {code : List Opcode} {m n : Nat} (hm : TreeEndsAt code m)
    (hn : TreeEndsAt code n) : m = n := by
  have hm := subtreeEnd_zero_eq_some_iff.mpr hm
  have hn := subtreeEnd_zero_eq_some_iff.mpr hn
  exact Option.some.inj (hm.symm.trans hn)

/-- A sequence is the encoding of a tree just if the tree that it starts with ends where the
sequence does. -/
theorem treeEndsAt_length_iff {code : List Opcode} :
    TreeEndsAt code code.length ↔ ∃ t : Tree, code = t.encode := by
  simp [TreeEndsAt]

/-- If a sequence is an encoding, then it is that of one tree only. -/
theorem existsUnique_encode_iff {code : List Opcode} :
    (∃! t : Tree, code = t.encode) ↔ ∃ t : Tree, code = t.encode := by
  constructor
  · rintro ⟨t, ht, -⟩
    exact ⟨t, ht⟩
  · rintro ⟨t, rfl⟩
    exact ⟨t, rfl, fun u hu => (Tree.encode_inj.mp hu).symm⟩

/-! ## The verdict -/

/-- What becomes of a sequence of opcodes, and why. -/
inductive Verdict (code : List Opcode) : Except ProgramError Program → Prop
  /-- There is no opcode. -/
  | empty (hempty : code = []) : Verdict code (.error .empty)
  /-- Some opcode is invalid, whatever stands before it and behind it. -/
  | invalid {offset : Nat} {op : Opcode} (hfirst : InvalidFirstAt code offset op) :
      Verdict code (.error (.invalidOpcode offset op))
  /-- The opcodes are valid, but no beginning is a tree. -/
  | truncated (hne : code ≠ []) (hvalid : AllValid code) (hnone : ∀ n, ¬ TreeEndsAt code n) :
      Verdict code (.error .truncated)
  /-- The opcodes are valid, and a tree ends before the sequence does. -/
  | trailing {stop : Nat} (hvalid : AllValid code) (htree : TreeEndsAt code stop)
      (hlt : stop < code.length) : Verdict code (.error (.trailing stop))
  /-- The sequence is the encoding of a tree. -/
  | admitted (htree : TreeEndsAt code code.length) : Verdict code (.ok ⟨code⟩)

/-- An encoding has an opcode, and its opcodes are valid. -/
theorem TreeEndsAt.of_length {code : List Opcode} (h : TreeEndsAt code code.length) :
    code ≠ [] ∧ AllValid code := by
  obtain ⟨t, rfl⟩ := treeEndsAt_length_iff.mp h
  refine ⟨?_, t.allValid_encode⟩
  have hpos := t.size_pos
  rw [← Tree.length_encode] at hpos
  exact List.ne_nil_of_length_pos hpos

/-- Admission comes to a verdict that has its reason. -/
theorem verdict_ofOpcodes (code : List Opcode) : Verdict code (Program.ofOpcodes code) := by
  rw [Program.ofOpcodes]
  split
  · rename_i hempty
    exact .empty (List.isEmpty_iff.mp hempty)
  · rename_i hempty
    have hne : code ≠ [] := fun h => hempty (List.isEmpty_iff.mpr h)
    split
    · exact .invalid (firstInvalid_eq_some_iff.mp ‹_›)
    · have hvalid : AllValid code := firstInvalid_eq_none_iff.mp ‹_›
      split
      · rename_i hsearch
        refine .truncated hne hvalid fun n htree => ?_
        rw [subtreeEnd_zero_eq_some_iff.mpr htree] at hsearch
        cases hsearch
      · rename_i stop hsearch
        have htree := subtreeEnd_zero_eq_some_iff.mp hsearch
        split
        · exact .trailing hvalid htree ‹_›
        · obtain rfl : stop = code.length := by
            have := htree.1
            omega
          exact .admitted htree

/-- **Admission follows the verdict**: each reason leads to its own answer, and to every answer
leads a reason. -/
theorem ofOpcodes_eq_iff {code : List Opcode} {r : Except ProgramError Program} :
    Program.ofOpcodes code = r ↔ Verdict code r := by
  constructor
  · rintro rfl
    exact verdict_ofOpcodes code
  · intro h
    cases h with
    | empty hempty =>
      subst hempty
      rfl
    | invalid hfirst =>
      have hne := List.ne_nil_of_mem (List.mem_of_getElem? hfirst.getElem?)
      simp [Program.ofOpcodes, hne, firstInvalid_eq_some_iff.mpr hfirst]
    | truncated hne hvalid hnone =>
      have hsearch : subtreeEnd code 0 = none := by
        rw [Option.eq_none_iff_forall_ne_some]
        exact fun n hn => hnone n (subtreeEnd_zero_eq_some_iff.mp hn)
      simp [Program.ofOpcodes, hne, firstInvalid_eq_none_iff.mpr hvalid, hsearch]
    | trailing hvalid htree hlt =>
      have hne : code ≠ [] := List.ne_nil_of_length_pos (by omega)
      simp [Program.ofOpcodes, hne, firstInvalid_eq_none_iff.mpr hvalid,
        subtreeEnd_zero_eq_some_iff.mpr htree, hlt]
    | admitted htree =>
      obtain ⟨hne, hvalid⟩ := htree.of_length
      simp [Program.ofOpcodes, hne, firstInvalid_eq_none_iff.mpr hvalid,
        subtreeEnd_zero_eq_some_iff.mpr htree]

/-- **Exactly the encodings of trees are programs, and every other sequence is refused for its
reason.** A sequence is admitted, and kept as it is, just if it is the pre-order encoding of a tree
over 110 terminals and the four operators, and then of one tree only; the encoding of every tree is
admitted. Otherwise: a sequence is empty just if it has no opcode; it has an invalid opcode just if
one of them is 114 or more, and the first such is named, also behind the end of a first tree; it is
truncated just if it has opcodes, all valid, and no beginning of it is the encoding of a tree; and
it has opcodes left over behind `stop` just if all are valid and the first `stop` of them, but not
all, are the encoding of a tree. There is at most one such place. -/
theorem Program.ofOpcodes_recognizes (code : List Opcode) :
    (∀ p, ofOpcodes code = .ok p ↔ p.code = code ∧ ∃! t : Tree, code = t.encode) ∧
      (∀ t : Tree, ofOpcodes t.encode = .ok ⟨t.encode⟩) ∧
      (ofOpcodes code = .error .empty ↔ code = []) ∧
      ((∃ offset op, ofOpcodes code = .error (.invalidOpcode offset op)) ↔
        ∃ op ∈ code, 114 ≤ op.toNat) ∧
      (∀ offset op, ofOpcodes code = .error (.invalidOpcode offset op) ↔
        code[offset]? = some op ∧ 114 ≤ op.toNat ∧
          ∀ op' ∈ code.take offset, op'.toNat < 114) ∧
      (ofOpcodes code = .error .truncated ↔
        code ≠ [] ∧ (∀ op ∈ code, op.toNat < 114) ∧
          ∀ n ≤ code.length, ¬ ∃ t : Tree, code.take n = t.encode) ∧
      (∀ stop, ofOpcodes code = .error (.trailing stop) ↔
        (∀ op ∈ code, op.toNat < 114) ∧ stop < code.length ∧
          ∃ t : Tree, code.take stop = t.encode) ∧
      ∀ m ≤ code.length, ∀ n ≤ code.length, (∃ t : Tree, code.take m = t.encode) →
        (∃ t : Tree, code.take n = t.encode) → m = n := by
  simp only [ofOpcodes_eq_iff]
  refine ⟨fun p => ⟨fun h => ?_, fun ⟨hcode, htree⟩ => ?_⟩, fun t => ?_,
    ⟨fun h => ?_, .empty⟩, ⟨fun ⟨offset, op, h⟩ => ?_, fun ⟨op, hop, hinvalid⟩ => ?_⟩,
    fun offset op => ⟨fun h => ?_, fun ⟨hget, hinvalid, hbefore⟩ => ?_⟩,
    ⟨fun h => ?_, fun ⟨hne, hvalid, hnone⟩ => ?_⟩,
    fun stop => ⟨fun h => ?_, fun ⟨hvalid, hlt, htree⟩ => ?_⟩, fun m hm n hn htree htree' => ?_⟩
  · cases h with
    | admitted htree => exact ⟨rfl, existsUnique_encode_iff.mpr (treeEndsAt_length_iff.mp htree)⟩
  · obtain rfl : p = ⟨code⟩ := by rw [← hcode]
    exact .admitted (treeEndsAt_length_iff.mpr (existsUnique_encode_iff.mp htree))
  · exact .admitted (treeEndsAt_length_iff.mpr ⟨t, rfl⟩)
  · cases h with
    | empty hempty => exact hempty
  · cases h with
    | invalid hfirst => exact ⟨op, List.mem_of_getElem? hfirst.getElem?, hfirst.invalid⟩
  · cases hfound : firstInvalid code 0 with
    | none =>
      have hvalid := firstInvalid_eq_none_iff.mp hfound op hop
      omega
    | some found => exact ⟨_, _, .invalid (firstInvalid_eq_some_iff.mp hfound)⟩
  · cases h with
    | invalid hfirst => exact ⟨hfirst.getElem?, hfirst.invalid, hfirst.before⟩
  · exact .invalid ⟨hget, hinvalid, hbefore⟩
  · cases h with
    | truncated hne hvalid hnone => exact ⟨hne, hvalid, fun n hn htree => hnone n ⟨hn, htree⟩⟩
  · exact .truncated hne hvalid fun n ⟨hn, htree⟩ => hnone n hn htree
  · cases h with
    | trailing hvalid htree hlt => exact ⟨hvalid, hlt, htree.2⟩
  · exact .trailing hvalid ⟨Nat.le_of_lt hlt, htree⟩ hlt
  · exact TreeEndsAt.unique ⟨hm, htree⟩ ⟨hn, htree'⟩

/-- An invalid opcode behind the end of the first tree is what is reported. -/
example : Program.ofOpcodes [110, 0, 1, 200] = .error (.invalidOpcode 3 200) := rfl

end SymbolicRegression
