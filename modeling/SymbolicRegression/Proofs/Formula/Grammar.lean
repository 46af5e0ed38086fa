import Mathlib.Data.List.TakeWhile
import SymbolicRegression.Formula.Reader

set_option autoImplicit false
set_option relaxedAutoImplicit false

/-!
# The grammar of formulas

The grammar `E ::= leaf | '(' E ' ' op ' ' E ')'` says which texts stand for which terms. Reading
finds for every text the term that the grammar gives it: no text stands for two terms, and none
that stands for a term is refused.

## Main definitions

* `SymbolicRegression.Term.Spelled` — the text stands for the term.

## Main results

* `SymbolicRegression.Term.Spelled.readFrom_append` — a term is read off the start of a text.
* `SymbolicRegression.Term.exists_spelled_of_readFrom` — what is read off stands for the term.
* `SymbolicRegression.Term.read_eq_some_iff` — reading is the grammar.
-/

namespace SymbolicRegression

/-- The sign of an operator stands for it. -/
lemma Operator.ofSymbol?_symbol (op : Operator) : Operator.ofSymbol? op.symbol = some op := by
  cases op <;> rfl

/-- Only the sign of an operator stands for it. -/
lemma Operator.symbol_of_ofSymbol? {c : Char} {op : Operator} (h : Operator.ofSymbol? c = some op) :
    op.symbol = c := by
  simpa using List.find?_some h

namespace Term

/-- The grammar: a leaf is a row of leaf characters, and an operator stands in brackets between its
operands, with a blank on either side. -/
inductive Spelled : Term → List Char → Prop where
  /-- A leaf is spelled by its token. -/
  | leaf {t : Term} {token : List Char} (hleaf : token.all isLeafChar = true)
      (ht : ofLeaf? token = some t) : Spelled t token
  /-- An operator is spelled by its operands and its sign, in brackets. -/
  | node {op : Operator} {left right : Term} {front back : List Char}
      (hleft : Spelled left front) (hright : Spelled right back) :
      Spelled (node op left right) ('(' :: (front ++ ' ' :: op.symbol :: ' ' :: (back ++ [')'])))

/-! ## Reading a leaf -/

/-- A text of leaf characters is read off as a whole, if none follows. -/
lemma takeWhile_leaf {leaf rest : List Char} (hleaf : leaf.all isLeafChar = true)
    (hrest : rest.takeWhile isLeafChar = []) : (leaf ++ rest).takeWhile isLeafChar = leaf := by
  rw [List.takeWhile_append_of_pos (List.all_eq_true.mp hleaf), hrest, List.append_nil]

/-- What follows a text of leaf characters is left over. -/
lemma dropWhile_leaf {leaf rest : List Char} (hleaf : leaf.all isLeafChar = true)
    (hrest : rest.takeWhile isLeafChar = []) : (leaf ++ rest).dropWhile isLeafChar = rest := by
  rw [List.dropWhile_append_of_pos (List.all_eq_true.mp hleaf)]
  have h := List.takeWhile_append_dropWhile (p := isLeafChar) (l := rest)
  rwa [hrest, List.nil_append] at h

/-- A leaf is read from the start of a text. -/
lemma readFrom_leaf {leaf rest : List Char} {t : Term} (fuel : Nat)
    (hleaf : leaf.all isLeafChar = true) (hrest : rest.takeWhile isLeafChar = [])
    (ht : ofLeaf? leaf = some t) : readFrom (fuel + 1) (leaf ++ rest) = some (t, rest) := by
  cases leaf with
  | nil => cases ht
  | cons c cs =>
    have hbracket : c ≠ '(' := by
      rintro rfl
      simp [isLeafChar] at hleaf
    rw [readFrom.eq_3 _ _ (by simp [hbracket])]
    rw [takeWhile_leaf hleaf hrest, dropWhile_leaf hleaf hrest, ht]
    rfl

/-! ## Reading a term -/

/-- **A term is read off the start of a text** that spells it, if no leaf goes on behind it.

**Proof sketch.** Induction on the grammar. The operands are read one after the other, each of them
followed by a blank or a bracket, which ends a leaf; and each is shorter than the text, so there is
fuel left for it. -/
theorem Spelled.readFrom_append {t : Term} {text : List Char} (h : Spelled t text) {fuel : Nat}
    (hfuel : text.length < fuel) {rest : List Char} (hrest : rest.takeWhile isLeafChar = []) :
    readFrom fuel (text ++ rest) = some (t, rest) := by
  induction h generalizing fuel rest with
  | leaf hleaf ht =>
    obtain ⟨fuel, rfl⟩ := Nat.exists_eq_add_of_lt hfuel
    exact readFrom_leaf _ hleaf hrest ht
  | @node op left right front back hleft hright ihl ihr =>
    obtain ⟨fuel, rfl⟩ := Nat.exists_eq_add_of_lt (Nat.zero_lt_of_lt hfuel)
    simp only [List.length_cons, List.length_append] at hfuel
    have hfront : ∀ more, readFrom fuel (front ++ ' ' :: more) = some (left, ' ' :: more) :=
      fun more => ihl (by omega) rfl
    have hback : ∀ more, readFrom fuel (back ++ ')' :: more) = some (right, ')' :: more) :=
      fun more => ihr (by omega) rfl
    simp only [Nat.zero_add, List.cons_append, List.append_assoc, List.nil_append]
    rw [readFrom, hfront]
    simp only [Option.bind_eq_bind, Option.bind_some, Operator.ofSymbol?_symbol, hback]

/-- **What is read off a text spells the term.**

**Proof sketch.** Induction on the fuel. Behind a bracket two operands have been read off, with
the sign between them; otherwise the leaf characters at the start have been read. -/
theorem exists_spelled_of_readFrom {fuel : Nat} {text rest : List Char} {t : Term}
    (h : readFrom fuel text = some (t, rest)) :
    ∃ front, text = front ++ rest ∧ Spelled t front := by
  induction fuel generalizing text rest t with
  | zero => simp [readFrom] at h
  | succ fuel ih =>
    unfold readFrom at h
    split at h
    · cases h
    · -- a bracket: the left operand, the sign, the right operand and the closing bracket in turn
      rename_i fuel' behind heq
      obtain rfl := Nat.succ.inj heq
      obtain ⟨⟨left, behindLeft⟩, hleft, hsign⟩ := Option.bind_eq_some_iff.mp h
      obtain ⟨front, rfl, hfront⟩ := ih hleft
      dsimp only at hsign
      split at hsign
      · obtain ⟨op, hop, hoperand⟩ := Option.bind_eq_some_iff.mp hsign
        obtain ⟨⟨right, behindRight⟩, hright, hclose⟩ := Option.bind_eq_some_iff.mp hoperand
        obtain ⟨back, rfl, hback⟩ := ih hright
        obtain rfl := Operator.symbol_of_ofSymbol? hop
        dsimp only at hclose
        split at hclose
        · obtain ⟨rfl, rfl⟩ := Prod.mk.inj (Option.some.inj hclose)
          exact ⟨_, by simp, .node hfront hback⟩
        · cases hclose
      · cases hsign
    · -- no bracket: the leaf characters at the start
      obtain ⟨leaf, hleaf, hrest⟩ := Option.bind_eq_some_iff.mp h
      obtain ⟨rfl, rfl⟩ := Prod.mk.inj (Option.some.inj hrest)
      exact ⟨_, List.takeWhile_append_dropWhile.symm, .leaf List.all_takeWhile hleaf⟩

/-- **Reading is the grammar**: a text is read as the term that it spells, and as no other. -/
theorem read_eq_some_iff {text : List Char} {t : Term} : read text = some t ↔ Spelled t text := by
  constructor
  · intro h
    unfold read at h
    split at h
    · rename_i t' hread
      obtain rfl := Option.some.inj h
      obtain ⟨front, rfl, hspelled⟩ := exists_spelled_of_readFrom hread
      rwa [List.append_nil]
    · cases h
  · intro h
    have hread := @Spelled.readFrom_append t text h _ (Nat.lt_succ_self _) [] rfl
    rw [List.append_nil] at hread
    rw [read, hread]

end Term

end SymbolicRegression
