import SymbolicRegression.Proofs.Breeding.Generator
import SymbolicRegression.Proofs.Random.Streams

set_option autoImplicit false
set_option relaxedAutoImplicit false

/-!
# How attempts at a program end

An attempt at a program is growth from the first slot. It may be given up, and then another one is
made in the buffer as it stands. An operator with its operands takes three slots. With fewer all
attempts are given up, whatever the words are. With three or more there are words on which the next
attempt gives a program, whatever has been left in the buffer and however many attempts have been
given up.

On a stream on which the draws of opcodes end every attempt ends, with or without a program.

## Main definitions

* `SymbolicRegression.Growing.DrawsEnd` — streams on which the draws of opcodes end.
* `SymbolicRegression.Growing.fittingWords` — words on which an operator gets two terminals.
* `SymbolicRegression.Growing.GivenUp` — attempts that have been given up, one after another.

## Main results

* `SymbolicRegression.Growing.exists_takes_grow` — growth ends.
* `SymbolicRegression.Growing.yields_grow_none` — fewer than three slots are not enough.
* `SymbolicRegression.Growing.takes_grow_fitting` — three slots are.
* `SymbolicRegression.Growing.GivenUp.run_growUntilFit` — behind attempts that have been given up
  others are made.
-/

namespace SymbolicRegression

variable {σ : Type} [WordSource σ]

namespace Growing

open Draw (Takes AlwaysEnds Spends)
open WordSource (drop Begins)

variable {terminals : Nat} {source : σ}

/-! ## Growth ends -/

/-- The draws of operators and of terminals end wherever they begin on the stream. -/
structure DrawsEnd (terminals : Nat) (source : σ) : Prop where
  /-- An operator is drawn. -/
  operators : AlwaysEnds Operator.all.length source
  /-- A terminal is drawn. -/
  terminals : AlwaysEnds terminals source

/-- The draws also end once words have been taken. -/
theorem DrawsEnd.drop (h : DrawsEnd terminals source) (n : Nat) :
    DrawsEnd terminals (WordSource.drop n source) :=
  ⟨h.operators.drop n, h.terminals.drop n⟩

/-- A random terminal is placed. -/
theorem exists_takes_growLeaf (h : DrawsEnd terminals source) (slot : Nat) (b : Buffer) :
    ∃ n r, Takes ((growLeaf terminals slot).run b) source n r := by
  obtain ⟨n, i, hterminal⟩ := h.terminals 0
  simp only [growLeaf, randomTerminal, StateT.run_bind, run_place, bind_assoc, pure_bind]
  exact ⟨n, _, hterminal.map _⟩

/-- **An operator and its operands end** if operands do wherever they start. -/
theorem exists_takes_growNode {operand : Nat → Growing σ (Option Nat)}
    (hoperand : ∀ (source : σ), DrawsEnd terminals source → ∀ slot b,
      ∃ n r, Takes ((operand slot).run b) source n r)
    (h : DrawsEnd terminals source) (slot : Nat) (b : Buffer) :
    ∃ n r, Takes ((growNode operand slot).run b) source n r := by
  obtain ⟨n₁, i, hroot⟩ := h.operators 0
  have hoperator : Takes (randomOperator : Draw σ Opcode) source n₁ _ := hroot.map _
  simp only [growNode, StateT.run_bind, run_place, bind_assoc, pure_bind]
  obtain ⟨n₂, ⟨right, b₁⟩, hleft⟩ := hoperand _ (h.drop n₁) (slot + 1) (b.write slot _)
  cases right with
  | none => exact ⟨_, _, hoperator.bind (hleft.bind (.pure _))⟩
  | some right =>
    obtain ⟨n₃, r, hright⟩ := hoperand _ ((h.drop n₁).drop n₂) right b₁
    exact ⟨_, _, hoperator.bind (hleft.bind hright)⟩

/-- An operand ends.

**Proof sketch.** Induction on the depth budget: an operand is given up at once, or it is a terminal
or an operator with operands of one level less. -/
theorem exists_takes_growOperand (h : DrawsEnd terminals source) (depth slot : Nat) (b : Buffer) :
    ∃ n r, Takes ((growOperand terminals depth slot).run b) source n r := by
  induction depth generalizing source slot b with
  | zero =>
    simp only [growOperand, StateT.run_bind, StateT.run_get, pure_bind]
    split
    · exact exists_takes_growLeaf h slot b
    · exact ⟨0, _, .pure _⟩
  | succ depth ih =>
    simp only [growOperand, StateT.run_bind, StateT.run_get, pure_bind]
    split
    · have hcoin := Draw.takes_coin_half source
      simp only [StateT.run_bind, StateT.run_monadLift, bind_assoc, pure_bind]
      generalize decide ((WordSource.next source).1 < 0x8000000000000000) = heads at hcoin
      cases heads with
      | true =>
        obtain ⟨n, r, hnode⟩ :=
          exists_takes_growNode (fun source h slot b => ih h slot b) (h.drop 1) slot b
        exact ⟨1 + n, r, hcoin.bind hnode⟩
      | false =>
        obtain ⟨n, r, hleaf⟩ := exists_takes_growLeaf (h.drop 1) slot b
        exact ⟨1 + n, r, hcoin.bind hleaf⟩
    · exact ⟨0, _, .pure _⟩

/-- **Growth ends** wherever the draws of opcodes do. -/
theorem exists_takes_grow (h : DrawsEnd terminals source) (depth slot : Nat) (b : Buffer) :
    ∃ n r, Takes ((grow terminals depth slot).run b) source n r := by
  by_cases hslot : slot = 0
  · subst hslot
    simp only [grow, if_true, StateT.run_bind, StateT.run_get, pure_bind]
    split
    · exact exists_takes_growNode
        (fun _ h slot b => exists_takes_growOperand h (depth - 1) slot b) h 0 b
    · exact ⟨0, _, .pure _⟩
  · rw [grow, if_neg hslot]
    exact exists_takes_growOperand h depth slot b

/-! ## Fewer than three slots -/

section

variable (hpos : 0 < terminals) (hle : terminals ≤ 110) {b : Buffer} (hsmall : b.capacity < 3)
include hpos hle hsmall

/-- **Fewer than three slots are not enough** for an operator with its operands. -/
theorem yields_grow_none (depth : Nat) :
    Draw.Yields ((grow terminals depth 0 : Growing σ (Option Nat)).run b) (·.1 = none) := by
  refine (yields_grow hpos hle depth b).mono ?_
  rintro ⟨stop, b'⟩ ⟨-, -, hgrown⟩
  cases stop with
  | none => rfl
  | some stop =>
    obtain ⟨hstop, t, ht, hsize, -⟩ := hgrown stop rfl
    have hthree := ht.three_le_size
    omega

/-- No number of attempts is enough, and attempts go on until no words are left. -/
theorem run_growUntilFit_of_small (depth attempts : Nat) (supply : Supply σ) :
    ((growUntilFit terminals depth attempts).run b).run supply = .error .supplyExhausted := by
  have hyields := yields_growUntilFit hpos hle depth attempts b supply
  rcases hrun : ((growUntilFit terminals depth attempts).run b).run supply with fault | r
  · rw [hrun] at hyields
    exact congrArg _ hyields
  · obtain ⟨-, t, ht, hsize, -⟩ := hyields.of_eq_ok hrun
    have hthree := ht.three_le_size
    omega

end

/-! ## Words that fit -/

/-- Words on which an operand is the first terminal. If there is a budget the coin is tossed, and it
shows tails. -/
def operandWords : (depth : Nat) → List UInt64
  | 0 => [0]
  | _ + 1 => [0x8000000000000000, 0]

/-- Words on which the sum of the first terminal with itself is grown. -/
def fittingWords (depth : Nat) : List UInt64 :=
  0 :: (operandWords (depth - 1) ++ operandWords (depth - 1))

/-- The opcodes of the sum of the first terminal with itself. -/
def fittingCode : List Opcode := [110, 0, 0]

/-- On zero the first terminal is placed. -/
theorem takes_growLeaf_zero (hpos : 0 < terminals) (h : (WordSource.next source).1 = 0) (slot : Nat)
    (b : Buffer) :
    Takes ((growLeaf terminals slot).run b) source 1 (some (slot + 1), b.write slot 0) := by
  simp only [growLeaf, randomTerminal, StateT.run_bind, run_place, bind_assoc, pure_bind]
  exact (Draw.takes_below_zero hpos h).map _

/-- On its words an operand is the first terminal. -/
theorem takes_growOperand_fitting (hpos : 0 < terminals) {depth slot : Nat} {b : Buffer}
    (hslot : slot < b.capacity) (h : Begins (operandWords depth) source) :
    Takes ((growOperand terminals depth slot).run b) source (operandWords depth).length
      (some (slot + 1), b.write slot 0) := by
  cases depth with
  | zero =>
    simp only [growOperand, StateT.run_bind, StateT.run_get, pure_bind, if_pos hslot]
    exact takes_growLeaf_zero hpos h.1 slot b
  | succ depth =>
    obtain ⟨htails, hzero, -⟩ := h
    have hcoin := Draw.takes_coin_half source
    rw [htails] at hcoin
    simp only [growOperand, StateT.run_bind, StateT.run_get, pure_bind, if_pos hslot,
      StateT.run_monadLift, bind_assoc]
    exact hcoin.bind (takes_growLeaf_zero hpos hzero slot b)

/-- **Three slots are enough**: on words that fit the next attempt gives a program, whatever stands
in the buffer.

**Proof sketch.** The operator takes the first slot and the two terminals take those behind it, so
each of the three finds a slot. -/
theorem takes_grow_fitting (hpos : 0 < terminals) {depth : Nat} {b : Buffer}
    (hthree : 3 ≤ b.capacity) (h : Begins (fittingWords depth) source) :
    Takes ((grow terminals depth 0).run b) source (fittingWords depth).length
      (some 3, b.writeAll 0 fittingCode) := by
  obtain ⟨hroot, hoperands⟩ := h
  obtain ⟨hleft, hright⟩ := WordSource.begins_append.mp hoperands
  have hoperator : Takes (randomOperator : Draw σ Opcode) source 1 110 :=
    (Draw.takes_below_zero (by decide) hroot).map _
  have hlength : (fittingWords depth).length =
      1 + ((operandWords (depth - 1)).length + (operandWords (depth - 1)).length) := by
    rw [fittingWords, List.length_cons, List.length_append, Nat.add_comm]
  simp only [grow, if_true, StateT.run_bind, StateT.run_get, pure_bind]
  rw [if_pos (show 0 < b.capacity by omega), hlength]
  simp only [growNode, StateT.run_bind, run_place, bind_assoc, pure_bind]
  have hslot₁ : 1 < (b.write 0 110).capacity := by rw [Buffer.capacity_write]; omega
  have hslot₂ : 2 < ((b.write 0 110).write 1 0).capacity := by
    rw [Buffer.capacity_write, Buffer.capacity_write]; omega
  exact hoperator.bind ((takes_growOperand_fitting hpos hslot₁ hleft).bind
    (takes_growOperand_fitting hpos hslot₂ hright))

/-- On words that fit one attempt is enough for a program. -/
theorem takes_growUntilFit_fitting (hpos : 0 < terminals) {depth : Nat} {b : Buffer}
    (hthree : 3 ≤ b.capacity) (h : Begins (fittingWords depth) source) (further : Nat) :
    Takes ((growUntilFit terminals depth (further + 1)).run b) source (fittingWords depth).length
      (⟨fittingCode⟩, b.writeAll 0 fittingCode) := by
  have htake : (b.writeAll 0 fittingCode).take 3 = fittingCode :=
    (b.holds_writeAll 0 fittingCode).take_eq
  simp only [growUntilFit, StateT.run_bind]
  refine (takes_grow_fitting hpos hthree h).bind (n := 0) ?_
  simp only [StateT.run_bind, StateT.run_get, pure_bind, htake]
  exact .pure _

/-! ## Attempts that have been given up -/

/-- **Attempts that have been given up**, one after another: how many there are, the buffer and the
words before them, and what they have left of both. -/
inductive GivenUp (terminals depth : Nat) :
    (attempts : Nat) → Buffer → Supply σ → Buffer → Supply σ → Prop
  /-- No attempt has been made. -/
  | none (b : Buffer) (supply : Supply σ) : GivenUp terminals depth 0 b supply b supply
  /-- An attempt is given up, and then others are. -/
  | more {attempts : Nat} {b b₁ b₂ : Buffer} {supply supply₁ supply₂ : Supply σ}
      (hfirst : ((grow terminals depth 0).run b).run supply = .ok ((none, b₁), supply₁))
      (hrest : GivenUp terminals depth attempts b₁ supply₁ b₂ supply₂) :
      GivenUp terminals depth (attempts + 1) b supply b₂ supply₂

/-- A random terminal takes a word. -/
theorem spends_growLeaf (slot : Nat) (b : Buffer) :
    Spends 1 ((growLeaf terminals slot : Growing σ (Option Nat)).run b) := by
  simp only [growLeaf, randomTerminal, StateT.run_bind, run_place, bind_assoc, pure_bind]
  exact (Draw.spends_below terminals).bind fun _ => .pure _

/-- An operator takes a word, whatever its operands take. -/
theorem spends_growNode {operand : Nat → Growing σ (Option Nat)}
    (hoperand : ∀ slot b, Spends 0 ((operand slot).run b)) (slot : Nat) (b : Buffer) :
    Spends 1 ((growNode operand slot).run b) := by
  simp only [growNode, randomOperator, StateT.run_bind, run_place, bind_assoc, pure_bind]
  refine (Draw.spends_below _).bind (l := 0) fun op => ?_
  refine (hoperand (slot + 1) _).bind (l := 0) ?_
  rintro ⟨right, b₁⟩
  cases right with
  | none => exact .pure _
  | some right => exact hoperand right b₁

/-- An operand may take no word, if it finds no slot.

**Proof sketch.** Induction on the depth budget. No words are given back. -/
theorem spends_growOperand (depth slot : Nat) (b : Buffer) :
    Spends 0 ((growOperand terminals depth slot : Growing σ (Option Nat)).run b) := by
  induction depth generalizing slot b with
  | zero =>
    simp only [growOperand, StateT.run_bind, StateT.run_get, pure_bind]
    split
    · exact (spends_growLeaf slot b).mono (Nat.zero_le 1)
    · exact .pure _
  | succ depth ih =>
    simp only [growOperand, StateT.run_bind, StateT.run_get, pure_bind]
    split
    · simp only [StateT.run_bind, StateT.run_monadLift, bind_assoc, pure_bind]
      refine (Draw.spends_coin_half.mono (Nat.zero_le 1)).bind (l := 0) fun heads => ?_
      split
      · exact (spends_growNode ih slot b).mono (Nat.zero_le 1)
      · exact (spends_growLeaf slot b).mono (Nat.zero_le 1)
    · exact .pure _

/-- An attempt takes a word if there is a slot: the first one is for the root. -/
theorem spends_grow (depth : Nat) {b : Buffer} (h : 0 < b.capacity) :
    Spends 1 ((grow terminals depth 0 : Growing σ (Option Nat)).run b) := by
  simp only [grow, if_true, StateT.run_bind, StateT.run_get, pure_bind, if_pos h]
  exact spends_growNode (spends_growOperand (depth - 1)) 0 b

namespace GivenUp

variable {depth attempts : Nat} {b b' : Buffer} {supply supply' : Supply σ}

/-- The buffer keeps its capacity. -/
theorem capacity_eq (h : GivenUp terminals depth attempts b supply b' supply') :
    b'.capacity = b.capacity := by
  induction h with
  | none => rfl
  | more hfirst _ ih =>
    obtain ⟨code, hcode, -⟩ := gives_grow _ _ _ _ _ _ hfirst
    rw [ih]
    exact (congrArg Buffer.capacity hcode).trans (Buffer.capacity_writeAll _ _ _)

/-- Every attempt has taken a word.

**Proof sketch.** Induction on the attempts: each takes a word of those that the one before has
left. -/
theorem left_le (h : GivenUp terminals depth attempts b supply b' supply') (hpos : 0 < b.capacity) :
    supply'.left + attempts ≤ supply.left := by
  induction h with
  | none => exact Nat.le_refl _
  | @more attempts b b₁ b₂ supply supply₁ supply₂ hfirst hrest ih =>
    have hone := spends_grow depth hpos _ _ hfirst
    have hcapacity := (GivenUp.more hfirst (.none b₁ supply₁)).capacity_eq
    have hothers := ih (hcapacity ▸ hpos)
    simp only at hone
    omega

/-- **Behind attempts that have been given up others are made**, from the buffer and the words that
they have left. -/
theorem run_growUntilFit (h : GivenUp terminals depth attempts b supply b' supply')
    (further : Nat) :
    ((growUntilFit terminals depth (attempts + further)).run b).run supply =
      ((growUntilFit terminals depth further).run b').run supply' := by
  induction h with
  | none => rw [Nat.zero_add]
  | more hfirst _ ih =>
    rw [Nat.succ_add, growUntilFit, StateT.run_bind, StateT.run_bind, hfirst]
    exact ih

end GivenUp

end Growing

namespace Generator

open Growing (GivenUp fittingWords fittingCode)

/-- What growth comes to on a stream a generator comes to, too. -/
theorem takes_grow {g : Generator} {depth slot n : Nat} {source : σ} {stop : Option Nat}
    {b : Buffer}
    (h : Draw.Takes ((Growing.grow g.terminals depth slot).run g.buffer) source n (stop, b)) :
    Draw.Takes (g.grow depth slot) source n (stop, { g with buffer := b }) :=
  h.bind (n := 0) (.pure _)

/-- A program is grown in the buffer of the generator, in no more attempts than there are words. -/
theorem run_generate (g : Generator) (supply : Supply σ) :
    g.generate.run supply =
      ((Growing.growUntilFit g.terminals g.depth supply.left).run g.buffer).run supply >>= fun r =>
        .ok ((r.1.1, { g with buffer := r.1.2 }), r.2) := rfl

/-- **No attempts that have been given up keep a generator from giving a program**: on words that
fit it does so at the next attempt. -/
theorem run_generate_of_givenUp {g : Generator} (hpos : 0 < g.terminals)
    (hthree : 3 ≤ g.buffer.capacity) {attempts : Nat} {b : Buffer} {supply supply' : Supply σ}
    (hgivenUp : GivenUp g.terminals g.depth attempts g.buffer supply b supply')
    (hwords : WordSource.Begins (fittingWords g.depth) supply'.source)
    (hleft : (fittingWords g.depth).length ≤ supply'.left) :
    ∃ rest : Supply σ, g.generate.run supply =
      .ok ((⟨fittingCode⟩, { g with buffer := b.writeAll 0 fittingCode }), rest) := by
  have hspent := hgivenUp.left_le (by omega)
  obtain ⟨spare, hspare⟩ := Nat.exists_eq_add_of_le hleft
  -- words were left for the attempts that have been given up and for another one
  obtain ⟨further, hfurther⟩ : ∃ further, supply.left = attempts + (further + 1) := by
    have hwordsPos : 0 < (fittingWords g.depth).length := Nat.zero_lt_succ _
    exact ⟨supply.left - attempts - 1, by omega⟩
  have hnext := Growing.takes_growUntilFit_fitting hpos (hgivenUp.capacity_eq ▸ hthree) hwords
    further spare
  rw [← hspare] at hnext
  refine ⟨⟨WordSource.drop (fittingWords g.depth).length supply'.source, spare⟩, ?_⟩
  rw [run_generate, hfurther, hgivenUp.run_growUntilFit, hnext]
  rfl

end Generator

end SymbolicRegression
