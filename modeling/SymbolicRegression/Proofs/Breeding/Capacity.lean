import SymbolicRegression.Proofs.Breeding.Growth
import SymbolicRegression.Random.Cycle

set_option autoImplicit false
set_option relaxedAutoImplicit false

/-!
# A buffer lets through what fits

The rules of growth make sense without a buffer: they draw opcodes until the subtree is complete,
however many these are. Here growth in a buffer is compared with that. A subtree that fits is
written opcode by opcode, and any other is given up as soon as a slot is missing; the rules draw the
same opcodes from the same words, whatever the capacity.

Growth never reads a slot, so nothing that stands in the buffer before, be it of an earlier subtree
or of an attempt that has been given up, makes a difference to what is drawn.

## Main definitions

* `SymbolicRegression.Buffer.writeAll` — opcodes written side by side.
* `SymbolicRegression.Growing.sprout` — the opcodes that the rules of growth draw without a buffer.
* `SymbolicRegression.Growing.Filtered` — what becomes of drawn opcodes in a buffer.
* `SymbolicRegression.Growing.SameGrowth` — growth that is the same in two buffers.

## Main results

* `SymbolicRegression.Growing.filtered_grow` — a buffer lets through what fits.
* `SymbolicRegression.Growing.alike_grow` — growth looks at the capacity of its buffer alone.
* `SymbolicRegression.Generator.grow_filters` — what a generator makes of the words it is given.
-/

namespace SymbolicRegression

/-! ## Opcodes written side by side -/

namespace Buffer

/-- Write opcodes into the slots from `slot` on. -/
def writeAll (b : Buffer) (slot : Nat) : List Opcode → Buffer
  | [] => b
  | op :: code => (b.write slot op).writeAll (slot + 1) code

/-- Writing changes no capacity. -/
@[simp] theorem capacity_writeAll (b : Buffer) (slot : Nat) (code : List Opcode) :
    (b.writeAll slot code).capacity = b.capacity := by
  induction code generalizing b slot with
  | nil => rfl
  | cons op code ih => rw [writeAll, ih, capacity_write]

/-- Two stretches are written one after the other. -/
theorem writeAll_append (b : Buffer) (slot : Nat) (front back : List Opcode) :
    b.writeAll slot (front ++ back) =
      (b.writeAll slot front).writeAll (slot + front.length) back := by
  induction front generalizing b slot with
  | nil => rfl
  | cons op front ih =>
    rw [List.cons_append, writeAll, ih, writeAll, List.length_cons, Nat.add_right_comm,
      Nat.add_assoc]

/-- The slots outside the stretch keep their opcodes. -/
theorem get_writeAll_of_outside (b : Buffer) {slot i : Nat} {code : List Opcode}
    (h : i < slot ∨ slot + code.length ≤ i) : (b.writeAll slot code).get i = b.get i := by
  induction code generalizing b slot with
  | nil => rfl
  | cons op code ih =>
    rw [List.length_cons] at h
    rw [writeAll, ih _ (by omega), get_write_of_ne b op (by omega)]

/-- The opcodes written stand in their slots. -/
theorem holds_writeAll (b : Buffer) (slot : Nat) (code : List Opcode) :
    (b.writeAll slot code).Holds slot code := by
  induction code generalizing b slot with
  | nil => rfl
  | cons op code ih =>
    have hhead : (b.writeAll slot (op :: code)).get slot = op := by
      rw [writeAll, get_writeAll_of_outside _ (.inl (Nat.lt_succ_self slot)), get_write_self]
    have hfront : (b.writeAll slot (op :: code)).Holds slot [op] := by
      have h := (b.writeAll slot (op :: code)).holds_singleton slot
      rwa [hhead] at h
    exact hfront.append (ih (b.write slot op) (slot + 1))

/-- Buffers that hold the same opcodes agree on their slots. -/
theorem Holds.get_eq {b b' : Buffer} {slot i : Nat} {code : List Opcode} (h : b.Holds slot code)
    (h' : b'.Holds slot code) (hle : slot ≤ i) (hlt : i < slot + code.length) :
    b.get i = b'.get i :=
  List.map_inj_left.mp (h.trans h'.symm) i (List.mem_range'_1.mpr ⟨hle, hlt⟩)

end Buffer

namespace Growing

variable {σ : Type}

/-! ## What becomes of drawn opcodes -/

/-- **What becomes of drawn opcodes in a buffer.** If they fit behind `slot`, they are written and
the same words are left. If they do not, growth is given up. If the draws end in a fault, growth has
been given up before or ends in that fault, too. -/
inductive Filtered (slot : Nat) (b : Buffer) : Except Fault (List Opcode × Supply σ) →
    Except Fault ((Option Nat × Buffer) × Supply σ) → Prop
  /-- The opcodes fit. -/
  | fits {code : List Opcode} {supply : Supply σ} (h : slot + code.length ≤ b.capacity) :
      Filtered slot b (.ok (code, supply))
        (.ok ((some (slot + code.length), b.writeAll slot code), supply))
  /-- The opcodes, if they are all drawn, do not fit. -/
  | overflows {drawn : Except Fault (List Opcode × Supply σ)} {b' : Buffer} {supply : Supply σ}
      (h : ∀ code supply', drawn = .ok (code, supply') → b.capacity < slot + code.length) :
      Filtered slot b drawn (.ok ((none, b'), supply))
  /-- The draws end in a fault. -/
  | fault (fault : Fault) : Filtered slot b (.error fault) (.error fault)

namespace Filtered

variable {slot : Nat} {b : Buffer} {drawn : Except Fault (List Opcode × Supply σ)}
  {grown : Except Fault ((Option Nat × Buffer) × Supply σ)}

/-- Opcodes that fit are written. -/
theorem eq_of_fits {code : List Opcode} {supply : Supply σ}
    (h : Filtered slot b (.ok (code, supply)) grown) (hfits : slot + code.length ≤ b.capacity) :
    grown = .ok ((some (slot + code.length), b.writeAll slot code), supply) := by
  cases h with
  | fits => rfl
  | overflows hlong => exact absurd hfits (Nat.not_le.mpr (hlong _ _ rfl))

/-- For opcodes that do not fit growth is given up. -/
theorem eq_of_overflows {code : List Opcode} {supply : Supply σ}
    (h : Filtered slot b (.ok (code, supply)) grown) (hlong : b.capacity < slot + code.length) :
    ∃ (b' : Buffer) (supply' : Supply σ), grown = .ok ((none, b'), supply') := by
  cases h with
  | fits hfits => exact absurd hfits (Nat.not_le.mpr hlong)
  | overflows => exact ⟨_, _, rfl⟩

/-- Opcodes that are drawn behind others become what all of them become, once the others have been
written. -/
theorem behind {front : List Opcode}
    (h : Filtered (slot + front.length) (b.writeAll slot front) drawn grown) :
    Filtered slot b (drawn >>= fun r => .ok (front ++ r.1, r.2)) grown := by
  cases h with
  | fault fault => exact .fault fault
  | overflows hlong =>
    refine .overflows fun code supply' hcode => ?_
    obtain ⟨⟨back, _⟩, hback, hcode⟩ := bind_eq_ok_iff.mp hcode
    obtain ⟨rfl, rfl⟩ := Prod.mk.inj (Except.ok.inj hcode)
    have hlong := hlong _ _ hback
    rwa [Buffer.capacity_writeAll, Nat.add_assoc, ← List.length_append] at hlong
  | @fits back supply hfits =>
    rw [Buffer.capacity_writeAll, Nat.add_assoc, ← List.length_append] at hfits
    rw [Nat.add_assoc, ← List.length_append, ← Buffer.writeAll_append]
    exact .fits hfits

/-- Where no slot is left, no subtree fits. -/
theorem of_full {d : Draw σ (List Opcode)} (hd : Draw.Gives d (0 < ·.length))
    (hslot : ¬ slot < b.capacity) (supply : Supply σ) :
    Filtered slot b (d.run supply) (.ok ((none, b), supply)) := by
  refine .overflows fun code supply' hcode => ?_
  have hpos : 0 < code.length := hd supply _ hcode
  omega

end Filtered

variable [WordSource σ]

/-! ## Growth without a buffer -/

/-- A random terminal. -/
def sproutLeaf (terminals : Nat) : Draw σ (List Opcode) := do
  return [← randomTerminal terminals]

/-- A random operator with two operands. -/
def sproutNode (operand : Draw σ (List Opcode)) : Draw σ (List Opcode) := do
  let op ← randomOperator
  let left ← operand
  let right ← operand
  return op :: (left ++ right)

/-- The opcodes of an operand of at most the given depth. -/
def sproutOperand (terminals : Nat) : (depth : Nat) → Draw σ (List Opcode)
  | 0 => sproutLeaf terminals
  | depth + 1 => do
    if ← Draw.coin 0.5 then sproutNode (sproutOperand terminals depth)
    else sproutLeaf terminals

/-- The opcodes that the rules of growth draw for a subtree at a slot, however many they are. -/
def sprout (terminals depth slot : Nat) : Draw σ (List Opcode) :=
  if slot = 0 then sproutNode (sproutOperand terminals (depth - 1))
  else sproutOperand terminals depth

/-- A terminal is an opcode. -/
theorem gives_sproutLeaf (terminals : Nat) :
    Draw.Gives (sproutLeaf terminals : Draw σ (List Opcode)) (0 < ·.length) :=
  (Draw.Gives.trivially _).bind fun _ _ => .pure (Nat.zero_lt_succ 0)

/-- An operator is an opcode. -/
theorem gives_sproutNode (operand : Draw σ (List Opcode)) :
    Draw.Gives (sproutNode operand) (0 < ·.length) :=
  (Draw.Gives.trivially _).bind fun _ _ => (Draw.Gives.trivially _).bind fun _ _ =>
    (Draw.Gives.trivially _).bind fun _ _ => .pure (Nat.zero_lt_succ _)

/-- An operand has an opcode. -/
theorem gives_sproutOperand (terminals depth : Nat) :
    Draw.Gives (sproutOperand terminals depth : Draw σ (List Opcode)) (0 < ·.length) := by
  cases depth with
  | zero => exact gives_sproutLeaf terminals
  | succ depth =>
    refine (Draw.Gives.trivially _).bind fun heads _ => ?_
    split
    · exact gives_sproutNode _
    · exact gives_sproutLeaf terminals

/-! ## Growth in a buffer -/

/-- A random terminal is let through if there is a slot for it. -/
theorem filtered_growLeaf (terminals : Nat) {slot : Nat} {b : Buffer} (hslot : slot < b.capacity)
    (supply : Supply σ) : Filtered slot b ((sproutLeaf terminals).run supply)
      (((growLeaf terminals slot).run b).run supply) := by
  simp only [sproutLeaf, growLeaf, StateT.run_bind, run_place, bind_assoc, pure_bind,
    StateT.run_pure]
  rcases (randomTerminal terminals : Draw σ Opcode).run supply with fault | ⟨op, supply'⟩
  · exact .fault fault
  · exact .fits hslot

/-- **An operator is let through with its operands**, if these are let through wherever they start.

**Proof sketch.** If the left operand does not fit, neither do both. Otherwise the right one starts
behind the operator and the left one, which have been written by then. -/
theorem filtered_growNode {drawn : Draw σ (List Opcode)} {operand : Nat → Growing σ (Option Nat)}
    (hoperand : ∀ slot b supply,
      Filtered slot b (drawn.run supply) (((operand slot).run b).run supply))
    (slot : Nat) (b : Buffer) (supply : Supply σ) :
    Filtered slot b ((sproutNode drawn).run supply)
      (((growNode operand slot).run b).run supply) := by
  simp only [sproutNode, growNode, StateT.run_bind, run_place, bind_assoc, pure_bind]
  rcases (randomOperator : Draw σ Opcode).run supply with fault | ⟨op, supply₁⟩
  · exact .fault fault
  show Filtered slot b
    (drawn.run supply₁ >>= fun l => drawn.run l.2 >>= fun r => .ok (op :: (l.1 ++ r.1), r.2))
    (((operand (slot + 1)).run (b.write slot op)).run supply₁ >>= fun r => _)
  have hleft := hoperand (slot + 1) (b.write slot op) supply₁
  generalize drawn.run supply₁ = drawnLeft,
    ((operand (slot + 1)).run (b.write slot op)).run supply₁ = grownLeft at hleft ⊢
  cases hleft with
  | fault fault => exact (.fault fault : Filtered slot b (.error fault) (.error fault))
  | @overflows _ b₁ supply₂ hlong =>
    show Filtered slot b _ (.ok ((none, b₁), supply₂))
    refine .overflows fun code supply' hcode => ?_
    obtain ⟨⟨left, _⟩, hleft, hcode⟩ := bind_eq_ok_iff.mp hcode
    obtain ⟨⟨right, _⟩, -, hcode⟩ := bind_eq_ok_iff.mp hcode
    obtain ⟨rfl, rfl⟩ := Prod.mk.inj (Except.ok.inj hcode)
    have hlong := hlong _ _ hleft
    rw [Buffer.capacity_write] at hlong
    simp only [List.length_cons, List.length_append]
    omega
  | @fits left supply₂ hfits =>
    have hnext : slot + 1 + left.length = slot + (op :: left).length := by
      rw [List.length_cons]
      omega
    have hright := hoperand (slot + (op :: left).length) (b.writeAll slot (op :: left)) supply₂
    rw [hnext]
    exact hright.behind

/-- An operand is let through.

**Proof sketch.** Induction on the depth budget. Growth looks for a slot before it draws anything,
and where there is none no subtree fits. -/
theorem filtered_growOperand (terminals depth slot : Nat) (b : Buffer) (supply : Supply σ) :
    Filtered slot b ((sproutOperand terminals depth).run supply)
      (((growOperand terminals depth slot).run b).run supply) := by
  induction depth generalizing slot b supply with
  | zero =>
    simp only [growOperand, StateT.run_bind, StateT.run_get, pure_bind]
    split
    · exact filtered_growLeaf terminals ‹_› supply
    · exact .of_full (gives_sproutOperand terminals 0) ‹_› supply
  | succ depth ih =>
    simp only [growOperand, StateT.run_bind, StateT.run_get, pure_bind]
    split
    · simp only [sproutOperand, StateT.run_bind, StateT.run_monadLift, bind_assoc, pure_bind]
      rcases (Draw.coin 0.5 : Draw σ Bool).run supply with fault | ⟨heads, supply₁⟩
      · exact (.fault fault : Filtered slot b (.error fault) (.error fault))
      · cases heads with
        | true => exact filtered_growNode ih slot b supply₁
        | false => exact filtered_growLeaf terminals ‹_› supply₁
    · exact .of_full (gives_sproutOperand terminals (depth + 1)) ‹_› supply

/-- **A buffer lets through what fits** of all that the rules of growth draw. -/
theorem filtered_grow (terminals depth slot : Nat) (b : Buffer) (supply : Supply σ) :
    Filtered slot b ((sprout terminals depth slot).run supply)
      (((grow terminals depth slot).run b).run supply) := by
  by_cases hslot : slot = 0
  · subst hslot
    simp only [sprout, grow, if_true, StateT.run_bind, StateT.run_get, pure_bind]
    split
    · exact filtered_growNode (filtered_growOperand terminals (depth - 1)) 0 b supply
    · exact .of_full (gives_sproutNode _) ‹_› supply
  · rw [sprout, grow, if_neg hslot, if_neg hslot]
    exact filtered_growOperand terminals depth slot b supply

/-! ## What stands in the buffer before -/

/-- **The same growth in two buffers**: it comes to one end or is given up in both, and has written
the same opcodes from `slot` on, up to the end if there is one. -/
def SameGrowth (slot : Nat) (b b' : Buffer) (r r' : Option Nat × Buffer) : Prop :=
  r.1 = r'.1 ∧ ∃ code : List Opcode, r.2 = b.writeAll slot code ∧ r'.2 = b'.writeAll slot code ∧
    ∀ stop, r.1 = some stop → stop = slot + code.length

/-- Growth that is given up at once is the same. -/
theorem sameGrowth_none (slot : Nat) (b b' : Buffer) : SameGrowth slot b b' (none, b) (none, b') :=
  ⟨rfl, [], rfl, rfl, fun _ h => by simp at h⟩

variable {b b' : Buffer}

/-- A random terminal is the same in both. -/
theorem alike_growLeaf (terminals slot : Nat) (b b' : Buffer) :
    Draw.Alike (SameGrowth slot b b') ((growLeaf terminals slot : Growing σ (Option Nat)).run b)
      ((growLeaf terminals slot).run b') := by
  simp only [growLeaf, StateT.run_bind, run_place, bind_assoc, pure_bind, StateT.run_pure]
  refine (Draw.Alike.refl _).bind ?_
  rintro op _ rfl
  exact .pure ⟨rfl, [op], rfl, rfl, fun stop h => (Option.some.inj h).symm⟩

/-- An operator is the same in both if its operands are. -/
theorem alike_growNode {operand : Nat → Growing σ (Option Nat)}
    (hoperand : ∀ slot (b b' : Buffer), b.capacity = b'.capacity →
      Draw.Alike (SameGrowth slot b b') ((operand slot).run b) ((operand slot).run b'))
    (slot : Nat) (hcapacity : b.capacity = b'.capacity) :
    Draw.Alike (SameGrowth slot b b') ((growNode operand slot).run b)
      ((growNode operand slot).run b') := by
  simp only [growNode, StateT.run_bind, run_place, bind_assoc, pure_bind]
  refine (Draw.Alike.refl _).bind ?_
  rintro op _ rfl
  refine (hoperand (slot + 1) (b.write slot op) (b'.write slot op) (by simpa)).bind ?_
  rintro ⟨right, b₁⟩ ⟨_, b₁'⟩ ⟨rfl, left, rfl, rfl, hleft⟩
  cases right with
  | none => exact .pure ⟨rfl, op :: left, rfl, rfl, fun _ h => by simp at h⟩
  | some right =>
    obtain rfl := hleft right rfl
    refine (hoperand _ _ _ (by simpa)).mono ?_
    rintro ⟨stop, b₂⟩ ⟨_, b₂'⟩ ⟨rfl, right, rfl, rfl, hright⟩
    refine ⟨rfl, op :: (left ++ right), ?_, ?_, fun stop' h => ?_⟩
    · rw [Buffer.writeAll, Buffer.writeAll_append]
    · rw [Buffer.writeAll, Buffer.writeAll_append]
    · rw [hright stop' h, List.length_cons, List.length_append]
      omega

/-- An operand is the same in both.

**Proof sketch.** Induction on the depth budget: the two buffers have a slot for the same opcodes,
and an operator's operands have one level less. -/
theorem alike_growOperand (terminals depth slot : Nat) (hcapacity : b.capacity = b'.capacity) :
    Draw.Alike (SameGrowth slot b b')
      ((growOperand terminals depth slot : Growing σ (Option Nat)).run b)
      ((growOperand terminals depth slot).run b') := by
  induction depth generalizing slot b b' with
  | zero =>
    simp only [growOperand, StateT.run_bind, StateT.run_get, pure_bind, hcapacity]
    split
    · exact alike_growLeaf terminals slot b b'
    · exact .pure (sameGrowth_none slot b b')
  | succ depth ih =>
    simp only [growOperand, StateT.run_bind, StateT.run_get, pure_bind, hcapacity]
    split
    · simp only [StateT.run_bind, StateT.run_monadLift, bind_assoc, pure_bind]
      refine (Draw.Alike.refl _).bind ?_
      rintro heads _ rfl
      split
      · exact alike_growNode (fun slot _ _ h => ih slot h) slot hcapacity
      · exact alike_growLeaf terminals slot b b'
    · exact .pure (sameGrowth_none slot b b')

/-- **Growth looks at the capacity of its buffer alone**: in buffers of one capacity it takes the
same words, comes to the same end and writes the same opcodes. -/
theorem alike_grow (terminals depth slot : Nat) (hcapacity : b.capacity = b'.capacity) :
    Draw.Alike (SameGrowth slot b b')
      ((grow terminals depth slot : Growing σ (Option Nat)).run b)
      ((grow terminals depth slot).run b') := by
  by_cases hslot : slot = 0
  · subst hslot
    simp only [grow, if_true, StateT.run_bind, StateT.run_get, pure_bind, hcapacity]
    split
    · exact alike_growNode (fun slot _ _ h => alike_growOperand _ _ slot h) 0 hcapacity
    · exact .pure (sameGrowth_none 0 b b')
  · rw [grow, if_neg hslot]
    exact alike_growOperand terminals depth slot hcapacity

/-- Growth writes opcodes side by side, from its slot on and up to its end if it comes to one. -/
theorem gives_grow (terminals depth slot : Nat) (b : Buffer) :
    Draw.Gives ((grow terminals depth slot : Growing σ (Option Nat)).run b) fun r =>
      ∃ code : List Opcode, r.2 = b.writeAll slot code ∧
        ∀ stop, r.1 = some stop → stop = slot + code.length := by
  refine (alike_grow terminals depth slot rfl).gives.mono ?_
  rintro r ⟨-, code, hwritten, -, hstop⟩
  exact ⟨code, hwritten, hstop⟩

/-- The attempts made before leave nothing behind that a later one looks at, so the program that
fits is the same. -/
theorem alike_growUntilFit (terminals depth attempts : Nat)
    (hcapacity : b.capacity = b'.capacity) :
    Draw.Alike (fun r r' => r.1 = r'.1)
      ((growUntilFit terminals depth attempts : Growing σ Program).run b)
      ((growUntilFit terminals depth attempts).run b') := by
  induction attempts generalizing b b' with
  | zero => exact fun _ => .fault _
  | succ attempts ih =>
    simp only [growUntilFit, StateT.run_bind]
    refine (alike_grow terminals depth 0 hcapacity).bind ?_
    rintro ⟨stop, b₁⟩ ⟨_, b₁'⟩ ⟨rfl, code, rfl, rfl, hstop⟩
    cases stop with
    | none => exact ih (by simpa)
    | some stop =>
      obtain rfl := hstop stop rfl
      simp only [StateT.run_bind, StateT.run_get, pure_bind, StateT.run_pure, Nat.zero_add]
      refine .pure ?_
      rw [(b.holds_writeAll 0 code).take_eq, (b'.holds_writeAll 0 code).take_eq]

end Growing

/-! ## The calls of a generator -/

namespace Generator

variable {σ : Type} [WordSource σ]

/-- A subtree is grown in the buffer of the generator. -/
theorem run_grow (g : Generator) (depth slot : Nat) (supply : Supply σ) :
    (g.grow depth slot).run supply =
      ((Growing.grow g.terminals depth slot).run g.buffer).run supply >>= fun r =>
        .ok ((r.1.1, { g with buffer := r.1.2 }), r.2) := rfl

section

variable {g : Generator} {depth slot : Nat} {supply supply' : Supply σ} {code : List Opcode}
  (hdrawn : (Growing.sprout g.terminals depth slot).run supply = .ok (code, supply'))
include hdrawn

/-- A generator writes a subtree that fits. -/
theorem run_grow_of_fits (hfits : slot + code.length ≤ g.buffer.capacity) :
    (g.grow depth slot).run supply =
      .ok ((some (slot + code.length), { g with buffer := g.buffer.writeAll slot code }),
        supply') := by
  have hlet := Growing.filtered_grow g.terminals depth slot g.buffer supply
  rw [hdrawn] at hlet
  rw [run_grow, hlet.eq_of_fits hfits]
  rfl

/-- A generator gives up a subtree that does not fit. -/
theorem run_grow_of_overflows (hlong : g.buffer.capacity < slot + code.length) :
    ∃ (b : Buffer) (supply₁ : Supply σ),
      (g.grow depth slot).run supply = .ok ((none, { g with buffer := b }), supply₁) := by
  have hlet := Growing.filtered_grow g.terminals depth slot g.buffer supply
  rw [hdrawn] at hlet
  obtain ⟨b, supply₁, hgrown⟩ := hlet.eq_of_overflows hlong
  refine ⟨b, supply₁, ?_⟩
  rw [run_grow, hgrown]
  rfl

end

variable {g other : Generator}

/-- In buffers of one capacity a subtree takes the same words and comes to the same end. -/
theorem fst_grow_congr (hterminals : other.terminals = g.terminals)
    (hcapacity : other.buffer.capacity = g.buffer.capacity) (depth slot : Nat) :
    (Prod.fst <$> other.grow depth slot : Draw σ (Option Nat)) =
      Prod.fst <$> g.grow depth slot := by
  simp only [grow, hterminals, map_bind, map_pure]
  refine Draw.Alike.eq_of ((Growing.alike_grow g.terminals depth slot hcapacity).bind ?_)
  rintro r r' ⟨hstop, -⟩
  exact .pure hstop

/-- In buffers of one capacity a program takes the same words and is the same. -/
theorem fst_generate_congr (hterminals : other.terminals = g.terminals)
    (hdepth : other.depth = g.depth) (hcapacity : other.buffer.capacity = g.buffer.capacity) :
    (Prod.fst <$> other.generate : Draw σ Program) = Prod.fst <$> g.generate := by
  simp only [generate, hterminals, hdepth, map_bind, map_pure]
  refine Draw.Alike.eq_of ((Draw.Alike.refl _).bind ?_)
  rintro supply _ rfl
  refine (Growing.alike_growUntilFit g.terminals g.depth supply.left hcapacity).bind ?_
  intro r r' hprogram
  exact .pure hprogram

/-- **The capacity only filters growth.** Let `code` be what the rules of growth draw from the words
when there is no buffer. If it fits behind `slot`, then a generator gives the end of it, writes it
there, changes no other slot, and has taken the same words; otherwise it gives nothing.

Hence another generator for the same terminals that has more room grows the same subtree. One with
the same room takes the same words and has the same answers from any supply, whatever stands in the
two buffers, and the same is true of whole programs, with all the attempts that they take. -/
theorem grow_filters {g : Generator} {depth slot : Nat} {supply supply' : Supply σ}
    {code : List Opcode}
    (hdrawn : (Growing.sprout g.terminals depth slot).run supply = .ok (code, supply')) :
    (slot + code.length ≤ g.buffer.capacity →
      ∃ b : Buffer, (g.grow depth slot).run supply =
          .ok ((some (slot + code.length), { g with buffer := b }), supply') ∧
        b.capacity = g.buffer.capacity ∧ b.Holds slot code ∧
        ∀ i, i < slot ∨ slot + code.length ≤ i → b.get i = g.buffer.get i) ∧
    (g.buffer.capacity < slot + code.length →
      ∃ (b : Buffer) (supply₁ : Supply σ),
        (g.grow depth slot).run supply = .ok ((none, { g with buffer := b }), supply₁)) ∧
    ∀ other : Generator, other.terminals = g.terminals →
      (g.buffer.capacity ≤ other.buffer.capacity → ∀ stop g₁ supply₁,
        (g.grow depth slot).run supply = .ok ((some stop, g₁), supply₁) →
        ∃ other₁, (other.grow depth slot).run supply = .ok ((some stop, other₁), supply₁) ∧
          ∀ i, slot ≤ i → i < stop → other₁.buffer.get i = g₁.buffer.get i) ∧
      (other.buffer.capacity = g.buffer.capacity →
        (Prod.fst <$> other.grow depth slot : Draw σ (Option Nat)) =
          Prod.fst <$> g.grow depth slot ∧
        (other.depth = g.depth →
          (Prod.fst <$> other.generate : Draw σ Program) = Prod.fst <$> g.generate)) := by
  refine ⟨fun hfits => ?_, run_grow_of_overflows hdrawn, fun other hterminals => ⟨?_, ?_⟩⟩
  · exact ⟨_, run_grow_of_fits hdrawn hfits, Buffer.capacity_writeAll _ _ _,
      Buffer.holds_writeAll _ _ _, fun i hi => Buffer.get_writeAll_of_outside _ hi⟩
  · intro hroom stop g₁ supply₁ hgrown
    -- an end is given only if the subtree fits, and then it fits into the other buffer as well
    rcases Nat.lt_or_ge g.buffer.capacity (slot + code.length) with hlong | hfits
    · obtain ⟨b, supply₂, hnone⟩ := run_grow_of_overflows hdrawn hlong
      simp [hnone] at hgrown
    · rw [run_grow_of_fits hdrawn hfits, Except.ok.injEq] at hgrown
      obtain ⟨⟨⟨⟩, rfl⟩, rfl⟩ := hgrown
      have hother := run_grow_of_fits (g := other) (hterminals ▸ hdrawn) (Nat.le_trans hfits hroom)
      exact ⟨_, hother, fun i hle hlt =>
        (Buffer.holds_writeAll _ _ _).get_eq (Buffer.holds_writeAll _ _ _) hle hlt⟩
  · intro hcapacity
    exact ⟨fst_grow_congr hterminals hcapacity depth slot,
      fun hdepth => fst_generate_congr hterminals hdepth hcapacity⟩

/-- A difference of two terminals is grown from slot 1 on. It just fits into a buffer of four slots
that an earlier subtree has filled, but not into one of three. -/
theorem grow_filters_sample :
    let words : Supply Cycle :=
      ⟨.ofList [1, 0x4000000000000000, 0x8000000000000000, 0xffffffffffffffff, 0], 9⟩
    let g : Generator := ⟨⟨4, #[110, 0, 1, 1]⟩, 2, 1⟩
    let narrow : Generator := ⟨⟨3, #[]⟩, 2, 1⟩
    ∃ rest : Supply Cycle, (Growing.sprout 2 1 1).run words = .ok ([111, 1, 0], rest) ∧
      (∃ b : Buffer, (g.grow 1 1).run words = .ok ((some 4, { g with buffer := b }), rest) ∧
        b.take 4 = [110, 111, 1, 0]) ∧
      ∃ (b : Buffer) (rest' : Supply Cycle),
        (narrow.grow 1 1).run words = .ok ((none, { narrow with buffer := b }), rest') := by
  intro words g narrow
  have htest : ((Growing.sprout 2 1 1).run words).toOption.any (·.1 = [111, 1, 0]) = true := by
    decide +kernel
  rcases hdrawn : (Growing.sprout 2 1 1).run words with fault | ⟨code, rest⟩
  · rw [hdrawn] at htest
    cases htest
  · rw [hdrawn] at htest
    obtain rfl : code = [111, 1, 0] := of_decide_eq_true htest
    obtain ⟨b, hgrown, -, hholds, hkeep⟩ := (grow_filters (g := g) hdrawn).1 (by decide)
    have htake : b.take 4 = b.get 0 :: (List.range' 1 3).map b.get := rfl
    refine ⟨rest, rfl, ⟨b, hgrown, ?_⟩, (grow_filters (g := narrow) hdrawn).2.1 (by decide)⟩
    rw [htake, hkeep 0 (by decide)]
    exact congrArg _ hholds

end Generator

end SymbolicRegression
