import Mathlib.Tactic.Common
import SymbolicRegression.Proofs.Breeding.Crossover
import SymbolicRegression.Proofs.Fitness.Scoring
import SymbolicRegression.Random.Cycle

set_option autoImplicit false
set_option relaxedAutoImplicit false

/-!
# The value around a subtree

What stands around a subtree turns the value of the subtree into the value of the whole. A splice
puts another subtree there and keeps what stands around it, so the child has the value that the same
function gives on the value of the subtree that has come. If this is the value of the subtree that
has gone, on every case, then the child has the fitness of the first parent.

## Main definitions

* `SymbolicRegression.Tree.context` — the value of a tree as a function of the value at a position.
* `SymbolicRegression.Program.stretch` — the opcodes between two offsets.

## Main results

* `SymbolicRegression.Tree.value_replace` — the value of a tree with another subtree.
* `SymbolicRegression.Sites.Cut.evaluate_child` — the value of the child of a splice.
* `SymbolicRegression.Program.IsComplete.evaluate_splice` — evaluation is compositional under
  splicing.
-/

namespace SymbolicRegression

/-! ## Trees with a value put in -/

namespace Tree

variable (values : Array Float)

/-- The value of a tree when the subtree at a pre-order position has the value `x`. -/
def context : Tree → Nat → Float → Float
  | _, 0, x => x
  | leaf slot, _ + 1, _ => values.getD slot.val 0.0
  | node op left right, i + 1, x =>
    if i < left.size then op.apply (left.context i x) (right.value values)
    else op.apply (left.value values) (right.context (i - left.size) x)

/-- **The value of a tree with another subtree** is that of what stands around the subtree, on the
value of the new one.

**Proof sketch.** Induction along the search for the position: one operand is replaced, the other
keeps its value. -/
theorem value_replace (t : Tree) (i : Nat) (new : Tree) :
    (t.replace i new).value values = t.context values i (new.value values) := by
  fun_induction replace t i new with
  | case1 t => rw [context]
  | case2 slot i => rw [context, value]
  | case3 op left right i new hi ih => rw [value, context, if_pos hi, ih]
  | case4 op left right i new hi ih => rw [value, context, if_neg hi, ih]

/-- The value of a tree is that of what stands around a subtree, on the value of the subtree. -/
theorem value_eq_context {t s : Tree} {i : Nat} (h : t.subtree? i = some s) :
    t.value values = t.context values i (s.value values) := by
  rw [← value_replace, replace_self h]

end Tree

/-- The opcodes from one offset up to another. -/
def Program.stretch (p : Program) (start stop : Nat) : Program := ⟨(p.code.take stop).drop start⟩

/-- The opcodes of a subtree are evaluated as the subtree. -/
theorem Program.evaluate_stretch {t s : Tree} {i : Nat} (h : t.subtree? i = some s)
    (b : Bindings) :
    ((Program.mk t.encode).stretch i (i + s.size)).evaluate b = s.value b.values := by
  rw [stretch, Tree.drop_take_encode h, evaluate_encode]

/-! ## The child of a splice -/

namespace Sites.Cut

variable {t₁ t₂ s₁ s₂ : Tree} {sites : Sites} (h : sites.Cut t₁ t₂ s₁ s₂)
include h

/-- The value of the stretch that goes. -/
theorem evaluate_stretch₁ (b : Bindings) :
    ((Program.mk t₁.encode).stretch sites.start1 sites.stop1).evaluate b = s₁.value b.values := by
  rw [h.stop₁, Program.evaluate_stretch h.subtree₁]

/-- The value of the stretch that comes. -/
theorem evaluate_stretch₂ (b : Bindings) :
    ((Program.mk t₂.encode).stretch sites.start2 sites.stop2).evaluate b = s₂.value b.values := by
  rw [h.stop₂, Program.evaluate_stretch h.subtree₂]

/-- **The value of the child** is that of what stands around the stretch that goes, on the value of
the stretch that comes. -/
theorem evaluate_child (b : Bindings) :
    (Program.mk (t₁.replace sites.start1 s₂).encode).evaluate b =
      t₁.context b.values sites.start1
        (((Program.mk t₂.encode).stretch sites.start2 sites.stop2).evaluate b) := by
  rw [Program.evaluate_encode, Tree.value_replace, h.evaluate_stretch₂]

/-- If both stretches have one value, the child has the value of the first parent. -/
theorem evaluate_child_of_eq {b : Bindings}
    (heq : ((Program.mk t₂.encode).stretch sites.start2 sites.stop2).evaluate b =
      ((Program.mk t₁.encode).stretch sites.start1 sites.stop1).evaluate b) :
    (Program.mk (t₁.replace sites.start1 s₂).encode).evaluate b =
      (Program.mk t₁.encode).evaluate b := by
  rw [h.evaluate_child, heq, h.evaluate_stretch₁, ← Tree.value_eq_context b.values h.subtree₁,
    Program.evaluate_encode]

/-- If both stretches have one value on every case, the child has the fitness of the first
parent. -/
theorem score_child {s : Scorer} (heq : ∀ c ∈ s.cases, ∀ b, s.bindings.bind c.inputs = .ok b →
      ((Program.mk t₂.encode).stretch sites.start2 sites.stop2).evaluate b =
        ((Program.mk t₁.encode).stretch sites.start1 sites.stop1).evaluate b) :
    s.score ⟨(t₁.replace sites.start1 s₂).encode⟩ = s.score ⟨t₁.encode⟩ :=
  Scorer.score_congr t₁.isComplete_encode (Tree.isComplete_encode _)
    fun c hc b hb => h.evaluate_child_of_eq (heq c hc b hb)

end Sites.Cut

/-! ## Programs -/

/-- **Evaluation is compositional under splicing.** From every opcode of a complete program the
search finds the end of a subtree, and what stands around it is, under any table of bound values, a
function of one number: on the value of the subtree it gives the value of the program, and on the
value of any subtree of any complete program it gives the value of the child that has this subtree
in its place. So a crossover that puts in a subtree with the same value on every case gives a child
that is scored like the first parent. -/
theorem Program.IsComplete.evaluate_splice {p₁ : Program} (h₁ : p₁.IsComplete) :
    (∀ start₁, start₁ < p₁.length → ∃ stop₁, subtreeEnd p₁.code start₁ = some stop₁ ∧
      ∀ b : Bindings, ∃ ctx : Float → Float,
        p₁.evaluate b = ctx ((p₁.stretch start₁ stop₁).evaluate b) ∧
        ∀ p₂ : Program, p₂.IsComplete → ∀ start₂, start₂ < p₂.length →
          ∃ stop₂, subtreeEnd p₂.code start₂ = some stop₂ ∧
            ∃ child, splice p₁ p₂ ⟨start₁, stop₁, start₂, stop₂⟩ = .ok child ∧
              child.evaluate b = ctx ((p₂.stretch start₂ stop₂).evaluate b)) ∧
    ∀ {σ : Type} [WordSource σ] (p₂ : Program), p₂.IsComplete →
      ∀ (maxLength : Nat) (supply supply' : Supply σ) (sites : Sites),
        (chooseSites p₁ p₂).run supply = .ok (sites, supply') →
        ∀ s : Scorer,
          (∀ c ∈ s.cases, ∀ b, s.bindings.bind c.inputs = .ok b →
            (p₂.stretch sites.start2 sites.stop2).evaluate b =
              (p₁.stretch sites.start1 sites.stop1).evaluate b) →
          ∃ child, (crossover p₁ p₂ maxLength).run supply = .ok (child, supply') ∧
            s.score child = s.score p₁ := by
  obtain ⟨t₁, rfl⟩ := h₁.exists_eq_encode
  refine ⟨fun start₁ hstart₁ => ?_, ?_⟩
  · obtain ⟨s₁, hs₁⟩ := Program.exists_subtree? hstart₁
    refine ⟨_, Tree.subtreeEnd_encode hs₁, fun b => ⟨t₁.context b.values start₁, ?_, ?_⟩⟩
    · rw [Program.evaluate_stretch hs₁, Program.evaluate_encode, Tree.value_eq_context _ hs₁]
    · intro p₂ h₂ start₂ hstart₂
      obtain ⟨t₂, rfl⟩ := h₂.exists_eq_encode
      obtain ⟨s₂, hs₂⟩ := Program.exists_subtree? hstart₂
      have hcut : Sites.Cut t₁ t₂ s₁ s₂ ⟨start₁, start₁ + s₁.size, start₂, start₂ + s₂.size⟩ :=
        ⟨hs₁, rfl, hs₂, rfl⟩
      exact ⟨_, Tree.subtreeEnd_encode hs₂, _, hcut.splice_eq, hcut.evaluate_child b⟩
  · intro σ _ p₂ h₂ maxLength supply supply' sites hsites s heq
    obtain ⟨t₂, rfl⟩ := h₂.exists_eq_encode
    obtain ⟨s₁, s₂, hcut⟩ := (yields_chooseSites t₁ t₂ supply).of_eq_ok hsites
    have hrun : (crossover ⟨t₁.encode⟩ ⟨t₂.encode⟩ maxLength).run supply =
        (if maxLength < sites.childLength (Program.mk t₁.encode).length then
            (return ⟨t₁.encode⟩ : Draw σ Program)
          else splice ⟨t₁.encode⟩ ⟨t₂.encode⟩ sites).run supply' := by
      rw [crossover, StateT.run_bind, hsites]
      rfl
    rw [hrun]
    split
    · -- the child is too long, and the first parent stands in for it
      exact ⟨_, rfl, rfl⟩
    · rw [hcut.splice_eq]
      exact ⟨_, rfl, hcut.score_child heq⟩

/-- Where the first variable is zero, the quotient of the second by the first has the value of the
second, since it is not divided by zero. So the second operand of a sum may give way to it. -/
theorem Program.IsComplete.evaluate_splice_sample :
    let p₁ : Program := ⟨[110, 0, 1]⟩
    let p₂ : Program := ⟨[113, 1, 0]⟩
    let child : Program := ⟨[110, 0, 113, 1, 0]⟩
    let words : Supply Cycle := ⟨.ofList [0xb000000000000000, 0], 2⟩
    let rest : Supply Cycle := ⟨⟨#[0xb000000000000000, 0], 2⟩, 0⟩
    let s : Scorer := .fresh [⟨#[0.0, 5.0], 4.0⟩] ⟨#[0.0, 0.0], 2, by decide⟩
    p₁.IsComplete ∧ p₂.IsComplete ∧ splice p₁ p₂ ⟨2, 3, 0, 3⟩ = .ok child ∧
      (∀ b : Bindings, ∃ ctx : Float → Float, p₁.evaluate b = ctx ((p₁.stretch 2 3).evaluate b) ∧
        child.evaluate b = ctx ((p₂.stretch 0 3).evaluate b)) ∧
      (chooseSites p₁ p₂).run words = .ok (⟨2, 3, 0, 3⟩, rest) ∧
      (crossover p₁ p₂ 5).run words = .ok (child, rest) ∧ s.score child = s.score p₁ := by
  have hsplice : splice ⟨[110, 0, 1]⟩ ⟨[113, 1, 0]⟩ ⟨2, 3, 0, 3⟩ = .ok ⟨[110, 0, 113, 1, 0]⟩ := by
    rfl
  have hsites : (chooseSites ⟨[110, 0, 1]⟩ ⟨[113, 1, 0]⟩).run
      (⟨.ofList [0xb000000000000000, 0], 2⟩ : Supply Cycle) =
        .ok (⟨2, 3, 0, 3⟩, ⟨⟨#[0xb000000000000000, 0], 2⟩, 0⟩) := by rfl
  have hcrossed : (crossover ⟨[110, 0, 1]⟩ ⟨[113, 1, 0]⟩ 5).run
      (⟨.ofList [0xb000000000000000, 0], 2⟩ : Supply Cycle) =
        .ok (⟨[110, 0, 113, 1, 0]⟩, ⟨⟨#[0xb000000000000000, 0], 2⟩, 0⟩) := by rfl
  have hbind : Bindings.bind ⟨#[0.0, 0.0], 2, by decide⟩ #[0.0, 5.0] =
      .ok ⟨#[0.0, 5.0], 2, by decide⟩ := by rfl
  have hquotient : (Program.mk [113, 1, 0]).evaluate ⟨#[0.0, 5.0], 2, by decide⟩ =
      (Program.mk [1]).evaluate ⟨#[0.0, 5.0], 2, by decide⟩ := by rfl
  intro p₁ p₂ child words rest s
  have h₁ : p₁.IsComplete := by decide
  have h₂ : p₂.IsComplete := by decide
  obtain ⟨hvalue, hscore⟩ := Program.IsComplete.evaluate_splice h₁
  refine ⟨h₁, h₂, hsplice, fun b => ?_, hsites, hcrossed, ?_⟩
  · obtain ⟨stop₁, hstop₁, hctx⟩ := hvalue 2 (by decide)
    obtain rfl := Option.some.inj hstop₁
    obtain ⟨ctx, hp₁, hdonors⟩ := hctx b
    obtain ⟨stop₂, hstop₂, child', hchild', hvalue'⟩ := hdonors p₂ h₂ 0 (by decide)
    obtain rfl := Option.some.inj hstop₂
    obtain rfl := Except.ok.inj (hsplice.symm.trans hchild')
    exact ⟨ctx, hp₁, hvalue'⟩
  · have hvalues : ∀ c ∈ s.cases, ∀ b, s.bindings.bind c.inputs = .ok b →
        (p₂.stretch 0 3).evaluate b = (p₁.stretch 2 3).evaluate b := by
      intro c hc b hb
      obtain rfl := List.mem_singleton.mp hc
      obtain rfl := Except.ok.inj (hbind.symm.trans hb)
      exact hquotient
    obtain ⟨child', hchild', hscored⟩ := hscore p₂ h₂ 5 words rest _ hsites s hvalues
    obtain ⟨rfl, -⟩ := Prod.mk.inj (Except.ok.inj (hcrossed.symm.trans hchild'))
    exact hscored

end SymbolicRegression
