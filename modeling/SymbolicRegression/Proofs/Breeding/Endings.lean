import SymbolicRegression.Breeding.Tournament
import SymbolicRegression.Proofs.Breeding.Constants
import SymbolicRegression.Proofs.Breeding.Crossover
import SymbolicRegression.Proofs.Breeding.Mutation
import SymbolicRegression.Proofs.Breeding.Retries
import SymbolicRegression.Proofs.Random.Endings

set_option autoImplicit false
set_option relaxedAutoImplicit false

/-!
# How many words breeding takes

A tournament, a crossover and a mutation draw as many indices, coins and opcodes as they are told
by what they are given, and none until something comes of it. So they end on every stream on which
the draws of indices do.

A generator gives up programs until one fits, and there are streams on which none ever does. When it
gives a program, however, this depends on the words that it has taken and on no others: each attempt
takes one at least, so there are attempts left for as long as there are words.

## Main results

* `SymbolicRegression.ends_contest`, `SymbolicRegression.ends_crossover`,
  `SymbolicRegression.ends_mutate` — breeding ends.
* `SymbolicRegression.Growing.exists_takes_growUntilFit` — a program that fits is found in no more
  attempts than words.
* `SymbolicRegression.Generator.settles_generate` — more words give the same program.
* `SymbolicRegression.Bindings.settles_sample` — and the same constants.
-/

namespace SymbolicRegression

variable {σ : Type} [WordSource σ]

open Draw (Ends Settles Takes)

/-! ## Breeding ends -/

/-- The draw of an operator ends. -/
theorem ends_randomOperator : Ends (randomOperator : Draw σ Opcode) :=
  (Draw.ends_below _).bind fun _ => .pure _

/-- The draw of a terminal ends. -/
theorem ends_randomTerminal (terminals : Nat) : Ends (randomTerminal terminals : Draw σ Opcode) :=
  (Draw.ends_below terminals).bind fun _ => .pure _

/-- A contest ends: it draws its entrants. -/
theorem ends_contest (beats : Float → Float → Bool) (fitness : Array Float) (rounds : Nat) :
    Ends (contest beats fitness rounds : Draw σ Nat) := by
  unfold contest
  split
  · exact .pure 0
  · refine Ends.bind ?_ fun slots => .pure _
    exact .mapM fun size _ => Draw.ends_below size

/-- The choice of places ends. -/
theorem ends_chooseSites (parent₁ parent₂ : Program) :
    Ends (chooseSites parent₁ parent₂ : Draw σ Sites) := by
  refine (Draw.ends_below _).bind fun start₁ => ?_
  exact (Draw.ends_below _).bind fun start₂ => .pure _

/-- What is wrong with a program that has been put together is not the lack of words. -/
theorem Program.certify_ne_supplyExhausted (p : Program) :
    p.certify ≠ .error .supplyExhausted := by
  unfold certify
  split <;> exact nofun

/-- Nor is what is wrong with a splice. -/
theorem splice_ne_supplyExhausted (parent₁ parent₂ : Program) (sites : Sites) :
    splice parent₁ parent₂ sites ≠ .error .supplyExhausted := by
  intro h
  by_cases hback : sites.stop1 < sites.start1
  · rw [splice, if_pos hback] at h
    cases h
  · rw [splice, if_neg hback] at h
    rcases bind_eq_error_iff.mp h with h | ⟨child, -, h⟩
    · unfold graft at h
      split at h <;> cases h
    · exact child.certify_ne_supplyExhausted h

/-- A crossover ends, whatever its parents are. -/
theorem ends_crossover (parent₁ parent₂ : Program) (maxLength : Nat) :
    Ends (crossover parent₁ parent₂ maxLength : Draw σ Program) := by
  refine (ends_chooseSites parent₁ parent₂).bind fun sites => ?_
  split
  · exact .pure parent₁
  · exact .lift (splice_ne_supplyExhausted parent₁ parent₂ sites)

/-- What becomes of an opcode is drawn to an end. -/
theorem ends_mutateOpcode (probability : Float) (terminals : Nat) (op : Opcode) :
    Ends (mutateOpcode probability terminals op : Draw σ Opcode) := by
  refine (Draw.ends_coin probability).bind fun heads => ?_
  split
  · split
    · exact ends_randomTerminal terminals
    · exact ends_randomOperator
  · exact .pure op

/-- A mutation ends, whatever its parent is. -/
theorem ends_mutate (parent : Program) (probability : Float) (terminals : Nat) :
    Ends (mutate parent probability terminals : Draw σ Program) := by
  have hresample : Ends (resample parent probability terminals : Draw σ Program) := by
    refine Ends.bind ?_ fun code => .pure _
    exact .mapM fun op _ => ends_mutateOpcode probability terminals op
  exact hresample.bind fun child => .lift child.certify_ne_supplyExhausted

/-! ## Growth settles -/

namespace Growing

variable {terminals depth : Nat}

/-- A terminal that is grown is settled. -/
theorem settles_growLeaf (slot : Nat) (b : Buffer) :
    Settles ((growLeaf terminals slot : Growing σ (Option Nat)).run b) := by
  simp only [growLeaf, randomTerminal, StateT.run_bind, run_place, bind_assoc, pure_bind]
  exact (Draw.settles_below terminals).bind fun i => .pure _

/-- An operator that is grown is settled if its operands are. -/
theorem settles_growNode {operand : Nat → Growing σ (Option Nat)}
    (hoperand : ∀ slot b, Settles ((operand slot).run b)) (slot : Nat) (b : Buffer) :
    Settles ((growNode operand slot).run b) := by
  simp only [growNode, randomOperator, StateT.run_bind, run_place, bind_assoc, pure_bind]
  refine (Draw.settles_below _).bind fun i => ?_
  refine (hoperand (slot + 1) _).bind ?_
  rintro ⟨right, b₁⟩
  cases right with
  | none => exact .pure _
  | some right => exact hoperand right b₁

/-- An operand that is grown is settled.

**Proof sketch.** Induction on the depth budget, with the cases of the coin. -/
theorem settles_growOperand (depth slot : Nat) (b : Buffer) :
    Settles ((growOperand terminals depth slot : Growing σ (Option Nat)).run b) := by
  induction depth generalizing slot b with
  | zero =>
    simp only [growOperand, StateT.run_bind, StateT.run_get, pure_bind]
    split
    · exact settles_growLeaf slot b
    · exact .pure _
  | succ depth ih =>
    simp only [growOperand, StateT.run_bind, StateT.run_get, pure_bind]
    split
    · simp only [StateT.run_bind, StateT.run_monadLift, bind_assoc, pure_bind]
      refine (Draw.settles_coin 0.5).bind fun heads => ?_
      split
      · exact settles_growNode ih slot b
      · exact settles_growLeaf slot b
    · exact .pure _

/-- **What is grown is settled**, whether it fits or not. -/
theorem settles_grow (depth slot : Nat) (b : Buffer) :
    Settles ((grow terminals depth slot : Growing σ (Option Nat)).run b) := by
  by_cases hslot : slot = 0
  · subst hslot
    simp only [grow, if_true, StateT.run_bind, StateT.run_get, pure_bind]
    split
    · exact settles_growNode (settles_growOperand (depth - 1)) 0 b
    · exact .pure _
  · rw [grow, if_neg hslot]
    exact settles_growOperand depth slot b

/-- **A program that fits is found in no more attempts than words**, and with more attempts and more
words it is the same.

**Proof sketch.** Induction on the attempts. The first one takes a word at least, for the root. If
it is given up the others follow, in the buffer and on the words that it has left. -/
theorem exists_takes_growUntilFit {attempts : Nat} {b : Buffer} (hb : 0 < b.capacity)
    {supply supply' : Supply σ} {r : Program × Buffer}
    (hrun : ((growUntilFit terminals depth attempts).run b).run supply = .ok (r, supply')) :
    r.2.capacity = b.capacity ∧ ∃ n k, supply.left = n + supply'.left ∧
      supply'.source = WordSource.drop n supply.source ∧ k ≤ n ∧ ∀ further,
        Takes ((growUntilFit terminals depth (k + further)).run b) supply.source n r := by
  induction attempts generalizing b supply with
  | zero => cases hrun
  | succ attempts ih =>
    simp only [growUntilFit, StateT.run_bind] at hrun
    obtain ⟨⟨⟨stop, b₁⟩, supply₁⟩, hfirst, hrun⟩ := bind_eq_ok_iff.mp hrun
    obtain ⟨m, hm, hsource, htakes⟩ := (settles_grow depth 0 b).exists_run_eq hfirst
    have hspent := spends_grow depth hb _ _ hfirst
    have hcapacity : b₁.capacity = b.capacity := by
      obtain ⟨code, hcode, -⟩ := gives_grow terminals depth 0 b _ _ hfirst
      rw [show b₁ = _ from hcode, Buffer.capacity_writeAll]
    simp only at hm hsource hspent
    cases stop with
    | some stop =>
      simp only [StateT.run_bind, StateT.run_get, pure_bind, StateT.run_pure] at hrun
      obtain ⟨rfl, rfl⟩ := Prod.mk.inj (Except.ok.inj hrun)
      refine ⟨hcapacity, m, 1, hm, hsource, by omega, fun further => ?_⟩
      rw [Nat.add_comm]
      simp only [growUntilFit, StateT.run_bind]
      refine htakes.bind (n := 0) ?_
      simp only [StateT.run_bind, StateT.run_get, pure_bind]
      exact .pure _
    | none =>
      obtain ⟨hcapacity₁, n, k, hn, hsource₁, hk, hrest⟩ := ih (hcapacity ▸ hb) hrun
      simp only at hn hsource₁
      refine ⟨hcapacity₁.trans hcapacity, m + n, 1 + k, by omega, ?_, by omega, fun further => ?_⟩
      · rw [hsource₁, hsource, WordSource.drop_add]
      · rw [Nat.add_assoc, Nat.add_comm]
        simp only [growUntilFit, StateT.run_bind]
        rw [hsource] at hrest
        exact htakes.bind (hrest further)

end Growing

namespace Generator

/-- **A program that a generator gives is settled**, if there is a slot. The generator keeps its
slots. -/
theorem settles_generate {g : Generator} (h : 0 < g.buffer.capacity) :
    Settles (g.generate : Draw σ (Program × Generator)) ∧
      Draw.Gives (g.generate : Draw σ (Program × Generator)) fun r =>
        r.2.buffer.capacity = g.buffer.capacity := by
  have hfound : ∀ (supply supply' : Supply σ) (r : Program × Generator),
      g.generate.run supply = .ok (r, supply') → r.2.buffer.capacity = g.buffer.capacity ∧
        ∃ n, supply.left = n + supply'.left ∧ Takes g.generate supply.source n r := by
    intro supply supply' r hrun
    rw [run_generate, bind_eq_ok_iff] at hrun
    obtain ⟨⟨⟨p, b⟩, supply₁⟩, hgrown, hrun⟩ := hrun
    obtain ⟨rfl, rfl⟩ := Prod.mk.inj (Except.ok.inj hrun)
    obtain ⟨hcapacity, n, k, hn, -, hk, htakes⟩ := Growing.exists_takes_growUntilFit h hgrown
    refine ⟨hcapacity, n, hn, fun left => ?_⟩
    have hattempts : k + (n - k + left) = n + left := by omega
    have hagain := htakes (n - k + left) left
    rw [hattempts] at hagain
    rw [run_generate, hagain]
    rfl
  refine ⟨fun source left r supply' hrun => (hfound _ supply' r hrun).2, ?_⟩
  exact fun supply r hrun => (hfound supply r.2 r.1 hrun).1

/-- The programs that a generator gives one after another are settled. -/
theorem settles_generateMany (n : Nat) {g : Generator} (h : 0 < g.buffer.capacity)
    (done : Array Program) : Settles (generateMany n g done : Draw σ (Array Program)) := by
  induction n generalizing g done with
  | zero => exact .pure done
  | succ n ih =>
    obtain ⟨hsettles, hgives⟩ := settles_generate (σ := σ) h
    refine hsettles.bind_of_gives hgives ?_
    rintro ⟨p, g'⟩ hcapacity
    exact ih (hcapacity ▸ h) (done.push p)

end Generator

/-- The constants of a problem are settled: each takes a word. -/
theorem Bindings.settles_sample (p : Problem) : Settles (sample p : Draw σ Bindings) := by
  refine (Settles.lift p.countTerminals).bind fun terminals => ?_
  refine (Settles.lift (Storage.reserve 8 terminals)).bind fun _ => ?_
  refine Settles.bind ?_ fun constants => .pure _
  refine .mapM fun q _ => ?_
  exact (Draw.settles_word.bind fun w => .pure (Draw.unitOfWord w)).bind fun x => .pure _

end SymbolicRegression
