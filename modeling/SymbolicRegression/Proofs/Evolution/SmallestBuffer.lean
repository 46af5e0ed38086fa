import SymbolicRegression.Proofs.Breeding.Retries
import SymbolicRegression.Proofs.Breeding.Visits
import SymbolicRegression.Proofs.Evolution.Start

set_option autoImplicit false
set_option relaxedAutoImplicit false

/-!
# The smallest buffer

The parameters of a run are refused if programs have room for fewer than three opcodes. That is
exactly what a generator needs. It tries until a program fits, and with less room it tries for ever,
whatever the words are. With that much room it may be unlucky for long, but it is never stuck.

## Main results

* `SymbolicRegression.Settings.check_maxLength` — the lengths that are refused.
* `SymbolicRegression.Generator.smallest_buffer` — what fewer than three slots are too few for, and
  three are enough for.
-/

namespace SymbolicRegression

namespace Settings

/-- **The lengths that are refused**, other parameters being in range, are those below three. -/
theorem check_maxLength {s : Settings} (h : s.check = .ok ()) (n : Nat) :
    ({ s with maxLength := n }).check = if n < 3 then .error (.smallBuffer n) else .ok () := by
  have hchecked := of_check h
  split
  · rw [check, if_neg hchecked.populationSize_pos.ne', if_neg hchecked.tournamentSize_pos.ne',
      if_neg hchecked.depth_pos.ne', if_pos ‹_›]
    rfl
  · exact Checked.check_eq_ok { hchecked with le_maxLength := Nat.not_lt.mp ‹_› }

end Settings

namespace Generator

open Growing (DrawsEnd GivenUp fittingWords noteGrow)

variable {σ : Type} [WordSource σ]

/-- **Three slots are what a generator needs.**

With fewer, no words make an attempt at a program come to an end in the buffer: where the draws of
opcodes end the attempt is given up, and no number of attempts gives a program. Such a length is
refused.

With three or more there are words on which the next attempt gives a program, whatever the buffer
holds and however many attempts have been given up, and on which the generator gives one then. Such
a length is not refused.

In any buffer and from any slot growth ends where the draws of opcodes do. Whatever the words are,
it comes to one slot after another: no more than there are in the buffer from there, and one.

**Proof sketch.** A program that is grown is an operator with two operands and has three opcodes at
least. On words that fit it has no more, so that a slot is found for each of them, and what stands
in the slots before does not matter. -/
theorem smallest_buffer {g : Generator} (hpos : 0 < g.terminals) (hle : g.terminals ≤ 110)
    (depth : Nat) :
    (g.buffer.capacity < 3 →
      Draw.Yields (g.grow depth 0 : Draw σ (Option Nat × Generator)) (fun r => r.1 = none) ∧
      (∀ source : σ, DrawsEnd g.terminals source →
        ∃ n g', Draw.Takes (g.grow depth 0) source n (none, g')) ∧
      (∀ (attempts : Nat) (supply : Supply σ),
        ((Growing.growUntilFit g.terminals g.depth attempts).run g.buffer).run supply =
          .error .supplyExhausted) ∧
      (∀ supply : Supply σ, g.generate.run supply = .error .supplyExhausted) ∧
      ∀ s : Settings, s.check = .ok () →
        ({ s with maxLength := g.buffer.capacity }).check =
          .error (.smallBuffer g.buffer.capacity)) ∧
    (3 ≤ g.buffer.capacity →
      (∀ (attempts : Nat) (b : Buffer) (supply supply' : Supply σ),
        GivenUp g.terminals depth attempts g.buffer supply b supply' →
        ∀ source : σ, WordSource.Begins (fittingWords depth) source →
          ∃ g', Draw.Takes (Generator.grow { g with buffer := b } depth 0) source
            (fittingWords depth).length (some 3, g')) ∧
      (∀ (attempts : Nat) (b : Buffer) (supply supply' : Supply σ),
        GivenUp g.terminals g.depth attempts g.buffer supply b supply' →
        WordSource.Begins (fittingWords g.depth) supply'.source →
        (fittingWords g.depth).length ≤ supply'.left →
        ∃ r, g.generate.run supply = .ok r) ∧
      ∀ s : Settings, s.check = .ok () →
        ({ s with maxLength := g.buffer.capacity }).check = .ok ()) ∧
    ∀ slot : Nat,
      (∀ source : σ, DrawsEnd g.terminals source →
        ∃ n r, Draw.Takes (g.grow depth slot) source n r) ∧
      ∀ (supply : Supply σ) (visited : List Nat), ∃ k ≤ g.buffer.capacity - slot + 1,
        (noteGrow g.terminals depth slot).outcome g.buffer supply visited =
          (((Growing.grow g.terminals depth slot).run g.buffer).run supply,
            visited ++ List.range' slot k) := by
  have hends : ∀ (slot : Nat) (source : σ), DrawsEnd g.terminals source →
      ∃ n stop b, Draw.Takes (g.grow depth slot) source n (stop, { g with buffer := b }) := by
    intro slot source h
    obtain ⟨n, ⟨stop, b⟩, hgrown⟩ := Growing.exists_takes_grow h depth slot g.buffer
    exact ⟨n, stop, b, takes_grow hgrown⟩
  refine ⟨fun hsmall => ?_, fun hthree => ⟨?_, ?_, ?_⟩, fun slot => ⟨?_, ?_⟩⟩
  · have hnone : Draw.Yields (g.grow depth 0 : Draw σ (Option Nat × Generator))
        (fun r => r.1 = none) :=
      (Growing.yields_grow_none hpos hle hsmall depth).bind fun r hr => .pure hr
    refine ⟨hnone, fun source h => ?_, Growing.run_growUntilFit_of_small hpos hle hsmall g.depth,
      fun supply => ?_, fun s hs => ?_⟩
    · obtain ⟨n, stop, b, hgrown⟩ := hends 0 source h
      obtain rfl : stop = none := hgrown.of_yields hnone
      exact ⟨n, _, hgrown⟩
    · rw [run_generate, Growing.run_growUntilFit_of_small hpos hle hsmall]
      rfl
    · rw [Settings.check_maxLength hs, if_pos hsmall]
  · intro attempts b supply supply' hgivenUp source hwords
    have hroom : 3 ≤ b.capacity := hgivenUp.capacity_eq ▸ hthree
    exact ⟨_, takes_grow (g := { g with buffer := b })
      (Growing.takes_grow_fitting hpos hroom hwords)⟩
  · intro attempts b supply supply' hgivenUp hwords hleft
    obtain ⟨rest, hrun⟩ := run_generate_of_givenUp hpos hthree hgivenUp hwords hleft
    exact ⟨_, hrun⟩
  · intro s hs
    rw [Settings.check_maxLength hs, if_neg (Nat.not_lt.mpr hthree)]
  · intro source h
    obtain ⟨n, stop, b, hgrown⟩ := hends slot source h
    exact ⟨n, _, hgrown⟩
  · intro supply visited
    obtain ⟨k, hk, houtcome, -⟩ :=
      Growing.passes_noteGrow g.terminals depth slot g.buffer supply visited
    exact ⟨k, hk, houtcome⟩

/-- A buffer of two slots, full of what an earlier attempt has left, is too small. An attempt in it
is given up on words of which every other one is refused for an operator. In three slots an attempt
has been given up, too, but then words come on which a sum fits. -/
theorem smallest_buffer_sample :
    let narrow : Generator := ⟨⟨2, #[113, 110]⟩, 1, 3⟩
    let wide : Generator := fresh 3 2 2
    let refused : Cycle := .ofList [0x2000000000000000, 0]
    let words : Supply Cycle := ⟨.ofList [0, 0, 0x4000000000000000, 0x8000000000000000,
      0, 0x8000000000000000, 0, 0x8000000000000000, 0], 9⟩
    (DrawsEnd 1 refused ∧ ∃ n g', Draw.Takes (narrow.grow 3 0) refused n (none, g')) ∧
      narrow.generate.run words = .error .supplyExhausted ∧
      ({ maxLength := 2 } : Settings).check = .error (.smallBuffer 2) ∧
      (∃ (b : Buffer) (supply : Supply Cycle), GivenUp 2 2 1 wide.buffer words b supply ∧
        b.take 3 = [110, 111, 1] ∧ WordSource.Begins (fittingWords 2) supply.source ∧
        (∃ g', Draw.Takes (Generator.grow { wide with buffer := b } 2 0) supply.source 5
          (some 3, g')) ∧
        ∃ r, wide.generate.run words = .ok r) ∧
      ({ maxLength := 3 } : Settings).check = .ok () ∧
      ∃ k ≤ 4, ((noteGrow 2 2 0).outcome wide.buffer words []).2 = List.range' 0 k := by
  intro narrow wide refused words
  have hdefault : ({} : Settings).check = .ok () :=
    Settings.Checked.check_eq_ok ⟨by decide, by decide, by decide, by decide, by decide +kernel,
      by decide +kernel, by decide +kernel, by decide +kernel⟩
  have hzero : ∀ n, 0 < n → Draw.AlwaysEnds n refused := fun n hn =>
    Cycle.alwaysEnds (i := 1) hn (by decide) (Draw.accepts_zero hn)
  have hends : DrawsEnd 1 refused := ⟨hzero _ (by decide), hzero _ (by decide)⟩
  have htest : (((Growing.grow 2 2 0).run wide.buffer).run words).toOption.any (fun r =>
      r.1.1 = none ∧ r.1.2.take 3 = [110, 111, 1] ∧ r.2.source = ⟨words.source.words, 4⟩ ∧
        r.2.left = 5) = true := by
    decide +kernel
  rcases hgrown : ((Growing.grow 2 2 0).run wide.buffer).run words with
    fault | ⟨⟨stop, b⟩, ⟨source, left⟩⟩
  · rw [hgrown] at htest
    cases htest
  rw [hgrown] at htest
  obtain ⟨rfl, hdebris, rfl, rfl⟩ := of_decide_eq_true htest
  have hgivenUp : GivenUp 2 2 1 wide.buffer words b ⟨⟨words.source.words, 4⟩, 5⟩ :=
    .more hgrown (.none _ _)
  have hwords : WordSource.Begins (fittingWords 2) (⟨words.source.words, 4⟩ : Cycle) :=
    ⟨rfl, rfl, rfl, rfl, rfl, trivial⟩
  obtain ⟨-, hnone, -, hnever, hrefused⟩ :=
    (smallest_buffer (σ := Cycle) (g := narrow) (by decide) (by decide) 3).1 (by decide)
  obtain ⟨hwide, hslots⟩ :=
    (smallest_buffer (σ := Cycle) (g := wide) (by decide) (by decide) 2).2
  obtain ⟨hnext, hreturns, haccepted⟩ := hwide (by decide)
  obtain ⟨k, hk, hvisits⟩ := (hslots 0).2 words []
  exact ⟨⟨hends, hnone refused hends⟩, hnever words, hrefused {} hdefault,
    ⟨b, _, hgivenUp, hdebris, hwords, hnext 1 b _ _ hgivenUp _ hwords,
      hreturns 1 b _ _ hgivenUp hwords (by decide)⟩,
    haccepted {} hdefault, k, hk, congrArg Prod.snd hvisits⟩

end Generator

end SymbolicRegression
