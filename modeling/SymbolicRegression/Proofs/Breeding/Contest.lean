import Mathlib.Order.Bounds.Basic
import SymbolicRegression.Proofs.Fitness.Best
import SymbolicRegression.Random.Cycle

set_option autoImplicit false
set_option relaxedAutoImplicit false

/-!
# The law of tournaments

A tournament draws as many slots as it has rounds, and one at least, and it chooses the first drawn
of greatest fitness; a negative tournament chooses the first drawn of least fitness. Both are
contests of ranks, the second one of the ranks turned around, so it is the tournament of the negated
fitness.

## Main definitions

* `SymbolicRegression.FirstBy` — the first in a row that is at least as good as all of it.

## Main results

* `SymbolicRegression.winner_lessFit` — the winner of a contest for the least fitness is that of a
  contest for the greatest negated fitness.
* `SymbolicRegression.contest_eq_ok` — what a contest has drawn and chosen.
* `SymbolicRegression.tournaments_choose_first` — the law of both tournaments.
-/

namespace SymbolicRegression

/-- The slot is drawn at the least place in the row at which one is drawn that all of them are below
or equal to in the order `le`. -/
def FirstBy (le : Nat → Nat → Prop) (slots : List Nat) (slot : Nat) : Prop :=
  ∃ j : Nat, slots[j]? = some slot ∧
    IsLeast {i : Nat | ∃ other ∈ slots[i]?, ∀ k ∈ slots, le k other} j

section

variable {α : Type} [LinearOrder α] {key : Nat → α} {slots : List Nat} {slot : Nat}

/-- The first of greatest key is the first by any order that compares keys. -/
theorem IsFirstGreatest.firstBy (h : IsFirstGreatest key slots slot) {le : Nat → Nat → Prop}
    (hle : ∀ i j, le i j ↔ key i ≤ key j) : FirstBy le slots slot := by
  have hgreatest := h.le
  obtain ⟨before, after, rfl, hbefore, -⟩ := h
  have hplace : (before ++ slot :: after)[before.length]? = some slot := by simp
  refine ⟨before.length, hplace, ⟨slot, hplace, fun k hk => (hle k slot).mpr (hgreatest k hk)⟩, ?_⟩
  rintro i ⟨other, hother, hmost⟩
  by_contra hi
  -- the slot at an earlier place has a smaller key than the first of greatest key
  rw [Option.mem_def, List.getElem?_append_left (not_le.mp hi)] at hother
  have hlt : key other < key slot := hbefore other (List.mem_of_getElem? hother)
  exact absurd ((hle slot other).mp (hmost slot (by simp))) (not_le.mpr hlt)

end

variable {fitness : Array Float}

/-! ## Contests turned around -/

/-- The rank of a negated fitness. -/
lemma rank_getD_map_neg (fitness : Array Float) (i : Nat) :
    rank ((fitness.map (-·)).getD i 0.0) = -rank (fitness.getD i 0.0) := by
  rw [Array.getD_eq_getD_getElem?, Array.getD_eq_getD_getElem?, Array.getElem?_map]
  rcases fitness[i]? with _ | x
  · rfl
  · exact rank_neg x

/-- The negative of a fitness that is defined is defined. -/
lemma Ranked.map_neg (hranked : Ranked fitness) : Ranked (fitness.map (-·)) := by
  intro i hi
  rw [Array.getElem_map, isNaN_neg]
  exact hranked i (by simpa using hi)

/-- A contest for the least fitness is decided by ranks turned around. -/
theorem Ranked.decidedBy_lessFit (hranked : Ranked fitness) (slots : List Nat) :
    DecidedBy lessFit fitness (fun i => -rank (fitness.getD i 0.0)) slots := by
  intro i _ j _
  rw [lessFit, decide_eq_true_eq, neg_lt_neg_iff]
  exact lt_iff_rank_lt (hranked.isNaN_getD j) (hranked.isNaN_getD i)

/-- So is a contest for the greatest negated fitness. -/
theorem Ranked.decidedBy_fitter_map_neg (hranked : Ranked fitness) (slots : List Nat) :
    DecidedBy fitter (fitness.map (-·)) (fun i => -rank (fitness.getD i 0.0)) slots := by
  simpa only [rank_getD_map_neg] using hranked.map_neg.decidedBy_fitter slots

/-- **A contest for the least fitness is won by who wins the contest for the greatest negated
fitness.** -/
theorem winner_lessFit (hranked : Ranked fitness) :
    winner lessFit fitness = winner fitter (fitness.map (-·)) := by
  have hchallenge : challenge lessFit fitness = challenge fitter (fitness.map (-·)) := by
    funext best next
    have hlessFit := hranked.decidedBy_lessFit [best, next] best (by simp) next (by simp)
    have hfitter := hranked.decidedBy_fitter_map_neg [best, next] best (by simp) next (by simp)
    exact if_congr (hlessFit.trans hfitter.symm) rfl rfl
  funext slots
  cases slots with
  | nil => rfl
  | cons first rest => rw [winner, winner, hchallenge]

/-! ## What is drawn and chosen -/

variable {σ : Type} [WordSource σ] {rounds : Nat} {supply : Supply σ}

section

variable {α : Type} [LinearOrder α] {key : Nat → α} {beats : Float → Float → Bool}

/-- A contest takes the words that its entrants are drawn with, and chooses the best of them. -/
theorem run_contest (hsize : 0 < fitness.size) :
    (contest beats fitness rounds : Draw σ Nat).run supply =
      (fun r => (winner beats fitness r.1, r.2)) <$> (entrants fitness.size rounds).run supply := by
  rw [contest_eq beats fitness hsize, StateT.run_map]

/-- The slot that a contest of keys has chosen is the first of greatest key that has been drawn. -/
theorem contest_eq_ok (hkey : ∀ slots, DecidedBy beats fitness key slots)
    (hsize : 0 < fitness.size) {slot : Nat} {supply' : Supply σ}
    (h : (contest beats fitness rounds : Draw σ Nat).run supply = .ok (slot, supply')) :
    ∃ slots, slots.length = max rounds 1 ∧ Draw.Drawn fitness.size supply slots supply' ∧
      (∀ i ∈ slots, i < fitness.size) ∧ IsFirstGreatest key slots slot := by
  rw [run_contest hsize, map_eq_pure_bind, bind_eq_ok_iff] at h
  obtain ⟨⟨slots, supply₁⟩, hentrants, h⟩ := h
  obtain ⟨rfl, rfl⟩ := Prod.mk.inj (Except.ok.inj h)
  obtain ⟨hlength, hdrawn⟩ := run_entrants_eq_ok_iff.mp hentrants
  obtain ⟨hne, hslots⟩ := (yields_entrants hsize rounds supply).of_eq_ok hentrants
  exact ⟨slots, hlength, hdrawn, hslots, isFirstGreatest_winner (hkey slots) hne⟩

end

/-- **The law of tournaments.** On a fitness that is not empty and nowhere undefined, a negative
tournament is the tournament of the negated fitness. From every supply, unless the words run out,
both make the same draws, as many as there are rounds and one at least, and leave the same words.
The tournament chooses the first drawn of the slots of greatest fitness among those drawn, and the
negative one the first drawn of the slots of least fitness. -/
theorem tournaments_choose_first (hsize : 0 < fitness.size) (hranked : Ranked fitness)
    (rounds : Nat) :
    (negativeTournament fitness rounds : Draw σ Nat) = tournament (fitness.map (-·)) rounds ∧
      ∀ supply : Supply σ,
        ((tournament fitness rounds : Draw σ Nat).run supply = .error .supplyExhausted ∧
          (negativeTournament fitness rounds : Draw σ Nat).run supply =
            .error .supplyExhausted) ∨
        ∃ slots supply', slots.length = max rounds 1 ∧
          Draw.Drawn fitness.size supply slots supply' ∧ (∀ slot ∈ slots, slot < fitness.size) ∧
          (∃ slot, (tournament fitness rounds : Draw σ Nat).run supply = .ok (slot, supply') ∧
            FirstBy (fun i j => fitness.getD i 0.0 ≤ fitness.getD j 0.0) slots slot) ∧
          ∃ slot, (negativeTournament fitness rounds : Draw σ Nat).run supply =
              .ok (slot, supply') ∧
            FirstBy (fun i j => fitness.getD j 0.0 ≤ fitness.getD i 0.0) slots slot := by
  have hle : ∀ i j, fitness.getD i 0.0 ≤ fitness.getD j 0.0 ↔
      rank (fitness.getD i 0.0) ≤ rank (fitness.getD j 0.0) :=
    fun i j => le_iff_rank_le (hranked.isNaN_getD i) (hranked.isNaN_getD j)
  refine ⟨?_, fun supply => ?_⟩
  · have hsize' : 0 < (fitness.map (-·)).size := by simpa using hsize
    rw [negativeTournament, tournament, contest_eq _ _ hsize, contest_eq _ _ hsize',
      Array.size_map, winner_lessFit hranked]
  rw [tournament, negativeTournament, run_contest hsize, run_contest hsize]
  have hentrants := yields_entrants hsize rounds supply
  cases hrun : (entrants fitness.size rounds).run supply with
  | error fault =>
    obtain rfl := hentrants.of_eq_error hrun
    exact .inl ⟨rfl, rfl⟩
  | ok r =>
    obtain ⟨hne, hslots⟩ := hentrants.of_eq_ok hrun
    obtain ⟨hlength, hdrawn⟩ := run_entrants_eq_ok_iff.mp hrun
    have hgreatest := isFirstGreatest_winner (hranked.decidedBy_fitter r.1) hne
    have hleast := isFirstGreatest_winner (hranked.decidedBy_lessFit r.1) hne
    exact .inr ⟨r.1, r.2, hlength, hdrawn, hslots, ⟨_, rfl, hgreatest.firstBy hle⟩,
      ⟨_, rfl, hleast.firstBy fun i j => (hle j i).trans neg_le_neg_iff.symm⟩⟩

/-- The slots zero, three and one are drawn from four. Three and one are equally fit, and the
tournament chooses three, which is drawn before one; the negative tournament chooses zero. -/
theorem tournaments_choose_first_sample :
    let fitness : Array Float := #[-3.0, -1.0, -2.0, -1.0]
    let words : Supply Cycle := ⟨.ofList [0, 0xc000000000000000, 0x4000000000000000], 3⟩
    let rest : Supply Cycle := ⟨⟨#[0, 0xc000000000000000, 0x4000000000000000], 3⟩, 0⟩
    0 < fitness.size ∧ Ranked fitness ∧ Draw.Drawn 4 words [0, 3, 1] rest ∧
      (tournament fitness 3).run words = .ok (3, rest) ∧
      FirstBy (fun i j => fitness.getD i 0.0 ≤ fitness.getD j 0.0) [0, 3, 1] 3 ∧
      (negativeTournament fitness 3).run words = .ok (0, rest) ∧
      FirstBy (fun i j => fitness.getD j 0.0 ≤ fitness.getD i 0.0) [0, 3, 1] 0 ∧
      (negativeTournament fitness 3 : Draw Cycle Nat) = tournament (fitness.map (-·)) 3 := by
  have hentrants : (entrants 4 3).run
      (⟨.ofList [0, 0xc000000000000000, 0x4000000000000000], 3⟩ : Supply Cycle) =
        .ok ([0, 3, 1], ⟨⟨#[0, 0xc000000000000000, 0x4000000000000000], 3⟩, 0⟩) := by rfl
  have htournament : (tournament #[-3.0, -1.0, -2.0, -1.0] 3).run
      (⟨.ofList [0, 0xc000000000000000, 0x4000000000000000], 3⟩ : Supply Cycle) =
        .ok (3, ⟨⟨#[0, 0xc000000000000000, 0x4000000000000000], 3⟩, 0⟩) := by rfl
  have hnegative : (negativeTournament #[-3.0, -1.0, -2.0, -1.0] 3).run
      (⟨.ofList [0, 0xc000000000000000, 0x4000000000000000], 3⟩ : Supply Cycle) =
        .ok (0, ⟨⟨#[0, 0xc000000000000000, 0x4000000000000000], 3⟩, 0⟩) := by rfl
  intro fitness words rest
  have hsize : 0 < fitness.size := by decide
  have hranked : Ranked fitness := by
    rw [Ranked]
    decide +kernel
  obtain ⟨hnegated, hlaw⟩ := tournaments_choose_first (σ := Cycle) hsize hranked 3
  obtain ⟨hout, -⟩ | ⟨slots, rest', hlength, hdrawn, -, ⟨slot, hslot, hfirst⟩, slot', hslot',
    hfirst'⟩ := hlaw words
  · cases htournament.symm.trans hout
  · have hslots := (run_entrants_eq_ok_iff.mpr ⟨hlength, hdrawn⟩).symm.trans hentrants
    obtain ⟨rfl, rfl⟩ := Prod.mk.inj (Except.ok.inj hslots)
    obtain ⟨rfl, -⟩ := Prod.mk.inj (Except.ok.inj (hslot.symm.trans htournament))
    obtain ⟨rfl, -⟩ := Prod.mk.inj (Except.ok.inj (hslot'.symm.trans hnegative))
    exact ⟨hsize, hranked, hdrawn, hslot, hfirst, hslot', hfirst', hnegated⟩

end SymbolicRegression
