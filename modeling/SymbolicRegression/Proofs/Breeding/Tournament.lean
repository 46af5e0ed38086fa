import Mathlib.Data.List.Forall2
import Mathlib.Order.Lattice
import SymbolicRegression.Breeding.Tournament
import SymbolicRegression.Proofs.Random.Draws

set_option autoImplicit false
set_option relaxedAutoImplicit false

/-!
# Tournaments choose slots

The winner of a contest is one of its entrants, and the entrants are drawn among the slots, so a
tournament over a population that is not empty gives one of its slots. If the contest is decided by
keys, the winner is the first entrant of greatest key.

## Main definitions

* `SymbolicRegression.IsFirstGreatest` — the first of greatest key.

## Main results

* `SymbolicRegression.winner_mem` — the winner is one of the entrants.
* `SymbolicRegression.isFirstGreatest_winner` — in a contest of keys, the winner is the first of
  greatest key.
* `SymbolicRegression.yields_contest` — a contest gives a slot.
-/

namespace SymbolicRegression

variable (beats : Float → Float → Bool) (fitness : Array Float)

/-- Whoever holds out against a row of challengers has been there from the start or is one of
them. -/
theorem foldl_challenge_mem (best : Nat) (rest : List Nat) :
    rest.foldl (challenge beats fitness) best ∈ best :: rest := by
  induction rest generalizing best with
  | nil => simp
  | cons next rest ih =>
    have hnext : challenge beats fitness best next = best ∨
        challenge beats fitness best next = next := by
      unfold challenge
      split
      · exact .inr rfl
      · exact .inl rfl
    have h := ih (challenge beats fitness best next)
    rw [List.foldl_cons]
    rcases hnext with hnext | hnext
    · rw [hnext] at h ⊢
      rcases List.mem_cons.mp h with h | h
      · exact List.mem_cons.mpr (.inl h)
      · exact List.mem_cons_of_mem _ (List.mem_cons_of_mem _ h)
    · rw [hnext] at h ⊢
      exact List.mem_cons_of_mem _ h

/-- **The winner is one of the entrants.** -/
theorem winner_mem {entrants : List Nat} (h : entrants ≠ []) :
    winner beats fitness entrants ∈ entrants := by
  cases entrants with
  | nil => exact absurd rfl h
  | cons first rest => exact foldl_challenge_mem beats fitness first rest

/-! ## Contests of keys -/

section

variable {α : Type} [LinearOrder α] {key : Nat → α} {beats fitness}

/-- The contest between the slots in `slots` is decided by their keys. -/
def DecidedBy (beats : Float → Float → Bool) (fitness : Array Float) (key : Nat → α)
    (slots : List Nat) : Prop :=
  ∀ i ∈ slots, ∀ j ∈ slots,
    (beats (fitness.getD j 0.0) (fitness.getD i 0.0) = true ↔ key i < key j)

/-- A contest between fewer slots is decided by the same keys. -/
theorem DecidedBy.mono {slots slots' : List Nat} (h : DecidedBy beats fitness key slots)
    (hsub : slots' ⊆ slots) : DecidedBy beats fitness key slots' :=
  fun i hi j hj => h i (hsub hi) j (hsub hj)

/-- The slot is the first of greatest key: those before it have smaller keys, and those behind it
have none that is greater. -/
def IsFirstGreatest (key : Nat → α) (slots : List Nat) (slot : Nat) : Prop :=
  ∃ before after, slots = before ++ slot :: after ∧ (∀ i ∈ before, key i < key slot) ∧
    ∀ i ∈ after, key i ≤ key slot

namespace IsFirstGreatest

variable {slots : List Nat} {slot : Nat}

/-- No slot has a greater key. -/
theorem le (h : IsFirstGreatest key slots slot) : ∀ i ∈ slots, key i ≤ key slot := by
  obtain ⟨before, after, rfl, hbefore, hafter⟩ := h
  intro i hi
  rcases List.mem_append.mp hi with hi | hi
  · exact (hbefore i hi).le
  · rcases List.mem_cons.mp hi with rfl | hi
    · exact le_rfl
    · exact hafter i hi

/-- A slot of smaller key may come before all others. -/
theorem cons_of_lt (h : IsFirstGreatest key slots slot) {first : Nat}
    (hfirst : key first < key slot) : IsFirstGreatest key (first :: slots) slot := by
  obtain ⟨before, after, rfl, hbefore, hafter⟩ := h
  exact ⟨first :: before, after, rfl, List.forall_mem_cons.mpr ⟨hfirst, hbefore⟩, hafter⟩

/-- A slot whose key is not greater may come behind the first one. -/
theorem insert_of_le {best next : Nat} {rest : List Nat}
    (h : IsFirstGreatest key (best :: rest) slot) (hnext : key next ≤ key best) :
    IsFirstGreatest key (best :: next :: rest) slot := by
  obtain ⟨before, after, hslots, hbefore, hafter⟩ := h
  cases before with
  | nil =>
    obtain ⟨rfl, rfl⟩ := List.cons.inj hslots
    exact ⟨[], next :: rest, rfl, by simp, List.forall_mem_cons.mpr ⟨hnext, hafter⟩⟩
  | cons first before =>
    obtain ⟨rfl, rfl⟩ := List.cons.inj hslots
    obtain ⟨hbest, hbefore⟩ := List.forall_mem_cons.mp hbefore
    refine ⟨best :: next :: before, after, rfl, ?_, hafter⟩
    exact List.forall_mem_cons.mpr
      ⟨hbest, List.forall_mem_cons.mpr ⟨hnext.trans_lt hbest, hbefore⟩⟩

end IsFirstGreatest

/-- Whoever holds out against a row of challengers is the first of greatest key.

**Proof sketch.** Induction on the row. If the first challenger wins, the one that was best before
comes to stand before the others with a smaller key; if not, the challenger is passed over. -/
theorem isFirstGreatest_foldl_challenge {best : Nat} {rest : List Nat}
    (h : DecidedBy beats fitness key (best :: rest)) :
    IsFirstGreatest key (best :: rest) (rest.foldl (challenge beats fitness) best) := by
  induction rest generalizing best with
  | nil => exact ⟨[], [], rfl, by simp, by simp⟩
  | cons next rest ih =>
    have hiff := h best (by simp) next (by simp)
    rw [List.foldl_cons, challenge]
    split
    · rename_i hbeats
      have hrest := ih (h.mono (List.subset_cons_self best _))
      exact hrest.cons_of_lt ((hiff.mp hbeats).trans_le (hrest.le next (by simp)))
    · rename_i hbeats
      have hrest := ih (h.mono (List.cons_subset_cons best (List.subset_cons_self next rest)))
      exact hrest.insert_of_le (not_lt.mp fun hlt => hbeats (hiff.mpr hlt))

/-- **In a contest of keys, the winner is the first entrant of greatest key.** -/
theorem isFirstGreatest_winner {entrants : List Nat} (h : DecidedBy beats fitness key entrants)
    (hne : entrants ≠ []) : IsFirstGreatest key entrants (winner beats fitness entrants) := by
  cases entrants with
  | nil => exact absurd rfl hne
  | cons first rest => exact isFirstGreatest_foldl_challenge h

end

/-! ## Tournaments -/

variable {σ : Type} [WordSource σ]

/-- The entrants of a tournament are slots, and there is at least one. -/
theorem yields_entrants {size : Nat} (hsize : 0 < size) (rounds : Nat) :
    Draw.Yields (entrants size rounds : Draw σ (List Nat)) fun slots =>
      slots ≠ [] ∧ ∀ slot ∈ slots, slot < size := by
  have hdraws : Draw.Yields (entrants size rounds : Draw σ (List Nat))
      (List.Forall₂ (fun n slot => n = size ∧ slot < n) (List.replicate (max rounds 1) size)) := by
    refine .mapM ?_
    intro n hn
    obtain rfl := List.eq_of_mem_replicate hn
    exact (Draw.yields_below hsize).mono fun slot hslot => ⟨rfl, hslot⟩
  refine hdraws.mono fun slots hslots => ⟨?_, fun slot hslot => ?_⟩
  · have hlength := hslots.length_eq
    rw [List.length_replicate] at hlength
    rintro rfl
    simp only [List.length_nil] at hlength
    omega
  · obtain ⟨i, hi, rfl⟩ := List.mem_iff_getElem.mp hslot
    obtain ⟨hsize', hlt⟩ := hslots.get (hslots.length_eq ▸ hi) hi
    exact hsize' ▸ hlt

/-- The entrants of a tournament are drawn one after another. -/
theorem run_entrants_eq_ok_iff {size rounds : Nat} {slots : List Nat} {supply supply' : Supply σ} :
    (entrants size rounds : Draw σ (List Nat)).run supply = .ok (slots, supply') ↔
      slots.length = max rounds 1 ∧ Draw.Drawn size supply slots supply' :=
  Draw.run_mapM_below_eq_ok_iff

/-- Where there is a slot, the entrants of a contest are drawn, and the winner is the best of
them. -/
theorem contest_eq (hsize : 0 < fitness.size) (rounds : Nat) :
    (contest beats fitness rounds : Draw σ Nat) =
      winner beats fitness <$> entrants fitness.size rounds := by
  have hempty : fitness.isEmpty = false := by
    simpa [Array.isEmpty_iff_size_eq_zero] using Nat.ne_of_gt hsize
  rw [contest, hempty, map_eq_pure_bind]
  rfl

/-- **A contest gives a slot.** -/
theorem yields_contest (hsize : 0 < fitness.size) (rounds : Nat) :
    Draw.Yields (contest beats fitness rounds : Draw σ Nat) (· < fitness.size) := by
  rw [contest_eq beats fitness hsize, map_eq_pure_bind]
  refine (yields_entrants hsize rounds).bind fun slots ⟨hne, hslots⟩ => .pure ?_
  exact hslots _ (winner_mem beats fitness hne)

end SymbolicRegression
