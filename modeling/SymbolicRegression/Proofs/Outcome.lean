import Mathlib.Data.List.Forall2
import SymbolicRegression.Fault

set_option autoImplicit false
set_option relaxedAutoImplicit false

/-!
# Computations with faults

How a computation that may end in an error comes to its answer, and the contract in which the
operations of a run are stated: a computation *answers* if the only fault that it can end in is
the lack of random words.

## Main definitions

* `SymbolicRegression.Answers` — an answer with a property, unless the words run out.

## Main results

* `SymbolicRegression.bind_eq_ok_iff`, `SymbolicRegression.mapError_eq_ok_iff`,
  `SymbolicRegression.mapM_eq_ok_iff` — the answers that an answer comes from.
* `SymbolicRegression.bind_eq_error_iff`, `SymbolicRegression.mapError_eq_error_iff`,
  `SymbolicRegression.mapM_eq_error_iff` — the errors that an error comes from.
* `SymbolicRegression.Answers.bind` — the contract of two computations in a row.
-/

namespace SymbolicRegression

/-! ## Answers of composed computations -/

section

variable {ε ε' α β : Type}

/-- Two computations in a row answer if the first answers and the second does on its answer. -/
theorem bind_eq_ok_iff {x : Except ε α} {f : α → Except ε β} {b : β} :
    (x >>= f) = .ok b ↔ ∃ a, x = .ok a ∧ f a = .ok b := by
  cases x with
  | ok a => simp [bind, Except.bind]
  | error e => simp [bind, Except.bind]

/-- What follows a computation matters on its answer only. -/
theorem bind_congr_ok {x : Except ε α} {f g : α → Except ε β} (h : ∀ a, x = .ok a → f a = g a) :
    (x >>= f) = (x >>= g) := by
  cases x with
  | ok a => exact h a rfl
  | error e => rfl

/-- Rewording the errors changes no answer. -/
theorem mapError_eq_ok_iff {x : Except ε α} {f : ε → ε'} {a : α} :
    x.mapError f = .ok a ↔ x = .ok a := by
  cases x <;> simp [Except.mapError]

/-- Two computations in a row go wrong if the first does, or the second does on the answer of the
first. -/
theorem bind_eq_error_iff {x : Except ε α} {f : α → Except ε β} {e : ε} :
    (x >>= f) = .error e ↔ x = .error e ∨ ∃ a, x = .ok a ∧ f a = .error e := by
  cases x with
  | ok a => simp [bind, Except.bind]
  | error e' => simp [bind, Except.bind]

/-- The errors of a computation whose errors are reworded are the reworded ones. -/
theorem mapError_eq_error_iff {x : Except ε α} {f : ε → ε'} {e' : ε'} :
    x.mapError f = .error e' ↔ ∃ e, x = .error e ∧ f e = e' := by
  cases x <;> simp [Except.mapError]

/-- A computation for each item of a list gives the answer of each, in order. -/
theorem forall₂_of_mapM_eq_ok {f : α → Except ε β} {l : List α} {bs : List β}
    (h : l.mapM f = .ok bs) : List.Forall₂ (fun a b => f a = .ok b) l bs := by
  induction l generalizing bs with
  | nil =>
    obtain rfl := Except.ok.inj h
    exact .nil
  | cons a l ih =>
    rw [List.mapM_cons, bind_eq_ok_iff] at h
    obtain ⟨b, hb, h⟩ := h
    rw [bind_eq_ok_iff] at h
    obtain ⟨bs', hbs', h⟩ := h
    obtain rfl := Except.ok.inj h
    exact .cons hb (ih hbs')

/-- A computation for each item of a list gives a list of answers if each item has its answer
there. -/
theorem mapM_eq_ok_iff {f : α → Except ε β} {l : List α} {bs : List β} :
    l.mapM f = .ok bs ↔ List.Forall₂ (fun a b => f a = .ok b) l bs := by
  refine ⟨forall₂_of_mapM_eq_ok, fun h => ?_⟩
  induction h with
  | nil => rfl
  | cons hb _ ih => rw [List.mapM_cons, hb, ih]; rfl

/-- A computation for each item of a list goes wrong with the error of the first item for which it
does. -/
theorem mapM_eq_error_iff {f : α → Except ε β} {l : List α} {e : ε} :
    l.mapM f = .error e ↔ ∃ (i : Nat) (a : α), l[i]? = some a ∧ f a = .error e ∧
      ∀ (j : Nat) (b : α), j < i → l[j]? = some b → ∃ c, f b = .ok c := by
  induction l with
  | nil => simp [pure, Except.pure]
  | cons a l ih =>
    rw [List.mapM_cons]
    cases ha : f a with
    | error e' =>
      constructor
      · intro h
        obtain rfl := Except.error.inj h
        exact ⟨0, a, rfl, ha, nofun⟩
      · rintro ⟨i, b, hb, herror, hbefore⟩
        cases i with
        | zero =>
          obtain rfl := Option.some.inj hb
          obtain rfl := Except.error.inj (ha.symm.trans herror)
          rfl
        | succ i =>
          obtain ⟨c, hc⟩ := hbefore 0 a (Nat.succ_pos i) rfl
          cases ha.symm.trans hc
    | ok c =>
      have hrest : ((Except.ok c : Except ε β) >>= fun b => do
          let bs ← l.mapM f
          pure (b :: bs)) = .error e ↔ l.mapM f = .error e := by
        rw [bind_eq_error_iff]
        simp [bind_eq_error_iff, pure, Except.pure]
      refine hrest.trans (ih.trans ?_)
      constructor
      · rintro ⟨i, b, hb, herror, hbefore⟩
        refine ⟨i + 1, b, hb, herror, ?_⟩
        intro j b' hj hb'
        cases j with
        | zero =>
          obtain rfl := Option.some.inj hb'
          exact ⟨c, ha⟩
        | succ j => exact hbefore j b' (Nat.lt_of_succ_lt_succ hj) hb'
      · rintro ⟨i, b, hb, herror, hbefore⟩
        cases i with
        | zero =>
          obtain rfl := Option.some.inj hb
          cases ha.symm.trans herror
        | succ i =>
          exact ⟨i, b, hb, herror, fun j b' hj => hbefore (j + 1) b' (Nat.succ_lt_succ hj)⟩

end

/-! ## Computations that answer -/

variable {α β : Type}

/-- The computation gives an answer with the property `P`, unless the random words run out. -/
def Answers (x : Except Fault α) (P : α → Prop) : Prop :=
  match x with
  | .ok a => P a
  | .error fault => fault = .supplyExhausted

namespace Answers

/-- An answer may be known to have a weaker property. -/
theorem mono {x : Except Fault α} {P Q : α → Prop} (h : Answers x P) (hPQ : ∀ a, P a → Q a) :
    Answers x Q := by
  cases x with
  | ok a => exact hPQ a h
  | error fault => exact h

/-- An answer is what the computation comes to. -/
theorem attach {x : Except Fault α} {P : α → Prop} (h : Answers x P) :
    Answers x fun a => x = .ok a ∧ P a := by
  cases x with
  | ok a => exact ⟨rfl, h⟩
  | error fault => exact h

/-- **The second of two computations in a row may count on the answer of the first.** -/
theorem bind {x : Except Fault α} {f : α → Except Fault β} {P : α → Prop} {Q : β → Prop}
    (h : Answers x P) (hf : ∀ a, P a → Answers (f a) Q) : Answers (x >>= f) Q := by
  cases x with
  | ok a => exact hf a h
  | error fault => exact h

/-- The answer of a computation that answers has the property. -/
theorem of_eq_ok {x : Except Fault α} {P : α → Prop} {a : α} (h : Answers x P) (hx : x = .ok a) :
    P a := by
  subst hx
  exact h

/-- The fault of a computation that answers is the lack of words. -/
theorem of_eq_error {x : Except Fault α} {P : α → Prop} {fault : Fault} (h : Answers x P)
    (hx : x = .error fault) : fault = .supplyExhausted := by
  subst hx
  exact h

end Answers

end SymbolicRegression
