import SymbolicRegression.Proofs.Outcome
import SymbolicRegression.Random.Uniform

set_option autoImplicit false
set_option relaxedAutoImplicit false

/-!
# Draws that answer

The contract of a computation that draws random words: whatever words there are, the only fault
that it can end in is their lack, and its answer has a property. No index is drawn from an empty
range and no coin is tossed with an improper probability.

Two computations that are given the same words are compared as well: they are alike if they take as
many of them and come to related answers.

## Main definitions

* `SymbolicRegression.Draw.Yields` — an answer with a property, for every supply of words.
* `SymbolicRegression.Draw.Gives` — a property of every answer, if there is one.
* `SymbolicRegression.Draw.Alike` — related answers, for every supply of words.
* `SymbolicRegression.Draw.Drawn` — what draws below one bound come to, one after another.

## Main results

* `SymbolicRegression.Draw.Yields.bind` — the contract of two computations in a row.
* `SymbolicRegression.Draw.Yields.mapM` — the contract of a computation for each item of a list.
* `SymbolicRegression.Draw.Alike.bind` — computations in a row that are alike.
* `SymbolicRegression.Draw.yields_below`, `SymbolicRegression.Draw.yields_coin` — uniform draws.
* `SymbolicRegression.Draw.run_mapM_below_eq_ok_iff` — a row of draws below one bound.
-/

namespace SymbolicRegression

variable {α β γ δ : Type}

namespace Draw

variable {σ : Type}

/-- From every supply, the computation gives an answer with the property `P`, unless the random
words run out. -/
def Yields (d : Draw σ α) (P : α → Prop) : Prop :=
  ∀ supply : Supply σ, Answers (d.run supply) fun r => P r.1

namespace Yields

/-- A computation that draws nothing yields its answer. -/
theorem pure {a : α} {P : α → Prop} (h : P a) : Yields (Pure.pure a : Draw σ α) P :=
  fun _ => h

/-- A computation without draws yields what it answers. -/
theorem lift {x : Except Fault α} {P : α → Prop} (h : Answers x P) :
    Yields (liftM x : Draw σ α) P := by
  intro supply
  cases x with
  | ok a => exact h
  | error fault => exact h

/-- An answer may be known to have a weaker property. -/
theorem mono {d : Draw σ α} {P Q : α → Prop} (h : Yields d P) (hPQ : ∀ a, P a → Q a) :
    Yields d Q :=
  fun supply => (h supply).mono fun r hr => hPQ r.1 hr

/-- The second of two computations in a row may count on the answer of the first. -/
theorem bind {d : Draw σ α} {f : α → Draw σ β} {P : α → Prop} {Q : β → Prop} (h : Yields d P)
    (hf : ∀ a, P a → Yields (f a) Q) : Yields (d >>= f) Q :=
  fun supply => (h supply).bind fun r hr => hf r.1 hr r.2

/-- A computation for each item of a list yields one answer for each, in order.

**Proof sketch.** Induction on the list: the first answer stands before those of the rest. -/
theorem mapM {f : α → Draw σ β} {R : α → β → Prop} {l : List α}
    (h : ∀ a ∈ l, Yields (f a) (R a)) : Yields (l.mapM f) (List.Forall₂ R l) := by
  induction l with
  | nil => exact pure .nil
  | cons a l ih =>
    rw [List.mapM_cons]
    refine (h a (by simp)).bind ?_
    intro b hb
    refine (ih fun a' ha' => h a' (by simp [ha'])).bind fun bs hbs => ?_
    exact pure (.cons hb hbs)

end Yields

/-- Every answer that the computation gives has the property `P`. It may be asked for something out
of its domain, and then it need not give one. -/
def Gives (d : Draw σ α) (P : α → Prop) : Prop :=
  ∀ (supply : Supply σ) (r : α × Supply σ), d.run supply = .ok r → P r.1

namespace Gives

/-- A computation that yields an answer gives no other. -/
theorem of_yields {d : Draw σ α} {P : α → Prop} (h : Yields d P) : Gives d P :=
  fun supply _ hr => (h supply).of_eq_ok hr

/-- Nothing need be known of an answer. -/
theorem trivially (d : Draw σ α) : Gives d fun _ => True :=
  fun _ _ _ => trivial

/-- A computation that draws nothing gives its answer. -/
theorem pure {a : α} {P : α → Prop} (h : P a) : Gives (Pure.pure a : Draw σ α) P :=
  of_yields (.pure h)

/-- A computation without draws gives what it answers. -/
theorem lift {x : Except Fault α} {P : α → Prop} (h : ∀ a, x = .ok a → P a) :
    Gives (liftM x : Draw σ α) P := by
  intro supply r hr
  cases x with
  | ok a =>
    obtain rfl := Except.ok.inj hr
    exact h a rfl
  | error fault => cases hr

/-- An answer may be known to have a weaker property. -/
theorem mono {d : Draw σ α} {P Q : α → Prop} (h : Gives d P) (hPQ : ∀ a, P a → Q a) : Gives d Q :=
  fun supply r hr => hPQ r.1 (h supply r hr)

/-- The second of two computations in a row may count on the answer of the first. -/
theorem bind {d : Draw σ α} {f : α → Draw σ β} {P : α → Prop} {Q : β → Prop} (h : Gives d P)
    (hf : ∀ a, P a → Gives (f a) Q) : Gives (d >>= f) Q := by
  intro supply r hr
  rw [StateT.run_bind, bind_eq_ok_iff] at hr
  obtain ⟨⟨a, supply'⟩, ha, hr⟩ := hr
  exact hf a (h supply _ ha) supply' r hr

/-- Two computations that agree on all answers agree after them. -/
theorem bind_congr {d : Draw σ α} {f g : α → Draw σ β} {P : α → Prop} (h : Gives d P)
    (hfg : ∀ a, P a → f a = g a) : d >>= f = d >>= g := by
  funext supply
  show (d >>= f).run supply = (d >>= g).run supply
  rw [StateT.run_bind, StateT.run_bind]
  cases hd : d.run supply with
  | error fault => rfl
  | ok r =>
    show (f r.1).run r.2 = (g r.1).run r.2
    rw [hfg r.1 (h supply r hd)]

/-- A computation for each item of a list gives one answer for each, in order. -/
theorem mapM {f : α → Draw σ β} {R : α → β → Prop} {l : List α} (h : ∀ a ∈ l, Gives (f a) (R a)) :
    Gives (l.mapM f) (List.Forall₂ R l) := by
  induction l with
  | nil => exact pure .nil
  | cons a l ih =>
    rw [List.mapM_cons]
    refine (h a (by simp)).bind fun b hb => ?_
    refine (ih fun a' ha' => h a' (by simp [ha'])).bind fun bs hbs => ?_
    exact pure (.cons hb hbs)

end Gives

/-! ## Draws that are alike -/

/-- Two outcomes are one fault, or related answers with the same words left. -/
inductive Matches (R : α → β → Prop) :
    Except Fault (α × Supply σ) → Except Fault (β × Supply σ) → Prop
  /-- Both have an answer. -/
  | answer {a : α} {b : β} (supply : Supply σ) (h : R a b) :
      Matches R (.ok (a, supply)) (.ok (b, supply))
  /-- Both have ended in a fault. -/
  | fault (fault : Fault) : Matches R (.error fault) (.error fault)

/-- From every supply, the computations take the same words and come to answers that are related,
or to the same fault. -/
def Alike (R : α → β → Prop) (d : Draw σ α) (d' : Draw σ β) : Prop :=
  ∀ supply : Supply σ, Matches R (d.run supply) (d'.run supply)

namespace Alike

/-- A computation is like itself. -/
theorem refl (d : Draw σ α) : Alike (· = ·) d d := by
  intro supply
  rcases d.run supply with fault | ⟨a, supply'⟩
  · exact .fault fault
  · exact .answer supply' rfl

/-- Computations that draw nothing are alike if their answers are related. -/
theorem pure {R : α → β → Prop} {a : α} {b : β} (h : R a b) :
    Alike R (Pure.pure a : Draw σ α) (Pure.pure b) :=
  fun supply => .answer supply h

/-- Answers may be known to be related in a wider way. -/
theorem mono {R S : α → β → Prop} {d : Draw σ α} {d' : Draw σ β} (h : Alike R d d')
    (hRS : ∀ a b, R a b → S a b) : Alike S d d' := by
  intro supply
  have hd := h supply
  generalize d.run supply = x, d'.run supply = x' at hd ⊢
  cases hd with
  | answer supply' hab => exact .answer supply' (hRS _ _ hab)
  | fault fault => exact .fault fault

/-- Computations in a row are alike if the first ones are, and the second ones on related
answers. -/
theorem bind {R : α → β → Prop} {S : γ → δ → Prop} {d : Draw σ α} {d' : Draw σ β}
    {f : α → Draw σ γ} {f' : β → Draw σ δ} (h : Alike R d d')
    (hf : ∀ a b, R a b → Alike S (f a) (f' b)) : Alike S (d >>= f) (d' >>= f') := by
  intro supply
  rw [StateT.run_bind, StateT.run_bind]
  have hd := h supply
  generalize d.run supply = x, d'.run supply = x' at hd ⊢
  cases hd with
  | answer supply' hab => exact hf _ _ hab supply'
  | fault fault => exact .fault fault

/-- Computations that are alike and have the same answers are the same. -/
theorem eq_of {d d' : Draw σ α} (h : Alike (· = ·) d d') : d = d' := by
  funext supply
  show d.run supply = d'.run supply
  have hd := h supply
  generalize d.run supply = x, d'.run supply = x' at hd ⊢
  cases hd with
  | answer supply' hab => rw [hab]
  | fault fault => rfl

/-- An answer of a computation that is like itself is related to itself. -/
theorem gives {R : α → α → Prop} {d : Draw σ α} (h : Alike R d d) : Gives d fun a => R a a := by
  intro supply r hr
  have hd := h supply
  rw [hr] at hd
  cases hd with
  | answer _ hab => exact hab

end Alike

/-! ## Uniform draws -/

/-- The index that a word selects lies below the bound. -/
theorem index_lt {n : Nat} (hn : 0 < n) (w : UInt64) : index n w < n := by
  rw [index, Nat.div_lt_iff_lt_mul (by decide), Nat.mul_comm]
  exact Nat.mul_lt_mul_of_pos_left w.toNat_lt hn

variable [WordSource σ]

/-- An index drawn below a positive bound lies below it. -/
theorem yields_below {n : Nat} (hn : 0 < n) : Yields (below n : Draw σ Nat) (· < n) := by
  have hfrom : ∀ (left : Nat) (source : σ), Answers (belowFrom n left source) fun r => r.1 < n := by
    intro left
    induction left with
    | zero => intro source; exact rfl
    | succ left ih =>
      intro source
      rw [belowFrom]
      split
      split
      · exact index_lt hn _
      · exact ih _
  intro supply
  have hrun : (below n : Draw σ Nat).run supply = belowFrom n supply.left supply.source := by
    rw [StateT.run, below, if_neg (by omega)]
  rw [hrun]
  exact hfrom _ _

/-- An index that is drawn lies below the bound, and none is drawn below zero. -/
theorem gives_below (n : Nat) : Gives (below n : Draw σ Nat) (· < n) := by
  rcases Nat.eq_zero_or_pos n with rfl | hn
  · intro supply r hr
    cases hr
  · exact .of_yields (yields_below hn)

/-- Draws below the bound `size`, made one after another from a supply: what they come to, and the
words that they leave. -/
inductive Drawn (size : Nat) : Supply σ → List Nat → Supply σ → Prop
  /-- No draw takes no word. -/
  | none (supply : Supply σ) : Drawn size supply [] supply
  /-- A draw comes first, and the others are made from the words that it leaves. -/
  | more {supply supply' supply'' : Supply σ} {first : Nat} {rest : List Nat}
      (hfirst : (below size).run supply = .ok (first, supply'))
      (hrest : Drawn size supply' rest supply'') : Drawn size supply (first :: rest) supply''

/-- **Draws below one bound are as many as the bound is repeated**, and they are made one after
another. -/
theorem run_mapM_below_eq_ok_iff {size n : Nat} {slots : List Nat} {supply supply' : Supply σ} :
    ((List.replicate n size).mapM below).run supply = .ok (slots, supply') ↔
      slots.length = n ∧ Drawn size supply slots supply' := by
  induction n generalizing slots supply with
  | zero =>
    constructor
    · intro h
      obtain ⟨rfl, rfl⟩ := Prod.mk.inj (Except.ok.inj h)
      exact ⟨rfl, .none supply⟩
    · rintro ⟨hlength, hdrawn⟩
      obtain rfl := List.length_eq_zero_iff.mp hlength
      cases hdrawn
      rfl
  | succ n ih =>
    rw [List.replicate_succ, List.mapM_cons, StateT.run_bind, bind_eq_ok_iff]
    constructor
    · rintro ⟨⟨first, supply₁⟩, hfirst, h⟩
      rw [StateT.run_bind, bind_eq_ok_iff] at h
      obtain ⟨⟨rest, supply₂⟩, hrest, h⟩ := h
      obtain ⟨rfl, rfl⟩ := Prod.mk.inj (Except.ok.inj h)
      obtain ⟨hlength, hdrawn⟩ := ih.mp hrest
      exact ⟨congrArg (· + 1) hlength, .more hfirst hdrawn⟩
    · rintro ⟨hlength, hdrawn⟩
      cases hdrawn with
      | none => cases hlength
      | @more _ supply₁ _ first rest hfirst hrest =>
        refine ⟨(first, supply₁), hfirst, ?_⟩
        rw [StateT.run_bind, ih.mpr ⟨Nat.succ.inj hlength, hrest⟩]
        rfl

/-- A word can always be taken while there are words. -/
theorem yields_word : Yields (word : Draw σ UInt64) fun _ => True := by
  intro supply
  rcases hleft : supply.left with _ | left
  · simp only [word, StateT.run, hleft]
    exact rfl
  · simp only [word, StateT.run, hleft]
    exact trivial

/-- A coin with a probability between zero and one can always be tossed. -/
theorem yields_coin {p : Float} (h : 0.0 ≤ p ∧ p ≤ 1.0) :
    Yields (coin p : Draw σ Bool) fun _ => True := by
  rw [coin, if_pos h]
  split
  · exact .pure trivial
  · exact yields_word.bind fun _ _ => .pure trivial

/-- A number of the unit interval can always be drawn. -/
theorem yields_unit : Yields (unit : Draw σ Float) fun x => ∃ w, x = unitOfWord w :=
  yields_word.bind fun w _ => .pure ⟨w, rfl⟩

end Draw

end SymbolicRegression
