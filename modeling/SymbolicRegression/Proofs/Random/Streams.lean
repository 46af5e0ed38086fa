import SymbolicRegression.Proofs.Random.Draws
import SymbolicRegression.Random.Cycle

set_option autoImplicit false
set_option relaxedAutoImplicit false

/-!
# Draws from a stream of words

A source gives a stream of words. A draw that comes to an answer has taken finitely many of them,
and it comes to the same answer however many words may be taken behind those. So it can be said what
a draw comes to on a stream, without a bound on the words that it may take, and what it comes to on
words that are given.

An index below a bound may refuse words, and a stream whose words are all refused keeps a draw from
ever coming to an answer. That a computation ends is therefore said of streams on which the draws
that it makes end.

## Main definitions

* `SymbolicRegression.WordSource.drop` — the source after a number of words.
* `SymbolicRegression.WordSource.Begins` — the words that a source gives first.
* `SymbolicRegression.Draw.Takes` — what a draw comes to, and after how many words.
* `SymbolicRegression.Draw.AlwaysEnds` — a draw below a bound ends wherever it begins.
* `SymbolicRegression.Draw.Spends` — a number of words that a draw takes at least.

## Main results

* `SymbolicRegression.Draw.Takes.bind` — draws in a row take their words in a row.
* `SymbolicRegression.Draw.takes_below_of_accepts`, `SymbolicRegression.Draw.takes_coin_half` — the
  uniform draws on a stream.
* `SymbolicRegression.Draw.alwaysEnds_of_accepts` — streams on which the draws of indices end.
* `SymbolicRegression.Cycle.alwaysEnds` — a repeated list of words is such a stream.
* `SymbolicRegression.Draw.Spends.bind` — draws in a row take at least the words of each.
-/

namespace SymbolicRegression

variable {σ : Type}

namespace Draw

variable {α β : Type}

/-! ## How many words a draw takes -/

/-- A draw that comes to an answer has taken at least `k` words. -/
def Spends (k : Nat) (d : Draw σ α) : Prop :=
  ∀ (supply : Supply σ) (r : α × Supply σ), d.run supply = .ok r → r.2.left + k ≤ supply.left

namespace Spends

/-- Fewer words may be asked for. -/
theorem mono {k l : Nat} {d : Draw σ α} (h : Spends l d) (hkl : k ≤ l) : Spends k d := by
  intro supply r hr
  have hle := h supply r hr
  omega

/-- A computation that draws nothing takes no word. -/
theorem pure (a : α) : Spends 0 (Pure.pure a : Draw σ α) := by
  intro supply r hr
  obtain rfl := Except.ok.inj hr
  exact Nat.le_refl _

/-- **Draws in a row take at least the words of each.** -/
theorem bind {k l : Nat} {d : Draw σ α} {f : α → Draw σ β} (hd : Spends k d)
    (hf : ∀ a, Spends l (f a)) : Spends (k + l) (d >>= f) := by
  intro supply r hr
  rw [StateT.run_bind, bind_eq_ok_iff] at hr
  obtain ⟨⟨a, supply'⟩, ha, hr⟩ := hr
  have hfirst := hd supply _ ha
  have hrest := hf a supply' r hr
  simp only at hfirst
  omega

end Spends

end Draw

variable [WordSource σ]

namespace WordSource

/-! ## Streams -/

/-- The source after `n` words have been taken. -/
def drop : (n : Nat) → σ → σ
  | 0, source => source
  | n + 1, source => drop n (next source).2

/-- Words are taken one after another. -/
theorem drop_add (m n : Nat) (source : σ) : drop (m + n) source = drop n (drop m source) := by
  induction m generalizing source with
  | zero => rw [Nat.zero_add, drop]
  | succ m ih => rw [Nat.succ_add, drop, drop, ih]

/-- The words that the source gives first. -/
def Begins : List UInt64 → σ → Prop
  | [], _ => True
  | w :: words, source => (next source).1 = w ∧ Begins words (next source).2

/-- A source begins with two rows of words if it begins with the first and, once these have been
taken, with the second. -/
theorem begins_append {front back : List UInt64} {source : σ} :
    Begins (front ++ back) source ↔
      Begins front source ∧ Begins back (drop front.length source) := by
  induction front generalizing source with
  | nil => simp [Begins, drop]
  | cons w front ih => simp [Begins, drop, ih, and_assoc]

end WordSource

namespace Draw

open WordSource (drop Begins)

variable {α β : Type}

/-! ## What a draw comes to -/

/-- **The draw takes `n` words from the source and comes to the answer `a`**, however many words may
be taken behind those. -/
def Takes (d : Draw σ α) (source : σ) (n : Nat) (a : α) : Prop :=
  ∀ left, d.run ⟨source, n + left⟩ = .ok (a, ⟨drop n source, left⟩)

namespace Takes

variable {source : σ}

/-- A computation that draws nothing takes no word. -/
theorem pure (a : α) : Takes (Pure.pure a : Draw σ α) source 0 a := by
  intro left
  rw [Nat.zero_add]
  rfl

/-- **Draws in a row take their words in a row.** -/
theorem bind {d : Draw σ α} {f : α → Draw σ β} {m n : Nat} {a : α} {b : β}
    (hd : Takes d source m a) (hf : Takes (f a) (drop m source) n b) :
    Takes (d >>= f) source (m + n) b := by
  intro left
  rw [StateT.run_bind, Nat.add_assoc, hd, WordSource.drop_add]
  exact hf left

/-- What is done with an answer takes no word. -/
theorem map {d : Draw σ α} {n : Nat} {a : α} (f : α → β) (hd : Takes d source n a) :
    Takes (d >>= fun a => Pure.pure (f a)) source n (f a) :=
  hd.bind (f := fun a => Pure.pure (f a)) (.pure (f a))

/-- An answer on a stream has the property that the draw yields. -/
theorem of_yields {d : Draw σ α} {n : Nat} {a : α} {P : α → Prop} (hd : Takes d source n a)
    (h : Yields d P) : P a :=
  (h ⟨source, n + 0⟩).of_eq_ok (hd 0)

end Takes

variable {source : σ}

/-- The next word takes one word. -/
theorem takes_word (source : σ) : Takes word source 1 (WordSource.next source).1 := by
  intro left
  rw [Nat.add_comm]
  rfl

/-- An accepted word is enough for an index. -/
theorem takes_below_of_accepts {n : Nat} (hn : 0 < n)
    (h : accepts n (WordSource.next source).1 = true) :
    Takes (below n) source 1 (index n (WordSource.next source).1) := by
  intro left
  rw [StateT.run, below, if_neg (by omega), Nat.add_comm, belowFrom]
  simp only [h, if_true]
  rfl

/-- Behind a word that is refused the draw of an index goes on. -/
theorem takes_below_of_refuses {n m i : Nat} (h : accepts n (WordSource.next source).1 = false)
    (hrest : Takes (below n) (drop 1 source) m i) : Takes (below n) source (m + 1) i := by
  intro left
  have hnext := hrest left
  rcases Nat.eq_zero_or_pos n with rfl | hn
  · cases hnext
  · rw [StateT.run, below, if_neg (by omega)] at hnext ⊢
    rw [Nat.add_right_comm, belowFrom]
    simp only [h]
    exact hnext

omit [WordSource σ] in
/-- Zero is accepted for every bound. -/
theorem accepts_zero {n : Nat} (hn : 0 < n) : accepts n 0 = true := by
  rw [accepts, decide_eq_true_iff]
  show 0 * n % _ < _
  rw [Nat.zero_mul, Nat.zero_mod, Nat.shiftLeft_eq]
  exact Nat.mul_pos hn (Nat.two_pow_pos _)

/-- Zero gives the first index. -/
theorem takes_below_zero {n : Nat} (hn : 0 < n) (h : (WordSource.next source).1 = 0) :
    Takes (below n) source 1 0 := by
  have hindex : index n (WordSource.next source).1 = 0 := by
    rw [h, index]
    show 0 * n / _ = 0
    rw [Nat.zero_mul, Nat.zero_div]
  have htakes := takes_below_of_accepts hn (h ▸ accepts_zero hn)
  rwa [hindex] at htakes

/-- The fair coin shows heads for the lower half of the words. -/
theorem coin_half :
    (coin 0.5 : Draw σ Bool) = do return decide ((← word) < 0x8000000000000000) := by
  have hproper : (0.0 : Float) ≤ 0.5 ∧ (0.5 : Float) ≤ 1.0 := by decide +kernel
  have huncertain : ¬ ((0.5 : Float) == 1.0) = true := by decide +kernel
  have hheads : headsBelow 0.5 = 0x8000000000000000 := by decide +kernel
  rw [coin, if_pos hproper, if_neg huncertain, hheads]

/-- The fair coin takes one word. -/
theorem takes_coin_half (source : σ) :
    Takes (coin 0.5) source 1 (decide ((WordSource.next source).1 < 0x8000000000000000)) := by
  rw [coin_half]
  exact (takes_word source).map _

/-- **A draw below `n` ends wherever it begins**: however many words have been taken from the
source, not all that follow are refused. -/
def AlwaysEnds (n : Nat) (source : σ) : Prop :=
  ∀ m, ∃ k i, Takes (below n) (drop m source) k i

/-- Draws also end wherever they begin once words have been taken. -/
theorem AlwaysEnds.drop {n : Nat} (h : AlwaysEnds n source) (m : Nat) :
    AlwaysEnds n (WordSource.drop m source) := by
  intro m'
  rw [← WordSource.drop_add]
  exact h (m + m')

/-- **Draws end if accepted words come again and again.**

**Proof sketch.** Induction on the words before an accepted one: the next word is accepted, or it is
refused and there is one word less before the accepted one. -/
theorem alwaysEnds_of_accepts {n : Nat} (hn : 0 < n)
    (h : ∀ m, ∃ k, accepts n (WordSource.next (drop (m + k) source)).1 = true) :
    AlwaysEnds n source := by
  have hends : ∀ (k : Nat) (source : σ), accepts n (WordSource.next (drop k source)).1 = true →
      ∃ m i, Takes (below n) source m i := by
    intro k
    induction k with
    | zero => exact fun source haccepts => ⟨1, _, takes_below_of_accepts hn haccepts⟩
    | succ k ih =>
      intro source hlater
      rcases haccepts : accepts n (WordSource.next source).1 with _ | _
      · obtain ⟨m, i, hrest⟩ := ih (drop 1 source) hlater
        exact ⟨m + 1, i, takes_below_of_refuses haccepts hrest⟩
      · exact ⟨1, _, takes_below_of_accepts hn haccepts⟩
  intro m
  obtain ⟨k, hk⟩ := h m
  rw [WordSource.drop_add] at hk
  exact hends k _ hk

/-! ## The least number of words -/

/-- The next word is one. -/
theorem spends_word : Spends 1 (word : Draw σ UInt64) := by
  intro supply r hr
  rcases hleft : supply.left with _ | left
  · simp [word, StateT.run, hleft] at hr
  · simp only [word, StateT.run, hleft, Except.ok.injEq] at hr
    subst hr
    exact Nat.le_refl _

/-- An index takes a word.

**Proof sketch.** Induction on the words that may be taken: the first one is taken even if it is
refused. -/
theorem spends_below (n : Nat) : Spends 1 (below n : Draw σ Nat) := by
  have hfrom : ∀ (left : Nat) (source : σ) (r : Nat × Supply σ),
      belowFrom n left source = .ok r → r.2.left + 1 ≤ left := by
    intro left
    induction left with
    | zero => intro source r hr; cases hr
    | succ left ih =>
      intro source r hr
      rw [belowFrom] at hr
      split at hr
      split at hr
      · obtain rfl := Except.ok.inj hr
        exact Nat.le_refl _
      · have hle := ih _ r hr
        omega
  intro supply r hr
  rw [StateT.run, below] at hr
  split at hr
  · cases hr
  · exact hfrom _ _ r hr

/-- The fair coin takes a word. -/
theorem spends_coin_half : Spends 1 (coin 0.5 : Draw σ Bool) := by
  rw [coin_half]
  exact spends_word.bind fun _ => .pure _

end Draw

/-! ## Repeated words -/

namespace Cycle

/-- Words that are taken from a repeated list move the place in it. -/
theorem drop_eq (c : Cycle) (n : Nat) : WordSource.drop n c = ⟨c.words, c.given + n⟩ := by
  induction n generalizing c with
  | zero => rfl
  | succ n ih =>
    rw [WordSource.drop, ih]
    exact congrArg (Cycle.mk c.words) (Nat.add_right_comm _ _ _)

/-- **Draws end on a repeated list of words** if one of these is accepted.

**Proof sketch.** From any place the list can be gone through as many times as words have been given
and then up to the accepted one. -/
theorem alwaysEnds {c : Cycle} {n i : Nat} (hn : 0 < n) (hi : i < c.words.size)
    (h : Draw.accepts n (c.words.getD i 0) = true) : Draw.AlwaysEnds n c := by
  refine Draw.alwaysEnds_of_accepts hn fun m => ⟨(c.words.size - 1) * (c.given + m) + i, ?_⟩
  have hplace : (c.given + (m + ((c.words.size - 1) * (c.given + m) + i))) % c.words.size = i := by
    have htimes : (c.words.size - 1) * (c.given + m) + (c.given + m) =
        c.words.size * (c.given + m) := by
      rw [← Nat.succ_mul, Nat.succ_eq_add_one, Nat.sub_add_cancel (by omega)]
    have hsum : c.given + (m + ((c.words.size - 1) * (c.given + m) + i)) =
        c.words.size * (c.given + m) + i := by omega
    rw [hsum, Nat.mul_add_mod, Nat.mod_eq_of_lt hi]
  rw [drop_eq]
  show Draw.accepts n (c.words.getD (_ % c.words.size) 0) = true
  rw [hplace]
  exact h

end Cycle

end SymbolicRegression
