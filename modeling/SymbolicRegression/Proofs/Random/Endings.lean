import SymbolicRegression.Proofs.Random.Streams

set_option autoImplicit false
set_option relaxedAutoImplicit false

/-!
# Draws that end

Whatever can be said of the answer of a draw leaves one thing open, that the words run out before
there is one. How many words are enough depends on the stream: a stream whose words are all refused
never is. On a stream on which the draws of indices end wherever they begin, however, all draws end
that are put together from those without searching for an answer.

The number of words that may be taken bounds a draw and does nothing else. An answer is found on
words that have been taken, and it is the same answer when there are more of them.

## Main definitions

* `SymbolicRegression.Draw.IndicesEnd` — streams on which the draws of indices end.
* `SymbolicRegression.Draw.Ends` — a draw that ends on such streams.
* `SymbolicRegression.Draw.Settles` — a draw that takes the words on which it finds its answer.

## Main results

* `SymbolicRegression.Draw.Ends.bind` — draws in a row end if each does.
* `SymbolicRegression.Draw.Ends.exists_takes` — what ends and lacks nothing but words has an answer.
* `SymbolicRegression.Draw.Settles.bind` — draws in a row take the words of their answers in a row.
* `SymbolicRegression.Cycle.indicesEnd` — the draws of indices end on a repeated list with a zero.
-/

namespace SymbolicRegression

variable {σ : Type} [WordSource σ]

namespace Draw

open WordSource (drop)

variable {α β : Type} {source : σ}

omit [WordSource σ] in
/-- What holds of computations without draws, and of computations in a row if it holds of each,
holds of a computation for each item of a list. -/
theorem mapM_of_bind {C : {γ : Type} → Draw σ γ → Prop}
    (hpure : ∀ {γ : Type} (a : γ), C (Pure.pure a : Draw σ γ))
    (hbind : ∀ {γ δ : Type} {d : Draw σ γ} {f : γ → Draw σ δ}, C d → (∀ a, C (f a)) → C (d >>= f))
    {f : α → Draw σ β} {l : List α} (h : ∀ a ∈ l, C (f a)) : C (l.mapM f) := by
  induction l with
  | nil => exact hpure []
  | cons a l ih =>
    rw [List.mapM_cons]
    refine hbind (h a (by simp)) fun b => ?_
    exact hbind (ih fun a' ha' => h a' (by simp [ha'])) fun bs => hpure (b :: bs)

/-! ## Ends -/

/-- **Draws of indices end** wherever they begin on the stream, whatever bound they have. -/
def IndicesEnd (source : σ) : Prop := ∀ n, 0 < n → AlwaysEnds n source

/-- The draws of indices also end once words have been taken. -/
theorem IndicesEnd.drop (h : IndicesEnd source) (n : Nat) : IndicesEnd (WordSource.drop n source) :=
  fun bound hbound => (h bound hbound).drop n

/-- **The draw ends** on every stream on which the draws of indices do: it takes a number of words
and comes to an answer or to a fault, but not to the lack of words, however many words may be taken
behind those. -/
def Ends (d : Draw σ α) : Prop :=
  ∀ source : σ, IndicesEnd source → ∃ (n : Nat) (x : Except Fault α), x ≠ .error .supplyExhausted ∧
    ∀ left, d.run ⟨source, n + left⟩ = x.map fun a => (a, ⟨drop n source, left⟩)

namespace Ends

/-- A draw that comes to an answer on each of these streams ends. -/
theorem of_takes {d : Draw σ α}
    (h : ∀ source : σ, IndicesEnd source → ∃ n a, Takes d source n a) : Ends d := by
  intro source hends
  obtain ⟨n, a, htakes⟩ := h source hends
  exact ⟨n, .ok a, nofun, htakes⟩

/-- A computation without draws ends if it does not lack words. -/
theorem lift {x : Except Fault α} (h : x ≠ .error .supplyExhausted) :
    Ends (liftM x : Draw σ α) := by
  intro source _
  refine ⟨0, x, h, fun left => ?_⟩
  rw [Nat.zero_add]
  cases x with
  | ok a => rfl
  | error fault => rfl

/-- A computation that draws nothing ends. -/
theorem pure (a : α) : Ends (Pure.pure a : Draw σ α) :=
  of_takes fun _ _ => ⟨0, a, .pure a⟩

/-- A fault ends a draw if it is not the lack of words. -/
theorem throw {fault : Fault} (h : fault ≠ .supplyExhausted) :
    Ends (throw fault : Draw σ α) := by
  intro source _
  exact ⟨0, .error fault, fun heq => h (Except.error.inj heq), fun _ => rfl⟩

/-- **Draws in a row end if each does.** -/
theorem bind {d : Draw σ α} {f : α → Draw σ β} (hd : Ends d) (hf : ∀ a, Ends (f a)) :
    Ends (d >>= f) := by
  intro source hends
  obtain ⟨m, x, hx, hrun⟩ := hd source hends
  cases x with
  | error fault =>
    refine ⟨m, .error fault, fun heq => hx (congrArg _ (Except.error.inj heq)), fun left => ?_⟩
    rw [StateT.run_bind, hrun]
    rfl
  | ok a =>
    obtain ⟨n, y, hy, hrest⟩ := hf a _ (hends.drop m)
    refine ⟨m + n, y, hy, fun left => ?_⟩
    rw [StateT.run_bind, Nat.add_assoc, hrun, WordSource.drop_add]
    exact hrest left

/-- A computation for each item of a list ends if each of them does. -/
theorem mapM {f : α → Draw σ β} {l : List α} (h : ∀ a ∈ l, Ends (f a)) : Ends (l.mapM f) :=
  mapM_of_bind (C := Ends) pure bind h

/-- **What ends and lacks nothing but words has an answer.** -/
theorem exists_takes {d : Draw σ α} {P : α → Prop} (h : Ends d) (hyields : Yields d P)
    (hends : IndicesEnd source) : ∃ n a, Takes d source n a ∧ P a := by
  obtain ⟨n, x, hx, hrun⟩ := h source hends
  cases x with
  | ok a =>
    have htakes : Takes d source n a := hrun
    exact ⟨n, a, htakes, htakes.of_yields hyields⟩
  | error fault =>
    have hfault := (hyields ⟨source, n + 0⟩).of_eq_error (hrun 0)
    exact absurd (congrArg _ hfault) hx

end Ends

/-- The next word ends. -/
theorem ends_word : Ends (word : Draw σ UInt64) :=
  .of_takes fun source _ => ⟨1, _, takes_word source⟩

/-- The draw of an index ends, below zero with a fault. -/
theorem ends_below (n : Nat) : Ends (below n : Draw σ Nat) := by
  intro source hends
  rcases Nat.eq_zero_or_pos n with rfl | hn
  · exact ⟨0, .error .emptyRange, nofun, fun _ => rfl⟩
  · obtain ⟨k, i, htakes⟩ := hends n hn 0
    exact ⟨k, .ok i, nofun, htakes⟩

/-- The toss of a coin ends, with a fault if it is improper. -/
theorem ends_coin (p : Float) : Ends (coin p : Draw σ Bool) := by
  unfold coin
  split
  · split
    · exact .pure true
    · exact ends_word.bind fun w => .pure _
  · exact .throw nofun

/-! ## Settles -/

/-- **The draw settles its answer** on the words that it takes: whatever there are behind these, it
is the same. -/
def Settles (d : Draw σ α) : Prop :=
  ∀ (source : σ) (left : Nat) (a : α) (supply : Supply σ),
    d.run ⟨source, left⟩ = .ok (a, supply) → ∃ n, left = n + supply.left ∧ Takes d source n a

namespace Settles

/-- What is left of the words are those behind the ones taken. -/
theorem exists_run_eq {d : Draw σ α} (h : Settles d) {supply supply' : Supply σ} {a : α}
    (hrun : d.run supply = .ok (a, supply')) :
    ∃ n, supply.left = n + supply'.left ∧ supply'.source = drop n supply.source ∧
      Takes d supply.source n a := by
  obtain ⟨n, hleft, htakes⟩ := h supply.source supply.left a supply' hrun
  have hsame := htakes supply'.left
  rw [← hleft] at hsame
  have hsupply := (Prod.mk.inj (Except.ok.inj (hsame.symm.trans hrun))).2
  exact ⟨n, hleft, congrArg Supply.source hsupply.symm, htakes⟩

/-- A computation without draws settles its answer. -/
theorem lift (x : Except Fault α) : Settles (liftM x : Draw σ α) := by
  intro source left a supply hrun
  cases x with
  | error fault => cases hrun
  | ok b =>
    obtain ⟨rfl, rfl⟩ := Prod.mk.inj (Except.ok.inj hrun)
    exact ⟨0, (Nat.zero_add _).symm, .pure b⟩

/-- A computation that draws nothing settles its answer. -/
theorem pure (a : α) : Settles (Pure.pure a : Draw σ α) := lift (.ok a)

/-- Draws in a row settle their answers in a row, and the second may count on the answer of the
first. -/
theorem bind_of_gives {d : Draw σ α} {f : α → Draw σ β} {P : α → Prop} (hd : Settles d)
    (hgives : Gives d P) (hf : ∀ a, P a → Settles (f a)) : Settles (d >>= f) := by
  intro source left b supply hrun
  rw [StateT.run_bind, bind_eq_ok_iff] at hrun
  obtain ⟨⟨a, supply₁⟩, ha, hb⟩ := hrun
  obtain ⟨m, hm, hsource, hfirst⟩ := hd.exists_run_eq ha
  obtain ⟨n, hn, -, hrest⟩ := (hf a (hgives _ _ ha)).exists_run_eq hb
  rw [hsource] at hrest
  refine ⟨m + n, ?_, hfirst.bind hrest⟩
  simp only at hm hn
  omega

/-- **Draws in a row settle their answers in a row.** -/
theorem bind {d : Draw σ α} {f : α → Draw σ β} (hd : Settles d) (hf : ∀ a, Settles (f a)) :
    Settles (d >>= f) :=
  hd.bind_of_gives (P := fun _ => True) (fun _ _ _ => trivial) fun a _ => hf a

/-- A computation for each item of a list settles its answer if each of them does. -/
theorem mapM {f : α → Draw σ β} {l : List α} (h : ∀ a ∈ l, Settles (f a)) :
    Settles (l.mapM f) :=
  mapM_of_bind (C := Settles) pure bind h

end Settles

/-- The next word settles itself. -/
theorem settles_word : Settles (word : Draw σ UInt64) := by
  intro source left w supply hrun
  cases left with
  | zero => cases hrun
  | succ left =>
    obtain ⟨rfl, rfl⟩ := Prod.mk.inj (Except.ok.inj hrun)
    exact ⟨1, Nat.add_comm _ _, takes_word source⟩

/-- The draw of an index settles its answer.

**Proof sketch.** Induction on the words that may be taken: the first one is accepted, or it is
refused and the rest follows. -/
theorem settles_below (n : Nat) : Settles (below n : Draw σ Nat) := by
  intro source left
  induction left generalizing source with
  | zero =>
    intro i supply hrun
    rw [StateT.run, below] at hrun
    split at hrun <;> cases hrun
  | succ left ih =>
    intro i supply hrun
    rcases Nat.eq_zero_or_pos n with rfl | hn
    · cases hrun
    have hbelow : below n ⟨source, left + 1⟩ = belowFrom n (left + 1) source :=
      if_neg (Nat.ne_of_gt hn)
    rw [StateT.run, hbelow, belowFrom] at hrun
    rcases haccepts : accepts n (WordSource.next source).1 with _ | _
    · simp only [haccepts] at hrun
      have hlater : (below n).run ⟨drop 1 source, left⟩ = .ok (i, supply) := by
        rw [StateT.run, below, if_neg (Nat.ne_of_gt hn)]
        exact hrun
      obtain ⟨m, hleft, hrest⟩ := ih (drop 1 source) i supply hlater
      exact ⟨m + 1, by omega, takes_below_of_refuses haccepts hrest⟩
    · simp only [haccepts, if_true] at hrun
      obtain ⟨rfl, rfl⟩ := Prod.mk.inj (Except.ok.inj hrun)
      exact ⟨1, Nat.add_comm _ _, takes_below_of_accepts hn haccepts⟩

/-- The toss of a coin settles its answer. -/
theorem settles_coin (p : Float) : Settles (coin p : Draw σ Bool) := by
  unfold coin
  split
  · split
    · exact .pure true
    · exact settles_word.bind fun w => .pure _
  · exact .lift (.error .improperProbability)

end Draw

/-- **The draws of indices end on a repeated list of words** if zero is one of them: it is accepted
for every bound. -/
theorem Cycle.indicesEnd {c : Cycle} {i : Nat} (hi : i < c.words.size)
    (hzero : c.words.getD i 0 = 0) : Draw.IndicesEnd c := by
  intro n hn
  apply Cycle.alwaysEnds hn hi
  rw [hzero]
  exact Draw.accepts_zero hn

end SymbolicRegression
