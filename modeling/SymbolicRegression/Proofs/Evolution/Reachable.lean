import SymbolicRegression.CaseFile.Reader
import SymbolicRegression.Evolution.Run
import SymbolicRegression.Proofs.Outcome
import SymbolicRegression.Random.Cycle

set_option autoImplicit false
set_option relaxedAutoImplicit false

/-!
# Reachable runs

The states of a run that a caller can see, and those that it passes through in between: after its
start, after every generation, after a run with reports, however that ends, and after any number
of the steps of a generation. Whatever a step preserves, and the bookkeeping of a generation does
not touch, holds of all of them.

## Main definitions

* `SymbolicRegression.Evolution.Rested` — the states between two calls.
* `SymbolicRegression.Evolution.Reachable` — these, and the states between the steps of a
  generation.
* `SymbolicRegression.Evolution.Advanced` — what becomes of a run when it is advanced.

## Main results

* `SymbolicRegression.Evolution.advance_cases`,
  `SymbolicRegression.Evolution.Advanced.advance_eq` — the four outcomes of advancing a run.
* `SymbolicRegression.Evolution.run_keeps` — a run with reports only advances.
* `SymbolicRegression.Evolution.Reachable.invariant` — what steps preserve holds of reachable runs.
* `SymbolicRegression.Sample.reachable` — a small run that has made a generation.
-/

namespace SymbolicRegression

variable {σ : Type} [WordSource σ]

namespace Evolution

/-! ## Reachable runs -/

/-- The states of a run between two calls. -/
inductive Rested (settings : Settings) (problem : Problem) (supply : Supply σ) :
    Evolution σ → Prop
  /-- The run has just started. -/
  | start {e : Evolution σ} (h : start settings problem supply = .ok e) :
      Rested settings problem supply e
  /-- It has been asked for one more generation. -/
  | advance {e e' : Evolution σ} {record : Option GenerationRecord}
      (h : Rested settings problem supply e) (hadvance : e.advance = .ok (record, e')) :
      Rested settings problem supply e'
  /-- It has been run with reports, to its end or to the first report that failed. -/
  | run {e : Evolution σ} {ω : Type} (h : Rested settings problem supply e)
      (reporter : Reporter ω) (out : ω) : Rested settings problem supply (e.run reporter out).2.1

/-- The states of a run between two calls, and those between the steps of a generation. -/
inductive Reachable (settings : Settings) (problem : Problem) (supply : Supply σ) :
    Evolution σ → Prop
  /-- The run is between two calls. -/
  | rested {e : Evolution σ} (h : Rested settings problem supply e) :
      Reachable settings problem supply e
  /-- It has taken some of the steps of a generation. -/
  | midway {e e' : Evolution σ} {n : Nat} (h : Rested settings problem supply e)
      (hphase : e.phase.isFinal = false) (hunsolved : e.isSolved = .ok false)
      (hleft : e.generation < e.settings.generations) (hn : n ≤ e.settings.populationSize)
      (hsteps : steps n { e with phase := .running, generation := e.generation + 1 } = .ok e') :
      Reachable settings problem supply e'

/-! ## Generations -/

/-- What becomes of a run when it is advanced. -/
inductive Advanced (e : Evolution σ) : Option GenerationRecord → Evolution σ → Prop
  /-- It had ended before. -/
  | ended (hphase : e.phase.isFinal = true) : Advanced e none e
  /-- It ends because the best fitness has passed the threshold. -/
  | solved (hphase : e.phase.isFinal = false) (hsolved : e.isSolved = .ok true) :
      Advanced e none { e with phase := .solved }
  /-- It ends because all generations have been made. -/
  | exhausted (hphase : e.phase.isFinal = false) (hunsolved : e.isSolved = .ok false)
      (hdone : e.settings.generations ≤ e.generation) :
      Advanced e none { e with phase := .exhausted }
  /-- It makes a generation. -/
  | made {e' : Evolution σ} (hphase : e.phase.isFinal = false) (hunsolved : e.isSolved = .ok false)
      (hleft : e.generation < e.settings.generations)
      (hsteps : steps e.settings.populationSize
        { e with phase := .running, generation := e.generation + 1 } = .ok e') :
      Advanced e (some e'.currentRecord) e'.record

/-- **Advancing a run has one of the four outcomes.** -/
theorem advance_cases {e e' : Evolution σ} {record : Option GenerationRecord}
    (h : e.advance = .ok (record, e')) : Advanced e record e' := by
  unfold advance at h
  split at h
  · obtain ⟨rfl, rfl⟩ := Prod.mk.inj (Except.ok.inj h)
    exact .ended ‹_›
  · rename_i hphase
    rw [bind_eq_ok_iff] at h
    obtain ⟨solved, hsolved, h⟩ := h
    split at h
    · rename_i htrue
      obtain ⟨rfl, rfl⟩ := Prod.mk.inj (Except.ok.inj h)
      exact .solved (by simpa using hphase) (htrue ▸ hsolved)
    · rename_i hfalse
      have hunsolved : e.isSolved = .ok false := by simpa [hfalse] using hsolved
      split at h
      · obtain ⟨rfl, rfl⟩ := Prod.mk.inj (Except.ok.inj h)
        exact .exhausted (by simpa using hphase) hunsolved ‹_›
      · rename_i hleft
        rw [bind_eq_ok_iff] at h
        obtain ⟨e₁, hsteps, h⟩ := h
        obtain ⟨rfl, rfl⟩ := Prod.mk.inj (Except.ok.inj h)
        exact .made (by simpa using hphase) hunsolved (by omega) hsteps

/-- A run that can have one of these outcomes has it when it is advanced. -/
theorem Advanced.advance_eq {e e' : Evolution σ} {record : Option GenerationRecord}
    (h : Advanced e record e') : e.advance = .ok (record, e') := by
  cases h with
  | ended hphase => exact if_pos hphase
  | solved hphase hsolved =>
    rw [advance, hphase, hsolved]
    rfl
  | exhausted hphase hunsolved hdone =>
    rw [advance, hphase, hunsolved]
    exact if_pos hdone
  | made hphase hunsolved hleft hsteps =>
    rw [advance, hphase, hunsolved]
    refine (if_neg (Nat.not_le.mpr hleft)).trans ?_
    exact bind_eq_ok_iff.mpr ⟨_, hsteps, rfl⟩

/-! ## Invariants -/

/-- What a step preserves, any number of steps preserve. -/
theorem steps_keep {P : Evolution σ → Prop} (hstep : ∀ e e', P e → e.step = .ok e' → P e')
    {n : Nat} {e e' : Evolution σ} (he : P e) (h : steps n e = .ok e') : P e' := by
  induction n generalizing e with
  | zero =>
    obtain rfl := Except.ok.inj h
    exact he
  | succ n ih =>
    rw [steps, bind_eq_ok_iff] at h
    obtain ⟨e₁, hfirst, hrest⟩ := h
    exact ih (hstep e e₁ he hfirst) hrest

/-- What a step preserves and the bookkeeping of a generation does not touch, advancing a run
preserves. -/
theorem advance_keeps {P : Evolution σ → Prop} (hstep : ∀ e e', P e → e.step = .ok e' → P e')
    (hframe : ∀ e phase generation history, P e → P { e with phase, generation, history })
    {e e' : Evolution σ} {record : Option GenerationRecord} (he : P e)
    (h : e.advance = .ok (record, e')) : P e' := by
  cases advance_cases h with
  | ended => exact he
  | solved => exact hframe e _ _ _ he
  | exhausted => exact hframe e _ _ _ he
  | made _ _ _ hsteps =>
    exact hframe _ _ _ _ (steps_keep hstep (hframe e _ _ _ he) hsteps)

end Evolution

/-! ## Runs with reports -/

namespace Running

variable {ω α β : Type} {P : Evolution σ → Prop}

/-- What a run from the state `e` does after it has reported where it stands: it makes and reports
generations and then its result. -/
def conclude (reporter : Reporter ω) (e : Evolution σ) : Running σ ω Result := do
  finishGenerations reporter (e.settings.generations - e.generation + 1)
  let result ← answer (← evolution).result
  tell reporter result.event
  return result

/-- The computation leads from a state of the run with the property `P` to one with it, whatever
comes of it. -/
def Keeps (P : Evolution σ → Prop) (x : Running σ ω α) : Prop :=
  ∀ e out, P e → P (x.run.run (e, out)).2.1

omit [WordSource σ]

/-- An answer changes no state. -/
lemma Keeps.pure (a : α) : Keeps P (Pure.pure a : Running σ ω α) :=
  fun _ _ h => h

/-- A computation without a state changes none. -/
lemma Keeps.answer (x : Except Fault α) : Keeps P (answer x : Running σ ω α) := by
  intro e out h
  cases x <;> exact h

/-- Looking at the run changes no state. -/
lemma Keeps.evolution : Keeps P (evolution : Running σ ω (Evolution σ)) :=
  fun _ _ h => h

/-- Two computations in a row keep what both keep. -/
lemma Keeps.bind {x : Running σ ω α} {f : α → Running σ ω β} (hx : Keeps P x)
    (hf : ∀ a, Keeps P (f a)) : Keeps P (x >>= f) := by
  intro e out h
  have hfirst := hx e out h
  show P ((ExceptT.bindCont f (x.run.run (e, out)).1).run (x.run.run (e, out)).2).2.1
  cases (x.run.run (e, out)).1 with
  | ok a => exact hf a _ _ hfirst
  | error error => exact hfirst

/-- What a reporter answers, as a step of the run. -/
def reported : Except WriteError Unit → Running σ ω Unit
  | .ok () => return ()
  | .error error => throw (.write error)

/-- What comes of a report. -/
theorem run_tell (reporter : Reporter ω) (event : Event) (e : Evolution σ) (out : ω) :
    (tell reporter event : Running σ ω Unit).run.run (e, out) =
      ((reporter event out).1.mapError EvolutionError.write, e, (reporter event out).2) := by
  have hrun : (tell reporter event : Running σ ω Unit).run.run (e, out) =
      (reported (reporter event out).1 : Running σ ω Unit).run.run
        (e, (reporter event out).2) := rfl
  rw [hrun]
  cases (reporter event out).1 <;> rfl

/-- A report, failed or not, leaves the run alone. -/
lemma Keeps.tell (reporter : Reporter ω) (event : Event) :
    Keeps P (tell reporter event : Running σ ω Unit) := by
  intro e out h
  rw [run_tell]
  exact h

/-- Reporting a generation leaves the run alone. -/
lemma Keeps.tellGeneration (reporter : Reporter ω) (record : GenerationRecord) :
    Keeps P (tellGeneration reporter record : Running σ ω Unit) :=
  Keeps.evolution.bind fun _ => (Keeps.answer _).bind fun _ => .tell _ _

variable [WordSource σ]

/-- What comes of asking for a generation: without an answer the run stays as it is. -/
theorem run_advance (e : Evolution σ) (out : ω) :
    (advance : Running σ ω (Option GenerationRecord)).run.run (e, out) =
      match e.advance with
      | .ok (record, e') => (.ok record, e', out)
      | .error fault => (.error (.fault fault), e, out) := by
  have hrun : (advance : Running σ ω (Option GenerationRecord)).run.run (e, out) =
      ((answer e.advance >>= fun r => do
        set (r.2, out)
        return r.1 : Running σ ω (Option GenerationRecord)).run.run (e, out)) := rfl
  rw [hrun]
  cases e.advance <;> rfl

/-- Asking for a generation keeps what advancing keeps. -/
lemma Keeps.advance
    (hadvance : ∀ e record e', P e → e.advance = .ok (record, e') → P e') :
    Keeps P (advance : Running σ ω (Option GenerationRecord)) := by
  intro e out h
  rw [run_advance]
  split
  · exact hadvance _ _ _ h ‹_›
  · exact h

/-- Making and reporting generations keeps what advancing keeps. -/
lemma Keeps.finishGenerations
    (hadvance : ∀ e record e', P e → e.advance = .ok (record, e') → P e')
    (reporter : Reporter ω) (budget : Nat) :
    Keeps P (finishGenerations reporter budget : Running σ ω Unit) := by
  induction budget with
  | zero => exact .pure ()
  | succ budget ih =>
    refine (Keeps.advance hadvance).bind ?_
    intro record
    cases record with
    | none => exact .pure ()
    | some record => exact (Keeps.tellGeneration reporter record).bind fun _ => ih

/-- Coming to the end keeps what advancing keeps. -/
lemma Keeps.conclude (hadvance : ∀ e record e', P e → e.advance = .ok (record, e') → P e')
    (reporter : Reporter ω) (e : Evolution σ) :
    Keeps P (conclude reporter e : Running σ ω Result) :=
  (Keeps.finishGenerations hadvance reporter _).bind fun _ =>
    Keeps.evolution.bind fun _ => (Keeps.answer _).bind fun _ =>
      (Keeps.tell reporter _).bind fun _ => .pure _

/-- Running to the end keeps what advancing keeps. -/
lemma Keeps.toEnd (hadvance : ∀ e record e', P e → e.advance = .ok (record, e') → P e')
    (reporter : Reporter ω) : Keeps P (toEnd reporter : Running σ ω Result) := by
  refine Keeps.evolution.bind fun e => (Keeps.tell reporter _).bind fun _ => ?_
  split
  · exact (Keeps.tellGeneration reporter _).bind fun _ => .conclude hadvance reporter e
  · exact .conclude hadvance reporter e

end Running

namespace Evolution

/-- **A run with reports keeps what advancing keeps**, whether its reports fail or not. -/
theorem run_keeps {P : Evolution σ → Prop} {ω : Type}
    (hadvance : ∀ e record e', P e → e.advance = .ok (record, e') → P e') {e : Evolution σ}
    (he : P e) (reporter : Reporter ω) (out : ω) : P (e.run reporter out).2.1 :=
  Running.Keeps.toEnd hadvance reporter e out he

variable {settings : Settings} {problem : Problem} {supply : Supply σ}

/-- **What holds at the start, is preserved by every step, and is not touched by the bookkeeping of
a generation, holds of every reachable run.** -/
theorem Reachable.invariant {P : Evolution σ → Prop}
    (hstart : ∀ e, Evolution.start settings problem supply = .ok e → P e)
    (hstep : ∀ e e', P e → e.step = .ok e' → P e')
    (hframe : ∀ e phase generation history, P e → P { e with phase, generation, history })
    {e : Evolution σ} (h : Reachable settings problem supply e) : P e := by
  have hrested : ∀ e, Rested settings problem supply e → P e := by
    intro e h
    induction h with
    | start h => exact hstart _ h
    | advance _ hadvance ih => exact advance_keeps hstep hframe ih hadvance
    | run _ reporter out ih =>
      exact run_keeps (fun _ _ _ he => advance_keeps hstep hframe he) ih reporter out
  cases h with
  | rested h => exact hrested _ h
  | midway h _ _ _ _ hsteps => exact steps_keep hstep (hframe _ _ _ _ (hrested _ h)) hsteps

end Evolution

/-! ## A small run -/

namespace Sample

/-- Two cases of one variable, with one constant. -/
def text : String := "1 1 2 3 2\n0 5\n1 7\n"

/-- Two programs and one generation. -/
def settings : Settings where
  maxLength := 10
  populationSize := 2
  depth := 1
  generations := 1
  crossoverProbability := 0.5
  mutationProbability := 0.5

/-- A thousand words, five of them over and over. -/
def supply : Supply Cycle :=
  ⟨Cycle.ofList [0, 0x123456789abcdef0, 0x8123456789abcdef, 0xfedcba9876543210,
    0x3333333333333333], 1000⟩

/-- The run after its only generation. -/
def finished : Option (Problem × Evolution Cycle) :=
  match Problem.read text with
  | .error _ => none
  | .ok problem =>
    match Evolution.start settings problem supply with
    | .error _ => none
    | .ok e =>
      match e.advance with
      | .error _ => none
      | .ok (_, e') => some (problem, e')

set_option maxRecDepth 10000 in
/-- The run makes its generation. -/
theorem isSome_finished : finished.isSome = true := by decide +kernel

/-- The run is reachable after its generation. -/
theorem reachable : ∃ problem e, Problem.read text = .ok problem ∧
    Evolution.Reachable settings problem supply e := by
  have h := isSome_finished
  unfold finished at h
  split at h
  · cases h
  · rename_i problem hread
    split at h
    · cases h
    · rename_i e hstart
      split at h
      · cases h
      · rename_i e' hadvance
        exact ⟨problem, e', hread, .rested (.advance (.start hstart) hadvance)⟩

end Sample

end SymbolicRegression
