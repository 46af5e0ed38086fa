import SymbolicRegression.Proofs.Evolution.Reporting

set_option autoImplicit false
set_option relaxedAutoImplicit false

/-!
# Taking a run up again

A run that a reporter has stopped can be taken up again from the state that it has reached. The
generations that reporters take in all attempts together are a staircase: they start at zero, none
is left out, and one is given again at most where an attempt starts. What is reported of a
generation is what a run without reports would show at its end, and the result is that of a run
which was never stopped.

## Main definitions

* `SymbolicRegression.delivered` — the generations that a reporter has taken.
* `SymbolicRegression.Evolution.Climb` — the staircase.
* `SymbolicRegression.Evolution.Shows` — a report of a generation as it was at its end.
* `SymbolicRegression.Evolution.Interrupted` — attempts one after another, all of which failed.

## Main results

* `SymbolicRegression.Evolution.Ran.climb`, `SymbolicRegression.Evolution.Ran.shows` — what one
  attempt delivers.
* `SymbolicRegression.Evolution.run_of_takesAll` — a run that is never stopped.
* `SymbolicRegression.Evolution.runs_recover` — the outcomes of a run, and of attempts.
-/

namespace SymbolicRegression

/-! ## What is delivered -/

/-- The generation that a call delivers, with the text of its best program. -/
def ReporterCall.delivered? : ReporterCall → Option (GenerationRecord × String)
  | (.generation record text, .ok ()) => some (record, text)
  | _ => none

/-- The generations that a reporter has taken, with the texts of their best programs. -/
def delivered (calls : List ReporterCall) : List (GenerationRecord × String) :=
  calls.filterMap ReporterCall.delivered?

/-- The numbers of the generations that a reporter has taken. -/
def deliveredNumbers (calls : List ReporterCall) : List Nat :=
  (delivered calls).map fun d => d.1.generation

/-- Calls one after another deliver one after another. -/
theorem delivered_append (calls calls' : List ReporterCall) :
    delivered (calls ++ calls') = delivered calls ++ delivered calls' := List.filterMap_append

/-- Calls one after another deliver numbers one after another. -/
theorem deliveredNumbers_append (calls calls' : List ReporterCall) :
    deliveredNumbers (calls ++ calls') = deliveredNumbers calls ++ deliveredNumbers calls' := by
  rw [deliveredNumbers, delivered_append, List.map_append]
  rfl

/-- A generation that is taken is delivered. -/
theorem delivered_taken_cons (record : GenerationRecord) (text : String) (events : List Event) :
    delivered (taken (.generation record text :: events)) =
      (record, text) :: delivered (taken events) := rfl

namespace Evolution

variable {σ ω : Type} [WordSource σ]

/-! ## The staircase -/

/-- The numbers of the generations delivered so far, while the run stands at a generation: this one
may be delivered, also again, and the next one is only made after it has been. -/
inductive Climb : List Nat → Nat → Prop
  /-- Nothing has been delivered, and no generation has been made. -/
  | start : Climb [] 0
  /-- The generation is delivered. -/
  | deliver {ns : List Nat} {n : Nat} (h : Climb ns n) : Climb (ns ++ [n]) n
  /-- The next generation is made. -/
  | make {ns : List Nat} {n : Nat} (h : Climb ns n) (hlast : ns.getLast? = some n) :
      Climb ns (n + 1)

/-- **A staircase starts at zero and leaves no step out**, and it ends at the generation at which
the run stands or at the one before. -/
theorem Climb.isChain {ns : List Nat} {n : Nat} (h : Climb ns n) :
    ns.IsChain (fun a b => b = a ∨ b = a + 1) ∧ (ns = [] ∧ n = 0 ∨ ns.head? = some 0) ∧
      ∀ m ∈ ns.getLast?, n = m ∨ n = m + 1 := by
  induction h with
  | start => exact ⟨.nil, .inl ⟨rfl, rfl⟩, by simp⟩
  | @deliver ns n _ ih =>
    obtain ⟨hchain, hhead, hlast⟩ := ih
    refine ⟨hchain.append (.singleton n) ?_, .inr ?_, by simp⟩
    · intro m hm k hk
      obtain rfl : n = k := by simpa using hk
      exact hlast m hm
    · rcases hhead with ⟨rfl, rfl⟩ | hhead
      · rfl
      · rw [List.head?_append, hhead]
        rfl
  | @make ns n _ hlast ih =>
    obtain ⟨hchain, hhead, -⟩ := ih
    refine ⟨hchain, .inr ?_, ?_⟩
    · rcases hhead with ⟨rfl, -⟩ | hhead
      · cases hlast
      · exact hhead
    · intro m hm
      rw [hlast] at hm
      obtain rfl := Option.some.inj hm
      exact .inr rfl

/-- A staircase of which the last step has been delivered leads from zero to it. -/
theorem Climb.spans {ns : List Nat} {n : Nat} (h : Climb ns n) (hlast : ns.getLast? = some n) :
    ns.IsChain (fun a b => b = a ∨ b = a + 1) ∧ ns.head? = some 0 := by
  obtain ⟨hchain, hhead, -⟩ := h.isChain
  refine ⟨hchain, hhead.resolve_left ?_⟩
  rintro ⟨rfl, -⟩
  cases hlast

/-! ## What one attempt delivers -/

variable {reporter : Reporter ω} {e e' : Evolution σ} {answer : Except EvolutionError Result}
  {calls : List ReporterCall} {n : Nat}

/-- **What an attempt delivers**: nothing, and then it has not moved, or the last generation in the
history and those made after it. At most one more generation has been made, and none if the attempt
came to its end. -/
theorem Ran.delivered_eq (h : Ran reporter e answer calls n e') :
    (delivered calls = [] ∧ e' = e ∧ ∀ r, answer ≠ .ok r) ∨
      ∃ last events e₁, e.ReportsLast last ∧ Makes e events e₁ ∧
        delivered calls = delivered (taken (last :: events)) ∧
        (e'.generation = e₁.generation ∨
          e'.generation = e₁.generation + 1 ∧ ∀ r, answer ≠ .ok r) := by
  cases h with
  | beginRefused => exact .inl ⟨rfl, rfl, nofun⟩
  | lastRefused hlast =>
    obtain ⟨record, text, -, -, rfl⟩ := hlast
    exact .inl ⟨rfl, rfl, nofun⟩
  | @generationRefused last event events _ _ hlast hmakes =>
    obtain ⟨e₁, hmade, hone⟩ := hmakes.of_append
    cases hone with
    | next hadvance _ hdone =>
      cases hdone
      refine .inr ⟨last, events, e₁, hlast, hmade, ?_, .inr ⟨(of_advance_some hadvance).1, nofun⟩⟩
      rw [delivered_append]
      exact List.append_nil _
  | @starved last events _ _ hlast hmakes =>
    exact .inr ⟨last, events, e', hlast, hmakes, rfl, .inl rfl⟩
  | @finishRefused last events _ r e₁ _ hlast hmakes hadvance =>
    refine .inr ⟨last, events, e₁, hlast, hmakes, ?_, .inl ?_⟩
    · rw [delivered_append]
      exact List.append_nil _
    · rw [(of_advance_none hadvance).1]
  | @finished last events r e₁ _ hlast hmakes hadvance =>
    refine .inr ⟨last, events, e₁, hlast, hmakes, ?_, .inl ?_⟩
    · rw [← List.cons_append, ← List.cons_append, taken_append, delivered_append]
      exact List.append_nil _
    · rw [(of_advance_none hadvance).1]

/-- Generations that are made and delivered climb the staircase. -/
theorem Makes.climb {events : List Event} {ns : List Nat} (h : Makes e events e')
    (hns : Climb ns e.generation) (hlast : ns.getLast? = some e.generation) :
    Climb (ns ++ deliveredNumbers (taken events)) e'.generation ∧
      (ns ++ deliveredNumbers (taken events)).getLast? = some e'.generation := by
  induction h generalizing ns with
  | done => exact ⟨by simpa [deliveredNumbers, delivered, taken] using hns,
      by simpa [deliveredNumbers, delivered, taken] using hlast⟩
  | @next e e₁ e₂ record text events hadvance _ _ ih =>
    obtain ⟨hgeneration, -, rfl⟩ := of_advance_some hadvance
    have hmade := hns.make hlast
    rw [← hgeneration] at hmade
    have hrest := ih hmade.deliver (by simp)
    rw [List.append_assoc] at hrest
    exact hrest

/-- **An attempt climbs the staircase on**, and when it comes to its end the last generation has
been delivered. -/
theorem Ran.climb {settings : Settings} {ns : List Nat} (h : Ran reporter e answer calls n e')
    (horderly : e.Orderly settings) (hns : Climb ns e.generation) :
    Climb (ns ++ deliveredNumbers calls) e'.generation ∧
      ∀ r, answer = .ok r → (ns ++ deliveredNumbers calls).getLast? = some e'.generation := by
  rcases h.delivered_eq with ⟨hnone, rfl, hfailed⟩ | ⟨last, events, e₁, hlast, hmakes, heq, hlater⟩
  · rw [deliveredNumbers, hnone, List.map_nil, List.append_nil]
    exact ⟨hns, fun r hr => absurd hr (hfailed r)⟩
  · obtain ⟨record, text, hback, -, rfl⟩ := hlast
    obtain rfl := Option.some.inj (hback.symm.trans horderly.back_history)
    have hnumbers : ns ++ deliveredNumbers calls =
        (ns ++ [e.generation]) ++ deliveredNumbers (taken events) := by
      rw [deliveredNumbers, heq, delivered_taken_cons, List.append_assoc]
      rfl
    rw [hnumbers]
    obtain ⟨hclimb, htop⟩ := hmakes.climb hns.deliver (by simp)
    rcases hlater with hsame | ⟨hmore, hfailed⟩
    · rw [hsame]
      exact ⟨hclimb, fun _ _ => htop⟩
    · rw [hmore]
      exact ⟨hclimb.make htop, fun r hr => absurd hr (hfailed r)⟩

/-! ## What is shown of a generation -/

/-- The record and the text are those of a generation at its end: of the last entry in the history
then, and of the program that was in the best slot. -/
def Shows (e₀ : Evolution σ) (d : GenerationRecord × String) : Prop :=
  ∃ e, advances d.1.generation e₀ = .ok e ∧ e.generation = d.1.generation ∧
    e.history.back? = some d.1 ∧ e.formula e.best = .ok d.2

variable {settings : Settings} {problem : Problem} {supply : Supply σ} {text : String}

/-- **What a run reports of where it stands is what it shows at the end of the generation.** -/
theorem Rested.shows (hread : Problem.read text = .ok problem)
    (h : Rested settings problem supply e) {e₀ : Evolution σ}
    (hstart : Evolution.start settings problem supply = .ok e₀) {formula : String}
    (hformula : e.formula e.best = .ok formula) : Shows e₀ (e.currentRecord, formula) := by
  obtain ⟨e₁, events, s, hstart', hmakes, hlength, heq, -⟩ := h.exists_makes hread
  obtain rfl := Except.ok.inj (hstart.symm.trans hstart')
  have hcalls : Evolution.advances e.generation e₀ = .ok s := hlength ▸ hmakes.advances
  have hback := (h.orderly hread).back_history
  rw [heq] at hback hformula
  refine ⟨s, hcalls, ?_, ?_, hformula⟩
  · show s.generation = e.generation
    rw [heq]
  · rw [heq]
    exact hback

/-- What is taken of the generations that calls make is what they show at their ends. -/
theorem Makes.shows {events : List Event} (hread : Problem.read text = .ok problem)
    (h : Rested settings problem supply e) {e₀ : Evolution σ}
    (hstart : Evolution.start settings problem supply = .ok e₀) (hmakes : Makes e events e') :
    ∀ d ∈ delivered (taken events), Shows e₀ d := by
  induction hmakes with
  | done => exact nofun
  | next hadvance hformula _ ih =>
    obtain ⟨-, -, rfl⟩ := of_advance_some hadvance
    rw [delivered_taken_cons]
    exact List.forall_mem_cons.mpr
      ⟨(h.advance hadvance).shows hread hstart hformula, ih (h.advance hadvance)⟩

/-- **What an attempt delivers is what the generations show at their ends.** -/
theorem Ran.shows (hread : Problem.read text = .ok problem)
    (hrested : Rested settings problem supply e) {e₀ : Evolution σ}
    (hstart : Evolution.start settings problem supply = .ok e₀)
    (h : Ran reporter e answer calls n e') : ∀ d ∈ delivered calls, Shows e₀ d := by
  rcases h.delivered_eq with ⟨hnone, -, -⟩ | ⟨last, events, e₁, hlast, hmakes, heq, -⟩
  · rw [hnone]
    exact nofun
  · obtain ⟨record, formula, hback, hformula, rfl⟩ := hlast
    obtain rfl := Option.some.inj (hback.symm.trans (hrested.orderly hread).back_history)
    rw [heq, delivered_taken_cons]
    exact List.forall_mem_cons.mpr
      ⟨hrested.shows hread hstart hformula, hmakes.shows hread hrested hstart⟩

/-! ## The end of a run -/

/-- **What is shown of a generation stands in the history at the end.** -/
theorem Shows.getElem?_history (hread : Problem.read text = .ok problem) {e₀ final : Evolution σ}
    (hstart : Evolution.start settings problem supply = .ok e₀) {d : GenerationRecord × String}
    (h : Shows e₀ d) {m : Nat} (hcalls : Evolution.advances m e₀ = .ok final)
    (hfinal : final.phase.isFinal = true) : final.history[d.1.generation]? = some d.1 := by
  obtain ⟨s, hcalls', hgeneration, hback, -⟩ := h
  obtain ⟨k, hrest⟩ := exists_advances_of_isFinal hcalls hfinal hcalls'
  have horderly := ((Rested.start hstart).advances hcalls').orderly hread
  have hlast : s.history[d.1.generation]? = some d.1 := by
    rw [← hgeneration, horderly.getElem?_history, ← horderly.back_history, hback]
  exact getElem?_history_of_prefix (history_of_advances hrest) hlast

/-- **A run with reports that gives a result has come to the end that calls lead to.** -/
theorem run_of_eq_ok (hread : Problem.read text = .ok problem)
    (h : Rested settings problem supply e) {m : Nat} {final : Evolution σ} {r : Result}
    (hcalls : Evolution.advances m e = .ok final) (hfinal : final.phase.isFinal = true)
    (hresult : final.result = .ok r) {out : ω} {r' : Result}
    (hr' : (e.run reporter out).1 = .ok r') : r' = r ∧ (e.run reporter out).2.1 = final := by
  obtain ⟨n, hran⟩ := h.ran hread reporter out
  obtain ⟨hfinal', hresult'⟩ := hran.of_eq_ok hr'
  have hsame := eq_of_advances_isFinal hran.advances hcalls hfinal' hfinal
  rw [hsame] at hresult'
  exact ⟨Except.ok.inj (hresult'.symm.trans hresult), hsame⟩

/-- **A run that is never stopped comes to the end that calls lead to.** -/
theorem run_of_takesAll (hread : Problem.read text = .ok problem)
    (h : Rested settings problem supply e) {m : Nat} {final : Evolution σ} {r : Result}
    (hcalls : Evolution.advances m e = .ok final) (hfinal : final.phase.isFinal = true)
    (hresult : final.result = .ok r) (htakes : reporter.TakesAll) (out : ω) :
    (e.run reporter out).1 = .ok r ∧ (e.run reporter out).2.1 = final := by
  have hrefuses := htakes.not_refuses
  obtain ⟨n, hran⟩ := h.ran hread reporter out
  obtain ⟨r', hr'⟩ : ∃ r', (e.run reporter out).1 = .ok r' := by
    generalize (e.run reporter out).1 = answer, (e.run reporter out).2.1 = e',
      e.calls reporter out = calls at hran ⊢
    cases hran with
    | beginRefused hrefused => exact absurd hrefused (hrefuses _ _)
    | lastRefused _ hrefused => exact absurd hrefused (hrefuses _ _)
    | generationRefused _ _ hrefused => exact absurd hrefused (hrefuses _ _)
    | finishRefused _ _ _ _ hrefused => exact absurd hrefused (hrefuses _ _)
    | starved _ hmakes hadvance =>
      -- calls lead on to the end from wherever they have led, so the words did not run out
      obtain ⟨r, hanswer⟩ := exists_advance_of_isFinal hcalls hfinal hmakes.advances
      cases hanswer.symm.trans hadvance
    | finished => exact ⟨_, rfl⟩
  obtain ⟨rfl, hend⟩ := run_of_eq_ok hread h hcalls hfinal hresult hr'
  exact ⟨hr', hend⟩

/-! ## Attempts one after another -/

/-- Attempts to come to the end of a run, one after another, all of which have failed: the calls of
their reporters, and the state that they have led to. -/
inductive Interrupted (e₀ : Evolution σ) : List ReporterCall → Evolution σ → Prop
  /-- Nothing has been attempted. -/
  | none : Interrupted e₀ [] e₀
  /-- One more attempt, with a reporter of its own, has failed. -/
  | attempt {calls : List ReporterCall} {e : Evolution σ} {ω : Type} (h : Interrupted e₀ calls e)
      (reporter : Reporter ω) (out : ω) {error : EvolutionError}
      (herror : (e.run reporter out).1 = .error error) :
      Interrupted e₀ (calls ++ e.calls reporter out) (e.run reporter out).2.1

/-- **What attempts have delivered**: a staircase, of generations as they were at their ends.

**Proof sketch.** Induction on the attempts. Each starts between two calls, where the last entry in
the history is of the generation at which the run stands. -/
theorem Interrupted.climb (hread : Problem.read text = .ok problem) {e₀ : Evolution σ}
    (hstart : Evolution.start settings problem supply = .ok e₀) (h : Interrupted e₀ calls e) :
    Rested settings problem supply e ∧ Climb (deliveredNumbers calls) e.generation ∧
      ∀ d ∈ delivered calls, Shows e₀ d := by
  induction h with
  | none =>
    obtain ⟨bindings, population, supply', rfl⟩ := exists_start_eq hstart
    exact ⟨.start hstart, .start, nofun⟩
  | @attempt calls e ω _ reporter out _ _ ih =>
    obtain ⟨hrested, hclimb, hshows⟩ := ih
    obtain ⟨n, hran⟩ := hrested.ran hread reporter out
    refine ⟨hrested.run reporter out, ?_, ?_⟩
    · rw [deliveredNumbers_append]
      exact (hran.climb (hrested.orderly hread) hclimb).1
    · rw [delivered_append]
      exact List.forall_mem_append.mpr ⟨hshows, hran.shows hread hrested hstart⟩

/-! ## The outcomes of runs and of attempts -/

/-- **Reports and recovery.** A run between two calls has one of the outcomes: its reporter is
called for the beginning, the last generation in the history, each generation made and the result,
in this order and up to the first call that fails, and the run stops in the state that as many
calls of its own would have led to. Other than at a call that fails it can only stop for want of
words.

If attempts on a new run fail and then one succeeds, the generations that have been delivered in all
of them start at zero, leave no number out and end at the last one; each of them is the entry in the
history of the result and the program that was in the best slot at the end of the generation; and
whoever runs the new run to its end in one attempt gets the same result, as every reporter does that
takes all events. -/
theorem runs_recover (hread : Problem.read text = .ok problem) :
    (∀ (e : Evolution σ) (ω : Type) (reporter : Reporter ω) (out : ω),
      Rested settings problem supply e → ∃ n,
        e.run reporter.noting (out, []) = ((e.run reporter out).1, (e.run reporter out).2.1,
          (e.run reporter out).2.2, e.calls reporter out) ∧
        Ran reporter e (e.run reporter out).1 (e.calls reporter out) n (e.run reporter out).2.1 ∧
        Evolution.advances n e = .ok (e.run reporter out).2.1 ∧
        ∀ fault, (e.run reporter out).1 = .error (.fault fault) → fault = .supplyExhausted) ∧
      ∀ (e₀ e : Evolution σ) (calls : List ReporterCall) (ω : Type) (reporter : Reporter ω)
        (out : ω) (r : Result), Evolution.start settings problem supply = .ok e₀ →
        Interrupted e₀ calls e → (e.run reporter out).1 = .ok r →
        ((deliveredNumbers (calls ++ e.calls reporter out)).IsChain (fun a b => b = a ∨ b = a + 1) ∧
          (deliveredNumbers (calls ++ e.calls reporter out)).head? = some 0 ∧
          (deliveredNumbers (calls ++ e.calls reporter out)).getLast? = some r.generations) ∧
        (∀ d ∈ delivered (calls ++ e.calls reporter out),
          r.history[d.1.generation]? = some d.1 ∧ Shows e₀ d) ∧
        ∀ (ω' : Type) (reporter' : Reporter ω') (out' : ω'),
          (∀ r', (e₀.run reporter' out').1 = .ok r' → r' = r) ∧
          (reporter'.TakesAll → (e₀.run reporter' out').1 = .ok r ∧
            (e₀.run reporter' out').2.1 = (e.run reporter out).2.1) := by
  refine ⟨?_, ?_⟩
  · intro e ω reporter out h
    obtain ⟨n, hran⟩ := h.ran hread reporter out
    exact ⟨n, run_noting e reporter out, hran, hran.advances,
      fun fault hfault => hran.eq_supplyExhausted hread h hfault⟩
  · intro e₀ e calls ω reporter out r hstart hinterrupted hr
    obtain ⟨hrested, hclimb, hshows⟩ := hinterrupted.climb hread hstart
    obtain ⟨n, hran⟩ := hrested.ran hread reporter out
    obtain ⟨hfinal, hresult⟩ := hran.of_eq_ok hr
    have hend := hrested.advances hran.advances
    obtain ⟨r₁, hr₁, -, hgenerations, hhistory⟩ := (hend.orderly hread).result_of_isFinal
      (hend.sound hread) hfinal
    obtain rfl := Except.ok.inj (hr₁.symm.trans hresult)
    obtain ⟨e₁, m, hstart', hcalls⟩ := hend.exists_advances
    obtain rfl := Except.ok.inj (hstart.symm.trans hstart')
    refine ⟨?_, ?_, ?_⟩
    · obtain ⟨hclimb, hlast⟩ := hran.climb (hrested.orderly hread) hclimb
      obtain ⟨hchain, hhead⟩ := hclimb.spans (hlast _ hr)
      rw [deliveredNumbers_append, hgenerations]
      exact ⟨hchain, hhead, hlast _ hr⟩
    · intro d hd
      rw [delivered_append] at hd
      have hd' : Shows e₀ d := (List.mem_append.mp hd).elim (hshows d)
        (hran.shows hread hrested hstart d)
      rw [hhistory]
      exact ⟨hd'.getElem?_history hread hstart hcalls hfinal, hd'⟩
    · intro ω' reporter' out'
      exact ⟨fun r' hr' => (run_of_eq_ok hread (.start hstart) hcalls hfinal hresult hr').1,
        fun htakes => run_of_takesAll hread (.start hstart) hcalls hfinal hresult htakes out'⟩

end Evolution

namespace Sample

/-- A reporter that takes a number of events and refuses those after them. -/
def limited : Reporter Nat := fun _ left =>
  if left = 0 then (.error .limitReached, 0) else (.ok (), left - 1)

/-- A reporter that takes every event and forgets it. -/
def silent : Reporter Unit := fun _ _ => (.ok (), ())

end Sample

namespace Evolution

open Sample (limited silent)

set_option maxRecDepth 10000 in
/-- The result of the small run is refused, and the run is taken up again. -/
theorem runs_recover_sample : ∃ problem e₀ e r, Problem.read Sample.text = .ok problem ∧
    Evolution.start Sample.settings problem Sample.supply = .ok e₀ ∧
    Interrupted e₀ (e₀.calls limited 3) e ∧ (e.run limited 3).1 = .ok r ∧ r.generations = 1 ∧
    (deliveredNumbers (e₀.calls limited 3 ++ e.calls limited 3)).getLast? = some 1 ∧
    (e₀.run silent ()).1 = .ok r := by
  obtain ⟨problem, e₀, e₁, hread, hstart, hcalls, htest⟩ :=
    Sample.exists_called Sample.settings 0
      (fun e => match (e.run limited 3).1, ((e.run limited 3).2.1.run limited 3).1 with
        | .error _, .ok r => r.generations == 1
        | _, _ => false) (by decide +kernel)
  obtain rfl := Except.ok.inj hcalls
  split at htest
  · rename_i error r herror hr
    have hinterrupted := Interrupted.none.attempt limited 3 herror
    rw [List.nil_append] at hinterrupted
    have hgenerations : r.generations = 1 := by simpa using htest
    obtain ⟨⟨-, -, hlast⟩, -, hsame⟩ := (runs_recover hread).2 _ _ _ _ limited 3 r hstart
      hinterrupted hr
    rw [hgenerations] at hlast
    exact ⟨problem, e₀, _, r, hread, hstart, hinterrupted, hr, hgenerations, hlast,
      ((hsame _ silent ()).2 fun _ _ => rfl).1⟩
  · cases htest

end Evolution

end SymbolicRegression
