import SymbolicRegression.Proofs.Evolution.Recovery
import SymbolicRegression.Report.Format

set_option autoImplicit false
set_option relaxedAutoImplicit false

/-!
# What a run writes

Nothing but its reports changes the state of a reporter during a run. So a sink holds at the end
what it held before and the pieces that it has taken, one after another. A sink without a limit
takes all pieces, and then nothing but the lack of words can stop the run. What a new run has
written when it gives a result is its beginning, every entry of its history, and the result.

## Main definitions

* `SymbolicRegression.Running.Leaves` — computations that keep a property of the reporter's state.
* `SymbolicRegression.Written` — the pieces that a sink has taken.

## Main results

* `SymbolicRegression.Evolution.run_leaves` — what reports keep, a run keeps.
* `SymbolicRegression.Evolution.written_run` — what a sink holds at the end of a run.
* `SymbolicRegression.Evolution.Rested.run_unlimited` — the outcomes of a run with a sink that has
  no limit.
* `SymbolicRegression.Evolution.exists_shown` — what a new run has written when it gives a result.
-/

namespace SymbolicRegression

variable {σ ω α β : Type}

namespace Running

/-! ## The state of a reporter -/

/-- The computation leads from a state of the reporter with the property `Q` to one with it,
whatever comes of it. -/
def Leaves (Q : ω → Prop) (x : Running σ ω α) : Prop :=
  ∀ e out, Q out → Q (x.run.run (e, out)).2.2

variable {Q : ω → Prop}

/-- An answer is no report. -/
lemma Leaves.pure (a : α) : Leaves Q (Pure.pure a : Running σ ω α) :=
  fun _ _ h => h

/-- A computation without a state reports nothing. -/
lemma Leaves.answer (x : Except Fault α) : Leaves Q (Running.answer x : Running σ ω α) := by
  intro e out h
  cases x <;> exact h

/-- Looking at the run reports nothing. -/
lemma Leaves.evolution : Leaves Q (Running.evolution : Running σ ω (Evolution σ)) :=
  fun _ _ h => h

/-- Two computations in a row keep what both keep. -/
lemma Leaves.bind {x : Running σ ω α} {f : α → Running σ ω β} (hx : Leaves Q x)
    (hf : ∀ a, Leaves Q (f a)) : Leaves Q (x >>= f) := by
  intro e out h
  have hfirst := hx e out h
  rcases hrun : x.run.run (e, out) with ⟨answer, e', out'⟩
  rw [hrun] at hfirst
  cases answer with
  | ok a =>
    rw [run_bind_of_ok hrun]
    exact hf a e' out' hfirst
  | error error =>
    rw [run_bind_of_error hrun]
    exact hfirst

variable {reporter : Reporter ω}

/-- A report keeps what the reporter keeps. -/
lemma Leaves.tell (hreport : ∀ event out, Q out → Q (reporter event out).2) (event : Event) :
    Leaves Q (Running.tell reporter event : Running σ ω Unit) := by
  intro e out h
  rw [run_tell]
  exact hreport event out h

/-- Reporting a generation keeps what the reporter keeps. -/
lemma Leaves.tellGeneration (hreport : ∀ event out, Q out → Q (reporter event out).2)
    (record : GenerationRecord) :
    Leaves Q (Running.tellGeneration reporter record : Running σ ω Unit) :=
  Leaves.evolution.bind fun _ => (Leaves.answer _).bind fun _ => .tell hreport _

variable [WordSource σ]

/-- Making a generation reports nothing. -/
lemma Leaves.advance :
    Leaves Q (Running.advance : Running σ ω (Option GenerationRecord)) := by
  intro e out h
  rw [run_advance]
  split <;> exact h

/-- Making and reporting generations keeps what the reporter keeps. -/
lemma Leaves.finishGenerations (hreport : ∀ event out, Q out → Q (reporter event out).2)
    (budget : Nat) : Leaves Q (Running.finishGenerations reporter budget : Running σ ω Unit) := by
  induction budget with
  | zero => exact .pure ()
  | succ budget ih =>
    refine Leaves.advance.bind ?_
    intro record
    cases record with
    | none => exact .pure ()
    | some record => exact (Leaves.tellGeneration hreport record).bind fun _ => ih

/-- Coming to the end keeps what the reporter keeps. -/
lemma Leaves.conclude (hreport : ∀ event out, Q out → Q (reporter event out).2)
    (e : Evolution σ) : Leaves Q (Running.conclude reporter e : Running σ ω Result) :=
  (Leaves.finishGenerations hreport _).bind fun _ =>
    Leaves.evolution.bind fun _ => (Leaves.answer _).bind fun _ =>
      (Leaves.tell hreport _).bind fun _ => .pure _

/-- Running to the end keeps what the reporter keeps. -/
lemma Leaves.toEnd (hreport : ∀ event out, Q out → Q (reporter event out).2) :
    Leaves Q (Running.toEnd reporter : Running σ ω Result) := by
  refine Leaves.evolution.bind fun e => (Leaves.tell hreport _).bind fun _ => ?_
  split
  · exact (Leaves.tellGeneration hreport _).bind fun _ => .conclude hreport e
  · exact .conclude hreport e

end Running

/-! ## Sinks -/

/-- What a call adds to a sink: the text of the event, if it was taken. -/
def ReporterCall.piece (format : ReportFormat) : ReporterCall → List Char
  | (event, .ok ()) => (format.render event).toList
  | (_, .error _) => []

/-- Events that are all taken add their texts. -/
theorem flatMap_piece_taken (format : ReportFormat) (events : List Event) :
    (taken events).flatMap (ReporterCall.piece format) =
      events.flatMap fun event => (format.render event).toList := by
  rw [taken, List.flatMap_map]
  rfl

/-- A call that is taken has no error. -/
lemma notMem_taken (events : List Event) (event : Event) (error : WriteError) :
    (event, Except.error error) ∉ taken events := by
  intro h
  obtain ⟨_, -, heq⟩ := List.mem_map.mp h
  cases (Prod.mk.inj heq).2

/-- A sink has been used for calls: it holds what it held before and the pieces that it has taken,
and without a limit it has taken all. -/
structure Written (format : ReportFormat) (before after : Sink) (calls : List ReporterCall) :
    Prop where
  /-- The limit stays. -/
  limit_eq : after.limit = before.limit
  /-- The pieces stand one after another. -/
  text_eq : after.text.toList = before.text.toList ++ calls.flatMap (ReporterCall.piece format)
  /-- Only a limit makes a sink refuse. -/
  taken_eq : before.limit = none → calls = taken (calls.map Prod.fst)

/-- Nothing has been written at first. -/
theorem written_nil (format : ReportFormat) (sink : Sink) : Written format sink sink [] :=
  ⟨rfl, (List.append_nil _).symm, fun _ => rfl⟩

/-- What a reporter does to its sink. -/
lemma ReportFormat.reporter_cases (format : ReportFormat) (event : Event) (sink : Sink) :
    format.reporter event sink = (.ok (), { sink with text := sink.text ++ format.render event }) ∨
      sink.limit ≠ none ∧ format.reporter event sink = (.error .limitReached, sink) := by
  have hwrite : ∀ piece, sink.write piece = (.ok (), { sink with text := sink.text ++ piece }) ∨
      sink.limit ≠ none ∧ sink.write piece = (.error .limitReached, sink) := by
    intro piece
    rw [Sink.write]
    split
    · exact .inl rfl
    · rename_i hrefused
      refine .inr ⟨fun hlimit => hrefused ?_, rfl⟩
      rw [Sink.admits, hlimit]
  cases format with
  | silent => exact .inl (by simp [ReportFormat.reporter, ReportFormat.render])
  | text => exact hwrite _
  | json => exact hwrite _

/-- **A report is written behind those before it, or refused.** -/
theorem Written.report {format : ReportFormat} {before sink : Sink} {calls : List ReporterCall}
    (h : Written format before sink calls) (event : Event) :
    Written format before (format.reporter event sink).2
      (calls ++ [(event, (format.reporter event sink).1)]) := by
  rcases format.reporter_cases event sink with heq | ⟨hlimit, heq⟩
  · rw [heq]
    refine ⟨h.limit_eq, ?_, fun hnone => ?_⟩
    · rw [String.toList_append, h.text_eq, List.flatMap_append, List.append_assoc]
      simp [ReporterCall.piece]
    · rw [List.map_append, taken_append, ← h.taken_eq hnone]
      rfl
  · rw [heq]
    refine ⟨h.limit_eq, ?_, fun hnone => absurd (h.limit_eq.trans hnone) hlimit⟩
    rw [h.text_eq, List.flatMap_append]
    simp [ReporterCall.piece]

namespace Evolution

variable [WordSource σ]

/-- **What reports keep, a run keeps.** -/
theorem run_leaves {Q : ω → Prop} {reporter : Reporter ω}
    (hreport : ∀ event out, Q out → Q (reporter event out).2) (e : Evolution σ) (out : ω)
    (hout : Q out) : Q (e.run reporter out).2.2 :=
  Running.Leaves.toEnd hreport e out hout

/-- **What a sink holds at the end of a run.** -/
theorem written_run (format : ReportFormat) (e : Evolution σ) (sink : Sink) :
    Written format sink (e.run format.reporter sink).2.2 (e.calls format.reporter sink) := by
  have hreport : ∀ event (s : Sink × List ReporterCall), Written format sink s.1 s.2 →
      Written format sink (format.reporter.noting event s).2.1
        (format.reporter.noting event s).2.2 :=
    fun event _ hs => hs.report event
  have h := run_leaves hreport e (sink, []) (written_nil format sink)
  rwa [run_noting] at h

variable {settings : Settings} {problem : Problem} {supply : Supply σ} {text : String}
  {reporter : Reporter ω} {e e' : Evolution σ}

/-- **A run with a sink that has no limit** gives a result, unless it lacks words. -/
theorem Rested.run_unlimited (hread : Problem.read text = .ok problem)
    (h : Rested settings problem supply e) (format : ReportFormat) {sink : Sink}
    (hlimit : sink.limit = none) :
    (e.run format.reporter sink).1 = .error (.fault .supplyExhausted) ∨
      ∃ r, (e.run format.reporter sink).1 = .ok r := by
  obtain ⟨n, hran⟩ := h.ran hread format.reporter sink
  have htaken := (written_run format e sink).taken_eq hlimit
  have hfault : ∀ fault, (e.run format.reporter sink).1 = .error (.fault fault) →
      fault = .supplyExhausted := fun _ => hran.eq_supplyExhausted hread h
  generalize (e.run format.reporter sink).1 = answer, (e.run format.reporter sink).2.1 = e',
    e.calls format.reporter sink = calls at hran htaken hfault ⊢
  have hnone : ∀ before event error, calls ≠ before ++ [(event, Except.error error)] := by
    intro before event error hcalls
    refine notMem_taken (calls.map Prod.fst) event error ?_
    rw [← htaken, hcalls]
    exact List.mem_append_right _ (List.mem_singleton.mpr rfl)
  cases hran with
  | beginRefused => exact absurd rfl (hnone [] _ _)
  | lastRefused => exact absurd rfl (hnone _ _ _)
  | generationRefused => exact absurd rfl (hnone _ _ _)
  | finishRefused => exact absurd rfl (hnone _ _ _)
  | starved => exact .inl (by rw [hfault _ rfl])
  | finished => exact .inr ⟨_, rfl⟩

/-! ## What a whole run shows -/

/-- The event that shows a generation with the text of its best program. -/
def shownEvent (d : GenerationRecord × String) : Event := .generation d.1 d.2

/-- What is shown of generations is delivered if it is taken. -/
theorem delivered_taken_shown (shown : List (GenerationRecord × String)) :
    delivered (taken (shown.map shownEvent)) = shown := by
  induction shown with
  | nil => rfl
  | cons d shown ih => rw [List.map_cons, shownEvent, delivered_taken_cons, ih]

/-- Nothing but the generations of a whole run is delivered. -/
theorem delivered_taken_whole (settings : Settings) (problem : Problem)
    (shown : List (GenerationRecord × String)) (r : Result) :
    delivered (taken (.begin settings problem :: (shown.map shownEvent ++ [r.event]))) = shown := by
  show delivered (taken (shown.map shownEvent ++ [r.event])) = shown
  rw [taken_append, delivered_append, delivered_taken_shown]
  exact List.append_nil shown

/-- A call that makes a generation adds its record to the history. -/
theorem history_of_advance_some {record : GenerationRecord}
    (h : e.advance = .ok (some record, e')) :
    e'.history.toList = e.history.toList ++ [record] := by
  cases advance_cases h with
  | made _ _ _ hsteps =>
    rw [Evolution.record, (steps_bookkeeping hsteps).2.2, Array.toList_push]

/-- **The generations that calls make are those that they add to the history**, and the last one is
shown with the text of the program in the best slot. -/
theorem Makes.exists_shown {events : List Event} (h : Makes e events e') :
    ∃ shown : List (GenerationRecord × String), events = shown.map shownEvent ∧
      e'.history.toList = e.history.toList ++ shown.map Prod.fst ∧
      ∀ d ∈ shown.getLast?, e'.formula e'.best = .ok d.2 := by
  induction h with
  | done => exact ⟨[], rfl, (List.append_nil _).symm, nofun⟩
  | @next e e₁ e₂ record formula events hadvance hformula hrest ih =>
    obtain ⟨shown, rfl, hhistory, hlast⟩ := ih
    refine ⟨(record, formula) :: shown, rfl, ?_, ?_⟩
    · rw [hhistory, history_of_advance_some hadvance, List.append_assoc]
      rfl
    · cases shown with
      | nil =>
        cases hrest
        obtain ⟨-, -, rfl⟩ := of_advance_some hadvance
        intro d hd
        obtain rfl := Option.some.inj hd
        exact hformula
      | cons d shown => exact hlast

/-- What a new run shows of its first generation and of those that calls make is its history, and
the last one is shown with the text of the program in the best slot. -/
theorem Makes.exists_shown_of_start (hstart : Evolution.start settings problem supply = .ok e)
    {last : Event} {events : List Event} (hlast : e.ReportsLast last) (h : Makes e events e') :
    ∃ shown : List (GenerationRecord × String), last :: events = shown.map shownEvent ∧
      shown.map Prod.fst = e'.history.toList ∧
      ∃ formula, e'.formula e'.best = .ok formula ∧
        shown.getLast?.map Prod.snd = some formula := by
  obtain ⟨bindings, population, supply', rfl⟩ := exists_start_eq hstart
  obtain ⟨record, formula, hback, hformula, rfl⟩ := hlast
  obtain rfl := Option.some.inj hback
  obtain ⟨shown, rfl, hhistory, htop⟩ := h.exists_shown
  refine ⟨(_, formula) :: shown, rfl, hhistory.symm, ?_⟩
  cases hshown : shown.getLast? with
  | none =>
    obtain rfl := List.getLast?_eq_none_iff.mp hshown
    cases h
    exact ⟨formula, hformula, rfl⟩
  | some d =>
    refine ⟨d.2, htop d hshown, ?_⟩
    rw [List.getLast?_cons, hshown]
    rfl

/-- A run that gives a result has had all its events taken. -/
theorem Ran.exists_makes_of_eq_ok {answer : Except EvolutionError Result}
    {calls : List ReporterCall} {n : Nat} {r : Result} (h : Ran reporter e answer calls n e')
    (hanswer : answer = .ok r) : ∃ last events e₁, e.ReportsLast last ∧ Makes e events e₁ ∧
      e₁.advance = .ok (none, e') ∧ e'.result = .ok r ∧
      calls = taken (.begin e.settings e.problem :: last :: (events ++ [r.event])) := by
  cases h with
  | finished hlast hmakes hadvance hresult =>
    obtain rfl := Except.ok.inj hanswer
    exact ⟨_, _, _, hlast, hmakes, hadvance, hresult, rfl⟩
  | _ => cases hanswer

omit [WordSource σ] in
/-- What a result says of the run: the text of the program in the best slot, the history, and
whether the best fitness has passed the threshold. -/
theorem of_result_eq_ok {r : Result} (h : e.result = .ok r) :
    e.formula e.best = .ok r.formula ∧ r.history = e.history ∧
      (r.outcome = .solved ↔ e.settings.solvedThreshold < r.bestFitness) := by
  simp only [Evolution.result, Evolution.isSolved, bind_eq_ok_iff] at h
  obtain ⟨solved, ⟨best, hbest, hsolved⟩, fitness, hfitness, _, -, formula, hformula, hr⟩ := h
  obtain rfl := Except.ok.inj hr
  obtain rfl := Except.ok.inj hsolved
  obtain rfl := Except.ok.inj (hbest.symm.trans hfitness)
  exact ⟨hformula, rfl, by simp⟩

/-- **What a new run has written when it gives a result**: its beginning, every entry of its history
as it was at the end of the generation, and the result, of which the text is the one shown last. -/
theorem exists_shown (hread : Problem.read text = .ok problem)
    (hstart : Evolution.start settings problem supply = .ok e) (format : ReportFormat)
    {sink : Sink} {r : Result} (hr : (e.run format.reporter sink).1 = .ok r) :
    ∃ shown : List (GenerationRecord × String),
      shown.map Prod.fst = r.history.toList ∧ (∀ d ∈ shown, Shows e d) ∧
      shown.getLast?.map Prod.snd = some r.formula ∧
      (e.run format.reporter sink).2.1.result = .ok r ∧
      (r.outcome = .solved ↔ settings.solvedThreshold < r.bestFitness) ∧
      (e.run format.reporter sink).2.2.text.toList = sink.text.toList ++
        (Event.begin settings problem :: (shown.map shownEvent ++ [r.event])).flatMap
          fun event => (format.render event).toList := by
  have hrested := Rested.start hstart
  have hsound := hrested.sound hread
  obtain ⟨n, hran⟩ := hrested.ran hread format.reporter sink
  have hshows := hran.shows hread hrested hstart
  have hwritten := (written_run format e sink).text_eq
  obtain ⟨last, events, e₁, hlast, hmakes, hadvance, hresult, hcalls⟩ :=
    hran.exists_makes_of_eq_ok hr
  obtain ⟨shown, hevents, hhistory, formula, hformula, htop⟩ :=
    hmakes.exists_shown_of_start hstart hlast
  -- the last call only changes the phase
  have hend := (hrested.advances (hmakes.advances_none hadvance)).sound hread
  obtain ⟨htext, hsame, houtcome⟩ := of_result_eq_ok hresult
  rw [hend.settings_eq] at houtcome
  rw [(of_advance_none hadvance).1] at htext hsame
  obtain rfl := Except.ok.inj (hformula.symm.trans htext)
  rw [← List.cons_append, hevents, hsound.settings_eq, hsound.problem_eq] at hcalls
  rw [hcalls, delivered_taken_whole] at hshows
  rw [hcalls, flatMap_piece_taken] at hwritten
  exact ⟨shown, hhistory.trans (congrArg Array.toList hsame.symm), hshows, htop, hresult, houtcome,
    hwritten⟩

end Evolution

end SymbolicRegression
