import SymbolicRegression.Proofs.Evolution.Lifecycle

set_option autoImplicit false
set_option relaxedAutoImplicit false

/-!
# What a run reports

A run hands its reporter an event for its beginning, one for the last generation in its history,
one for every generation that it makes, and one for its result, in this order. At the first event
that the reporter refuses it stops, in the state that as many calls would have led to.

The calls of a reporter are observed by a reporter that passes every event on and keeps a list;
nothing else can tell that it is there.

## Main definitions

* `SymbolicRegression.Reporter.noting` — a reporter that notes the calls made to it.
* `SymbolicRegression.Evolution.calls` — the calls that a run makes.
* `SymbolicRegression.Evolution.Makes` — generations made by calls, with the events for them.
* `SymbolicRegression.Evolution.Ran` — the outcomes of a run.

## Main results

* `SymbolicRegression.Evolution.run_noting` — noting the calls changes nothing else.
* `SymbolicRegression.Evolution.Rested.ran` — a run has one of the outcomes.
* `SymbolicRegression.Evolution.Ran.advances` — the state that it stops in.
* `SymbolicRegression.Evolution.Rested.exists_makes` — the generations that lead to a run.
-/

namespace SymbolicRegression

variable {σ ω α β : Type}

/-! ## Noting calls -/

/-- A call of a reporter: the event, and whether it was taken. -/
abbrev ReporterCall := Event × Except WriteError Unit

/-- A reporter with a list of the calls made to it. -/
def Reporter.noting (reporter : Reporter ω) : Reporter (ω × List ReporterCall) := fun event s =>
  ((reporter event s.1).1, (reporter event s.1).2, s.2 ++ [(event, (reporter event s.1).1)])

/-- A call that is noted. -/
theorem Reporter.noting_of_eq {reporter : Reporter ω} {event : Event} {out out' : ω}
    {answer : Except WriteError Unit} (h : reporter event out = (answer, out'))
    (before : List ReporterCall) :
    reporter.noting event (out, before) = (answer, out', before ++ [(event, answer)]) := by
  rw [noting, h]

/-- The reporter refuses an event, in some state of its own. -/
def Reporter.Refuses (reporter : Reporter ω) (event : Event) (error : WriteError) : Prop :=
  ∃ out, (reporter event out).1 = .error error

/-- A refused event. -/
theorem Reporter.refuses_of_eq {reporter : Reporter ω} {event : Event} {out out' : ω}
    {error : WriteError} (h : reporter event out = (.error error, out')) :
    reporter.Refuses event error :=
  ⟨out, by rw [h]⟩

/-- The reporter takes every event, in every state of its own. -/
def Reporter.TakesAll (reporter : Reporter ω) : Prop := ∀ event out, (reporter event out).1 = .ok ()

/-- A reporter that takes every event refuses none. -/
theorem Reporter.TakesAll.not_refuses {reporter : Reporter ω} (h : reporter.TakesAll)
    (event : Event) (error : WriteError) : ¬ reporter.Refuses event error := by
  rintro ⟨out, hrefused⟩
  cases (h event out).symm.trans hrefused

/-- Calls in which every event was taken. -/
def taken (events : List Event) : List ReporterCall := events.map fun event => (event, .ok ())

/-- Events are taken one after another. -/
theorem taken_append (events events' : List Event) :
    taken (events ++ events') = taken events ++ taken events' := List.map_append

namespace Running

/-! ## Running two computations in a row -/

/-- The second computation goes on where the first has answered. -/
theorem run_bind_of_ok {x : Running σ ω α} {f : α → Running σ ω β} {s s' : Evolution σ × ω} {a : α}
    (h : x.run.run s = (.ok a, s')) : (x >>= f).run.run s = (f a).run.run s' := by
  show (ExceptT.bindCont f (x.run.run s).1).run (x.run.run s).2 = _
  rw [h]
  rfl

/-- The second computation does not happen if the first fails. -/
theorem run_bind_of_error {x : Running σ ω α} {f : α → Running σ ω β} {s s' : Evolution σ × ω}
    {error : EvolutionError} (h : x.run.run s = (.error error, s')) :
    (x >>= f).run.run s = (.error error, s') := by
  show (ExceptT.bindCont f (x.run.run s).1).run (x.run.run s).2 = _
  rw [h]
  rfl

/-- An answer is given at once. -/
theorem run_answer_of_ok {x : Except Fault α} {a : α} (h : x = .ok a) (s : Evolution σ × ω) :
    (answer x : Running σ ω α).run.run s = (.ok a, s) := by
  rw [h]
  rfl

/-- Looking at the run gives its state. -/
theorem run_evolution (e : Evolution σ) (out : ω) :
    (evolution : Running σ ω (Evolution σ)).run.run (e, out) = (.ok e, e, out) := rfl

/-- An event that the reporter takes. -/
theorem run_tell_of_ok {reporter : Reporter ω} {event : Event} {out out' : ω}
    (h : reporter event out = (.ok (), out')) (e : Evolution σ) :
    (tell reporter event : Running σ ω Unit).run.run (e, out) = (.ok (), e, out') := by
  rw [run_tell, h]
  rfl

/-- An event that the reporter refuses. -/
theorem run_tell_of_error {reporter : Reporter ω} {event : Event} {out out' : ω}
    {error : WriteError} (h : reporter event out = (.error error, out')) (e : Evolution σ) :
    (tell reporter event : Running σ ω Unit).run.run (e, out) =
      (.error (.write error), e, out') := by
  rw [run_tell, h]
  rfl

/-- Reporting a generation hands over its record with the text of the program in its best slot. -/
theorem run_tellGeneration (reporter : Reporter ω) {record : GenerationRecord} {text : String}
    {e : Evolution σ} (h : e.formula record.bestIndex = .ok text) (out : ω) :
    (tellGeneration reporter record : Running σ ω Unit).run.run (e, out) =
      (tell reporter (.generation record text) : Running σ ω Unit).run.run (e, out) := by
  rw [tellGeneration, run_bind_of_ok (run_evolution e out),
    run_bind_of_ok (run_answer_of_ok h (e, out))]

/-- A generation that the reporter takes. -/
theorem run_tellGeneration_of_ok {reporter : Reporter ω} {record : GenerationRecord}
    {text : String} {e : Evolution σ} {out out' : ω} (h : e.formula record.bestIndex = .ok text)
    (hanswer : reporter (.generation record text) out = (.ok (), out')) :
    (tellGeneration reporter record : Running σ ω Unit).run.run (e, out) = (.ok (), e, out') := by
  rw [run_tellGeneration reporter h, run_tell_of_ok hanswer]

/-- A generation that the reporter refuses. -/
theorem run_tellGeneration_of_error {reporter : Reporter ω} {record : GenerationRecord}
    {text : String} {e : Evolution σ} {out out' : ω} {error : WriteError}
    (h : e.formula record.bestIndex = .ok text)
    (hanswer : reporter (.generation record text) out = (.error error, out')) :
    (tellGeneration reporter record : Running σ ω Unit).run.run (e, out) =
      (.error (.write error), e, out') := by
  rw [run_tellGeneration reporter h, run_tell_of_error hanswer]

/-! ## Forgetting what has been noted -/

/-- The first computation is the second one without the list of calls. -/
def Forgets (x : Running σ ω α) (y : Running σ (ω × List ReporterCall) α) : Prop :=
  ∀ e out calls, x.run.run (e, out) =
    ((y.run.run (e, out, calls)).1, (y.run.run (e, out, calls)).2.1,
      (y.run.run (e, out, calls)).2.2.1)

/-- Computations that end at once. -/
lemma Forgets.pure (a : α) :
    Forgets (Pure.pure a : Running σ ω α) (Pure.pure a) :=
  fun _ _ _ => rfl

/-- Computations without a state. -/
lemma Forgets.answer (x : Except Fault α) :
    Forgets (Running.answer x : Running σ ω α) (Running.answer x) := by
  intro e out calls
  cases x <;> rfl

/-- Looking at the run. -/
lemma Forgets.evolution :
    Forgets (Running.evolution : Running σ ω (Evolution σ)) Running.evolution :=
  fun _ _ _ => rfl

/-- Two computations in a row. -/
lemma Forgets.bind {x : Running σ ω α} {y : Running σ (ω × List ReporterCall) α}
    {f : α → Running σ ω β} {g : α → Running σ (ω × List ReporterCall) β} (hxy : Forgets x y)
    (hfg : ∀ a, Forgets (f a) (g a)) : Forgets (x >>= f) (y >>= g) := by
  intro e out calls
  have hx := hxy e out calls
  rcases hy : y.run.run (e, out, calls) with ⟨answer, e', out', calls'⟩
  rw [hy] at hx
  cases answer with
  | ok a =>
    rw [run_bind_of_ok hx, run_bind_of_ok hy]
    exact hfg a e' out' calls'
  | error error => rw [run_bind_of_error hx, run_bind_of_error hy]

/-- Handing over an event. -/
lemma Forgets.tell (reporter : Reporter ω) (event : Event) :
    Forgets (Running.tell reporter event : Running σ ω Unit)
      (Running.tell reporter.noting event) := by
  intro e out calls
  rw [run_tell, run_tell]
  rfl

/-- Reporting a generation. -/
lemma Forgets.tellGeneration (reporter : Reporter ω) (record : GenerationRecord) :
    Forgets (Running.tellGeneration reporter record : Running σ ω Unit)
      (Running.tellGeneration reporter.noting record) :=
  Forgets.evolution.bind fun _ => (Forgets.answer _).bind fun _ => .tell _ _

variable [WordSource σ]

/-- Making a generation. -/
lemma Forgets.advance :
    Forgets (Running.advance : Running σ ω (Option GenerationRecord)) Running.advance := by
  intro e out calls
  rw [run_advance, run_advance]
  cases e.advance <;> rfl

/-- Making and reporting generations. -/
lemma Forgets.finishGenerations (reporter : Reporter ω) (budget : Nat) :
    Forgets (Running.finishGenerations reporter budget : Running σ ω Unit)
      (Running.finishGenerations reporter.noting budget) := by
  induction budget with
  | zero => exact .pure ()
  | succ budget ih =>
    refine Forgets.advance.bind ?_
    intro record
    cases record with
    | none => exact .pure ()
    | some record => exact (Forgets.tellGeneration reporter record).bind fun _ => ih

/-- Coming to the end. -/
lemma Forgets.conclude (reporter : Reporter ω) (e : Evolution σ) :
    Forgets (Running.conclude reporter e : Running σ ω Result)
      (Running.conclude reporter.noting e) :=
  (Forgets.finishGenerations reporter _).bind fun _ =>
    Forgets.evolution.bind fun _ => (Forgets.answer _).bind fun _ =>
      (Forgets.tell reporter _).bind fun _ => .pure _

/-- Running to the end. -/
lemma Forgets.toEnd (reporter : Reporter ω) :
    Forgets (Running.toEnd reporter : Running σ ω Result) (Running.toEnd reporter.noting) := by
  refine Forgets.evolution.bind fun e => (Forgets.tell reporter _).bind fun _ => ?_
  split
  · exact (Forgets.tellGeneration reporter _).bind fun _ => .conclude reporter e
  · exact .conclude reporter e

end Running

namespace Evolution

variable [WordSource σ]

/-- The calls that a run makes. -/
def calls (e : Evolution σ) (reporter : Reporter ω) (out : ω) : List ReporterCall :=
  (e.run reporter.noting (out, [])).2.2.2

/-- **Noting the calls changes nothing else.** -/
theorem run_noting (e : Evolution σ) (reporter : Reporter ω) (out : ω) :
    e.run reporter.noting (out, []) = ((e.run reporter out).1, (e.run reporter out).2.1,
      (e.run reporter out).2.2, e.calls reporter out) := by
  have hforget : e.run reporter out = _ := Running.Forgets.toEnd reporter e out []
  rw [hforget]
  rfl

/-! ## Generations one after another -/

/-- Generations made by calls, one after another, with the events that report them: each with the
text of the program that is in its best slot after the call. -/
inductive Makes : Evolution σ → List Event → Evolution σ → Prop
  /-- No call is made. -/
  | done {e : Evolution σ} : Makes e [] e
  /-- A call makes a generation, and more follow. -/
  | next {e e₁ e₂ : Evolution σ} {record : GenerationRecord} {text : String} {events : List Event}
      (hadvance : e.advance = .ok (some record, e₁))
      (hformula : e₁.formula record.bestIndex = .ok text) (hrest : Makes e₁ events e₂) :
      Makes e (.generation record text :: events) e₂

/-- Generations are made one after another. -/
theorem Makes.append {e e₁ e' : Evolution σ} {events events' : List Event}
    (h : Makes e events e₁) (h' : Makes e₁ events' e') : Makes e (events ++ events') e' := by
  induction h with
  | done => exact h'
  | next hadvance hformula _ ih => exact (ih h').next hadvance hformula

/-- Each generation that is made is counted. -/
theorem Makes.generation_eq {e e' : Evolution σ} {events : List Event} (h : Makes e events e') :
    e'.generation = e.generation + events.length := by
  induction h with
  | done => rfl
  | next hadvance _ _ ih =>
    rw [ih, (of_advance_some hadvance).1, List.length_cons]
    omega

/-- Generations that are made before others can be told from them. -/
theorem Makes.of_append {e e' : Evolution σ} {events events' : List Event}
    (h : Makes e (events ++ events') e') : ∃ e₁, Makes e events e₁ ∧ Makes e₁ events' e' := by
  induction events generalizing e with
  | nil => exact ⟨e, .done, h⟩
  | cons event events ih =>
    cases h with
    | next hadvance hformula hrest =>
      obtain ⟨e₁, hfirst, hlast⟩ := ih hrest
      exact ⟨e₁, hfirst.next hadvance hformula, hlast⟩

/-- Calls that make generations lead to the state after them. -/
theorem Makes.advances {e e' : Evolution σ} {events : List Event} (h : Makes e events e') :
    Evolution.advances events.length e = .ok e' := by
  induction h with
  | done => rfl
  | next hadvance _ _ ih => rw [List.length_cons, advances_succ hadvance, ih]

/-- Calls that make generations and one that makes none lead to the state after them. -/
theorem Makes.advances_none {e e₁ e' : Evolution σ} {events : List Event} (h : Makes e events e₁)
    (hadvance : e₁.advance = .ok (none, e')) :
    Evolution.advances (events.length + 1) e = .ok e' := by
  rw [advances_add_of_eq_ok h.advances, advances_one hadvance]

/-! ## The outcomes of a run -/

/-- What comes of making and reporting generations: the answer, the calls of the reporter, and the
number of calls that have led to the state in which it stops. -/
inductive Reported (reporter : Reporter ω) (e : Evolution σ) :
    Except EvolutionError Unit → List ReporterCall → Nat → Evolution σ → Prop
  /-- A call makes no generation. -/
  | ended {e₁ e₂ : Evolution σ} {events : List Event} (hmakes : Makes e events e₁)
      (hadvance : e₁.advance = .ok (none, e₂)) :
      Reported reporter e (.ok ()) (taken events) (events.length + 1) e₂
  /-- A call has no answer. -/
  | starved {e₁ : Evolution σ} {events : List Event} {fault : Fault} (hmakes : Makes e events e₁)
      (hadvance : e₁.advance = .error fault) :
      Reported reporter e (.error (.fault fault)) (taken events) events.length e₁
  /-- The last generation that has been made is refused. -/
  | refused {e₁ : Evolution σ} {events : List Event} {event : Event} {error : WriteError}
      (hmakes : Makes e (events ++ [event]) e₁) (hrefuses : reporter.Refuses event error) :
      Reported reporter e (.error (.write error)) (taken events ++ [(event, .error error)])
        (events.length + 1) e₁

/-- A generation that is made and taken stands before what follows. -/
theorem Reported.next {reporter : Reporter ω} {e e₁ e₂ : Evolution σ} {record : GenerationRecord}
    {text : String} {answer : Except EvolutionError Unit} {calls : List ReporterCall} {n : Nat}
    (hadvance : e.advance = .ok (some record, e₁))
    (hformula : e₁.formula record.bestIndex = .ok text)
    (h : Reported reporter e₁ answer calls n e₂) :
    Reported reporter e answer ((.generation record text, .ok ()) :: calls) (n + 1) e₂ := by
  cases h with
  | ended hmakes hend => exact .ended (hmakes.next hadvance hformula) hend
  | starved hmakes hfault => exact .starved (hmakes.next hadvance hformula) hfault
  | @refused _ events event _ hmakes hrefuses =>
    have hmore : Makes e ((.generation record text :: events) ++ [event]) e₂ :=
      hmakes.next hadvance hformula
    exact .refused hmore hrefuses

/-- The event that reports the last generation in the history, with the text of the program in its
best slot. -/
def ReportsLast (e : Evolution σ) (event : Event) : Prop :=
  ∃ record text, e.history.back? = some record ∧ e.formula record.bestIndex = .ok text ∧
    event = .generation record text

/-- The outcomes of a run: its answer, the calls of the reporter, and the number of calls that have
led to the state in which it stops. -/
inductive Ran (reporter : Reporter ω) (e : Evolution σ) :
    Except EvolutionError Result → List ReporterCall → Nat → Evolution σ → Prop
  /-- The beginning is refused. -/
  | beginRefused {error : WriteError}
      (hrefuses : reporter.Refuses (.begin e.settings e.problem) error) :
      Ran reporter e (.error (.write error)) [(.begin e.settings e.problem, .error error)] 0 e
  /-- The last generation in the history is refused. -/
  | lastRefused {last : Event} {error : WriteError} (hlast : e.ReportsLast last)
      (hrefuses : reporter.Refuses last error) :
      Ran reporter e (.error (.write error))
        (taken [.begin e.settings e.problem] ++ [(last, .error error)]) 0 e
  /-- A generation that has just been made is refused. -/
  | generationRefused {last event : Event} {events : List Event} {error : WriteError}
      {e' : Evolution σ} (hlast : e.ReportsLast last) (hmakes : Makes e (events ++ [event]) e')
      (hrefuses : reporter.Refuses event error) :
      Ran reporter e (.error (.write error))
        (taken (.begin e.settings e.problem :: last :: events) ++ [(event, .error error)])
        (events.length + 1) e'
  /-- A call has no answer. -/
  | starved {last : Event} {events : List Event} {fault : Fault} {e' : Evolution σ}
      (hlast : e.ReportsLast last) (hmakes : Makes e events e')
      (hadvance : e'.advance = .error fault) :
      Ran reporter e (.error (.fault fault)) (taken (.begin e.settings e.problem :: last :: events))
        events.length e'
  /-- The result is refused. -/
  | finishRefused {last : Event} {events : List Event} {error : WriteError} {r : Result}
      {e₁ e' : Evolution σ} (hlast : e.ReportsLast last) (hmakes : Makes e events e₁)
      (hadvance : e₁.advance = .ok (none, e')) (hresult : e'.result = .ok r)
      (hrefuses : reporter.Refuses r.event error) :
      Ran reporter e (.error (.write error))
        (taken (.begin e.settings e.problem :: last :: events) ++ [(r.event, .error error)])
        (events.length + 1) e'
  /-- Everything is taken. -/
  | finished {last : Event} {events : List Event} {r : Result} {e₁ e' : Evolution σ}
      (hlast : e.ReportsLast last) (hmakes : Makes e events e₁)
      (hadvance : e₁.advance = .ok (none, e')) (hresult : e'.result = .ok r) :
      Ran reporter e (.ok r) (taken (.begin e.settings e.problem :: last :: (events ++ [r.event])))
        (events.length + 1) e'

/-- **A run stops in the state that as many calls would have led to.** -/
theorem Ran.advances {reporter : Reporter ω} {e e' : Evolution σ}
    {answer : Except EvolutionError Result} {calls : List ReporterCall} {n : Nat}
    (h : Ran reporter e answer calls n e') :
    Evolution.advances n e = .ok e' := by
  cases h with
  | beginRefused => rfl
  | lastRefused => rfl
  | generationRefused _ hmakes =>
    rw [← hmakes.advances, List.length_append]
    rfl
  | starved _ hmakes => exact hmakes.advances
  | finishRefused _ hmakes hadvance => exact hmakes.advances_none hadvance
  | finished _ hmakes hadvance => exact hmakes.advances_none hadvance

/-- A run with reports that gives a result has come to its end, and the result is that of the
state in which it stops. -/
theorem Ran.of_eq_ok {reporter : Reporter ω} {e e' : Evolution σ}
    {answer : Except EvolutionError Result} {calls : List ReporterCall} {n : Nat} {r : Result}
    (h : Ran reporter e answer calls n e') (hanswer : answer = .ok r) :
    e'.phase.isFinal = true ∧ e'.result = .ok r := by
  cases h with
  | finished _ _ hadvance hresult =>
    obtain rfl := Except.ok.inj hanswer
    exact ⟨(of_advance_none hadvance).2, hresult⟩
  | _ => cases hanswer

variable {settings : Settings} {problem : Problem} {supply : Supply σ} {text : String}

/-- A run with reports that has no answer of its own lacks words. -/
theorem Ran.eq_supplyExhausted (hread : Problem.read text = .ok problem) {reporter : Reporter ω}
    {e e' : Evolution σ} {answer : Except EvolutionError Result} {calls : List ReporterCall}
    {n : Nat} (hrested : Rested settings problem supply e) (h : Ran reporter e answer calls n e')
    {fault : Fault} (hanswer : answer = .error (.fault fault)) : fault = .supplyExhausted := by
  have hend := hrested.advances h.advances
  cases h with
  | starved _ _ hadvance =>
    cases hanswer
    obtain ⟨haccepted, hsound⟩ := Reachable.sound hread (.rested hend)
    exact (hsound.advance haccepted).of_eq_error hadvance
  | _ => cases hanswer

/-! ## Every run has one of the outcomes -/

/-- Making and reporting generations has one of the outcomes, if it may go on to the end.

**Proof sketch.** Induction on the number of calls that may be made. A call that makes a generation
gives the record of the population as it stands, so the program in its best slot has a text; the
event is refused, or it is taken and the rest follows. -/
theorem Rested.reported (hread : Problem.read text = .ok problem) (reporter : Reporter ω)
    {budget : Nat} {e : Evolution σ} (h : Rested settings problem supply e)
    (hbudget : settings.generations < e.generation + budget) (out : ω)
    (before : List ReporterCall) : ∃ answer calls n e' out',
      (Running.finishGenerations reporter.noting budget).run.run (e, out, before) =
        (answer, e', out', before ++ calls) ∧ Reported reporter e answer calls n e' := by
  induction budget generalizing e out before with
  | zero =>
    have hle := (h.orderly hread).generation_le
    omega
  | succ budget ih =>
    have hcall := Running.run_advance e (out, before)
    rw [Running.finishGenerations]
    cases hadvance : e.advance with
    | error fault =>
      rw [hadvance] at hcall
      rw [Running.run_bind_of_error hcall]
      exact ⟨_, [], 0, e, out, by rw [List.append_nil], .starved .done hadvance⟩
    | ok r =>
      obtain ⟨record, e₁⟩ := r
      rw [hadvance] at hcall
      rw [Running.run_bind_of_ok hcall]
      cases record with
      | none => exact ⟨_, [], 1, e₁, out, by rw [List.append_nil]; rfl, .ended .done hadvance⟩
      | some record =>
        have h₁ := h.advance hadvance
        obtain ⟨hgeneration, -, rfl⟩ := of_advance_some hadvance
        obtain ⟨formula, hformula⟩ : ∃ formula,
            e₁.formula e₁.currentRecord.bestIndex = .ok formula :=
          (h₁.sound hread).exists_formula
        rcases hanswer : reporter (.generation e₁.currentRecord formula) out with ⟨answer, out₁⟩
        have hnoted := Reporter.noting_of_eq hanswer before
        have hmakes := Makes.next hadvance hformula .done
        cases answer with
        | error error =>
          rw [Running.run_bind_of_error (Running.run_tellGeneration_of_error hformula hnoted)]
          have hrefused : Makes e ([] ++ [_]) e₁ := hmakes
          exact ⟨_, _, 1, e₁, out₁, rfl, .refused hrefused (Reporter.refuses_of_eq hanswer)⟩
        | ok =>
          rw [Running.run_bind_of_ok (Running.run_tellGeneration_of_ok hformula hnoted)]
          obtain ⟨answer, calls, n, e', out', hrun, hreported⟩ := ih h₁ (by omega) out₁ _
          refine ⟨answer, _, n + 1, e', out', ?_, hreported.next hadvance hformula⟩
          rw [hrun, List.append_assoc]
          rfl

/-- What comes after a run has reported where it stands. -/
theorem Rested.ran_conclude (hread : Problem.read text = .ok problem) (reporter : Reporter ω)
    {e : Evolution σ} (h : Rested settings problem supply e) {last : Event}
    (hlast : e.ReportsLast last) (out : ω) : ∃ answer calls n e' out',
      (Running.conclude reporter.noting e).run.run
        (e, out, taken [.begin e.settings e.problem, last]) = (answer, e', out', calls) ∧
      Ran reporter e answer calls n e' := by
  have horderly := h.orderly hread
  have hsettings := (h.sound hread).settings_eq
  have hbudget : settings.generations <
      e.generation + (e.settings.generations - e.generation + 1) := by
    rw [hsettings]
    omega
  obtain ⟨answer, calls, n, e', out', hrun, hreported⟩ := h.reported hread reporter hbudget out
    (taken [.begin e.settings e.problem, last])
  rw [Running.conclude]
  cases hreported with
  | starved hmakes hadvance =>
    rw [Running.run_bind_of_error hrun]
    exact ⟨_, _, _, _, _, rfl, .starved hlast hmakes hadvance⟩
  | refused hmakes hrefuses =>
    rw [Running.run_bind_of_error hrun]
    exact ⟨_, _, _, e', out', rfl, Ran.generationRefused hlast hmakes hrefuses⟩
  | ended hmakes hadvance =>
    have h' := h.advances (hmakes.advances_none hadvance)
    obtain ⟨r, hr⟩ := (h'.sound hread).exists_result
    rw [Running.run_bind_of_ok hrun, Running.run_bind_of_ok (Running.run_evolution _ _),
      Running.run_bind_of_ok (Running.run_answer_of_ok hr _)]
    rcases hanswer : reporter r.event out' with ⟨answer, out₁⟩
    have hnoted := Reporter.noting_of_eq hanswer
    cases answer with
    | error error =>
      rw [Running.run_bind_of_error (Running.run_tell_of_error (hnoted _) e')]
      exact ⟨_, _, _, e', out₁, rfl,
        Ran.finishRefused hlast hmakes hadvance hr (Reporter.refuses_of_eq hanswer)⟩
    | ok =>
      rw [Running.run_bind_of_ok (Running.run_tell_of_ok (hnoted _) e')]
      have hran : Ran reporter e _ _ _ e' := .finished hlast hmakes hadvance hr
      rw [← List.cons_append, ← List.cons_append, taken_append] at hran
      exact ⟨_, _, _, e', out₁, rfl, hran⟩

/-- **A run has one of the outcomes.** -/
theorem Rested.ran (hread : Problem.read text = .ok problem) (reporter : Reporter ω)
    {e : Evolution σ} (h : Rested settings problem supply e) (out : ω) : ∃ n,
      Ran reporter e (e.run reporter out).1 (e.calls reporter out) n (e.run reporter out).2.1 := by
  have horderly := h.orderly hread
  obtain ⟨formula, hformula⟩ : ∃ formula,
      e.formula e.currentRecord.bestIndex = .ok formula := (h.sound hread).exists_formula
  have hlast : e.ReportsLast (.generation e.currentRecord formula) :=
    ⟨_, _, horderly.back_history, hformula, rfl⟩
  suffices hnoting : ∃ answer calls n e' out',
      e.run reporter.noting (out, []) = (answer, e', out', calls) ∧
        Ran reporter e answer calls n e' by
    obtain ⟨answer, calls, n, e', out', hrun, hran⟩ := hnoting
    rw [run_noting] at hrun
    simp only [Prod.mk.injEq] at hrun
    obtain ⟨rfl, rfl, -, rfl⟩ := hrun
    exact ⟨n, hran⟩
  have hrun : ∀ s, (Running.toEnd reporter.noting).run.run (e, s) =
      (do
        Running.tell reporter.noting (.begin e.settings e.problem)
        Running.tellGeneration reporter.noting e.currentRecord
        Running.conclude reporter.noting e : Running σ _ Result).run.run (e, s) := by
    intro s
    rw [Running.toEnd, Running.run_bind_of_ok (Running.run_evolution e s), horderly.back_history]
    rfl
  rw [Evolution.run]
  show ∃ answer calls n e' out', (Running.toEnd reporter.noting).run.run (e, out, []) = _ ∧ _
  rw [hrun]
  rcases hbegin : reporter (.begin e.settings e.problem) out with ⟨answer, out₁⟩
  have hnoted := Reporter.noting_of_eq hbegin []
  cases answer with
  | error error =>
    rw [Running.run_bind_of_error (Running.run_tell_of_error hnoted e)]
    exact ⟨_, _, _, e, out₁, rfl, Ran.beginRefused (Reporter.refuses_of_eq hbegin)⟩
  | ok =>
    rw [Running.run_bind_of_ok (Running.run_tell_of_ok hnoted e)]
    rcases hreport : reporter (.generation e.currentRecord formula) out₁ with ⟨answer, out₂⟩
    have hnoted := Reporter.noting_of_eq hreport
    cases answer with
    | error error =>
      rw [Running.run_bind_of_error (Running.run_tellGeneration_of_error hformula (hnoted _))]
      exact ⟨_, _, _, e, out₂, rfl, Ran.lastRefused hlast (Reporter.refuses_of_eq hreport)⟩
    | ok =>
      rw [Running.run_bind_of_ok (Running.run_tellGeneration_of_ok hformula (hnoted _))]
      exact h.ran_conclude hread reporter hlast out₂

/-! ## The generations that lead to a run -/

/-- **A run stands at the end of its last generation**: it has made one after another since its
start, up to the phase that a call which makes none sets. -/
theorem Rested.exists_makes (hread : Problem.read text = .ok problem) {e : Evolution σ}
    (h : Rested settings problem supply e) :
    ∃ e₀ events s, Evolution.start settings problem supply = .ok e₀ ∧ Makes e₀ events s ∧
      events.length = e.generation ∧ e = { s with phase := e.phase } ∧
      (e.phase.isFinal = false → s = e) := by
  refine h.rec_advance (P := fun e => ∃ e₀ events s,
    Evolution.start settings problem supply = .ok e₀ ∧ Makes e₀ events s ∧
      events.length = e.generation ∧ e = { s with phase := e.phase } ∧
      (e.phase.isFinal = false → s = e)) ?_ ?_
  · intro e hstart
    obtain ⟨bindings, population, supply', rfl⟩ := exists_start_eq hstart
    exact ⟨_, [], _, hstart, .done, rfl, rfl, fun _ => rfl⟩
  · rintro e record e' hrested ⟨e₀, events, s, hstart, hmakes, hlength, heq, hsame⟩ hadvance
    cases record with
    | none =>
      obtain ⟨hphase, hfinal⟩ := of_advance_none hadvance
      refine ⟨e₀, events, s, hstart, hmakes, ?_, ?_, fun hgoing => ?_⟩
      · rw [hphase]
        exact hlength
      · rw [hphase, heq]
      · rw [hfinal] at hgoing
        cases hgoing
    | some record =>
      -- a run that makes a generation has not ended, so nothing but generations has led to it
      have hgoing : e.phase.isFinal = false := by
        cases advance_cases hadvance
        assumption
      obtain rfl := hsame hgoing
      obtain ⟨hgeneration, -, rfl⟩ := of_advance_some hadvance
      obtain ⟨formula, hformula⟩ : ∃ formula,
          e'.formula e'.currentRecord.bestIndex = .ok formula :=
        ((hrested.advance hadvance).sound hread).exists_formula
      refine ⟨e₀, events ++ [.generation e'.currentRecord formula], e', hstart,
        hmakes.append (.next hadvance hformula .done), ?_, rfl, fun _ => rfl⟩
      rw [List.length_append, hlength, hgeneration]
      rfl

end Evolution

end SymbolicRegression
