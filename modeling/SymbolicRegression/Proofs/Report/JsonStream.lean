import SymbolicRegression.Proofs.Json.Reading
import SymbolicRegression.Proofs.Report.Written

set_option autoImplicit false
set_option relaxedAutoImplicit false

/-!
# The JSON stream

The stream that a run writes as JSON is one line for each event, and whoever reads the lines gets
back all that the events hold: numbers as they were, and null for what is not finite.

## Main definitions

* `SymbolicRegression.Settings.datum`, `SymbolicRegression.Event.datum` — what settings and events
  are read back as.

## Main results

* `SymbolicRegression.Event.exists_line` — an event is written as a line and read back.
* `SymbolicRegression.Evolution.jsonStream_decodes` — the stream of a whole run.
-/

namespace SymbolicRegression

open Json

/-- What settings are read back as. -/
def Settings.datum (s : Settings) : Datum :=
  .object [
    ("seed", .count s.seed.toNat),
    ("max_len", .count s.maxLength),
    ("population_size", .count s.populationSize),
    ("depth", .count s.depth),
    ("generations", .count s.generations),
    ("crossover_probability", .ofFloat s.crossoverProbability),
    ("selection", .object [("tournament_size", .count s.tournamentSize)]),
    ("mutation", .object [("per_node_probability", .ofFloat s.mutationProbability)]),
    ("elitism", .bool s.elitism),
    ("solved_threshold", .ofFloat s.solvedThreshold),
    ("parallel_evaluation", .bool s.parallelEvaluation)]

/-- What an event is read back as. -/
def Event.datum : Event → Datum
  | .begin settings problem =>
    .object [
      ("event", .text "begin"),
      ("config", settings.datum),
      ("var_count", .count problem.varCount),
      ("const_count", .count problem.constCount),
      ("min_random", .ofFloat problem.minRandom),
      ("max_random", .ofFloat problem.maxRandom),
      ("case_count", .count problem.cases.length)]
  | .generation record formula =>
    .object [
      ("event", .text "generation"),
      ("generation", .count record.generation),
      ("best_fitness", .ofFloat record.bestFitness),
      ("mean_fitness", .ofFloat record.meanFitness),
      ("worst_fitness", .ofFloat record.worstFitness),
      ("mean_size", .ofFloat record.meanSize),
      ("best_index", .count record.bestIndex),
      ("formula", .text formula)]
  | .finish outcome generations bestFitness formula =>
    .object [
      ("event", .text "finish"),
      ("outcome", .text outcome.name),
      ("generations", .count generations),
      ("best_fitness", .ofFloat bestFitness),
      ("formula", .text formula)]

/-- The object of an event has all that the event is read back as. -/
theorem Event.datum_toJson (event : Event) : event.toJson.datum = event.datum := by
  cases event <;> rfl

/-- **An event is written as a line and read back.** -/
theorem Event.exists_line (event : Event) : ∃ line : List Char,
    (ReportFormat.json.render event).toList = line ++ ['\n'] ∧ '\n' ∉ line ∧
      readWhole Json.datum (String.ofList line) = .ok event.datum := by
  refine ⟨event.toJson.render.toList, ?_, newline_notMem_render _, ?_⟩
  · rw [ReportFormat.render, String.toList_append]
    rfl
  · rw [String.ofList_toList, readWhole_render, event.datum_toJson]

/-- Events are written as lines and read back one after another. -/
theorem exists_lines (events : List Event) : ∃ lines : List (List Char),
    (events.flatMap fun event => (ReportFormat.json.render event).toList) =
        lines.flatMap (· ++ ['\n']) ∧
      (∀ line ∈ lines, '\n' ∉ line) ∧
      (lines.map fun line => readWhole Json.datum (String.ofList line)) =
        events.map fun event => .ok event.datum := by
  induction events with
  | nil => exact ⟨[], rfl, nofun, rfl⟩
  | cons event events ih =>
    obtain ⟨line, hrender, hnewline, hdatum⟩ := event.exists_line
    obtain ⟨lines, htext, hnewlines, hdata⟩ := ih
    refine ⟨line :: lines, ?_, List.forall_mem_cons.mpr ⟨hnewline, hnewlines⟩, ?_⟩
    · rw [List.flatMap_cons, List.flatMap_cons, hrender, htext]
    · rw [List.map_cons, List.map_cons, hdatum, hdata]

namespace Evolution

variable {σ : Type} [WordSource σ] {settings : Settings} {problem : Problem} {supply : Supply σ}
  {text : String} {e : Evolution σ}

/-- **The JSON stream of a whole run can be decoded and is complete.** A new run with a sink that
has no limit writes as many lines as its history has entries and two more, unless it lacks words:
each ends with a line end, has no other, and is read back as one object. These are the beginning
with the settings and the counts and bounds of the problem; every entry of the history in order, as
it was at the end of its generation and with the text of the program that was best then; and the
result. -/
theorem jsonStream_decodes (hread : Problem.read text = .ok problem)
    (hstart : Evolution.start settings problem supply = .ok e) :
    (e.run ReportFormat.json.reporter {}).1 = .error (.fault .supplyExhausted) ∨
      ∃ (r : Result) (shown : List (GenerationRecord × String)) (lines : List (List Char)),
        (e.run ReportFormat.json.reporter {}).1 = .ok r ∧
        (e.run ReportFormat.json.reporter {}).2.1.result = .ok r ∧
        shown.map Prod.fst = r.history.toList ∧ (∀ d ∈ shown, Shows e d) ∧
        (e.run ReportFormat.json.reporter {}).2.2.text.toList = lines.flatMap (· ++ ['\n']) ∧
        (∀ line ∈ lines, '\n' ∉ line) ∧ lines.length = r.history.size + 2 ∧
        (lines.map fun line => readWhole Json.datum (String.ofList line)) =
          (Event.begin settings problem ::
            ((shown.map fun d => .generation d.1 d.2) ++
              [.finish r.outcome r.generations r.bestFitness r.formula])).map
            fun event => .ok event.datum := by
  have hrested := Rested.start hstart
  have hlimit : ({} : Sink).limit = none := rfl
  rcases hrested.run_unlimited hread .json hlimit with hfault | ⟨r, hr⟩
  · exact .inl hfault
  · obtain ⟨shown, hhistory, hshows, -, hresult, -, hwritten⟩ :=
      exists_shown hread hstart .json hr
    obtain ⟨lines, htext, hnewlines, hdata⟩ :=
      exists_lines (.begin settings problem :: (shown.map shownEvent ++ [r.event]))
    rw [htext, String.toList_empty, List.nil_append] at hwritten
    refine .inr ⟨r, shown, lines, hr, hresult, hhistory, hshows, hwritten, hnewlines, ?_, hdata⟩
    have hlength := congrArg List.length hdata
    have hsize := congrArg List.length hhistory
    simp only [List.length_map, List.length_cons, List.length_append, List.length_nil,
      Array.length_toList] at hlength hsize
    omega

set_option maxRecDepth 10000 in
/-- The stream of the small run has four lines. -/
theorem jsonStream_decodes_sample : ∃ problem e, Problem.read Sample.text = .ok problem ∧
    Evolution.start Sample.settings problem Sample.supply = .ok e ∧
    ∃ (r : Result) (lines : List (List Char)),
      (e.run ReportFormat.json.reporter {}).1 = .ok r ∧
      (e.run ReportFormat.json.reporter {}).2.2.text.toList = lines.flatMap (· ++ ['\n']) ∧
      lines.length = 4 := by
  obtain ⟨problem, e₀, e, hread, hstart, hcalls, htest⟩ :=
    Sample.exists_called Sample.settings 0
      (fun e => (e.run ReportFormat.json.reporter {}).1.toOption.any fun r => r.history.size == 2)
      (by decide +kernel)
  obtain rfl := Except.ok.inj hcalls
  rcases jsonStream_decodes hread hstart with
    hfault | ⟨r, shown, lines, hr, -, -, -, htext, -, hlength, -⟩
  · rw [hfault] at htest
    cases htest
  · rw [hr] at htest
    have hsize : r.history.size = 2 := beq_iff_eq.mp htest
    exact ⟨problem, e₀, hread, hstart, r, lines, hr, htext, by rw [hlength, hsize]⟩

end Evolution

end SymbolicRegression
