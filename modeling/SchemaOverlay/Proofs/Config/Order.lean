import SchemaOverlay.Proofs.Config.Entries
import SchemaOverlay.Proofs.Config.Projects

/-!
The order of a configuration. Its jobs come project after project as the file has them, and within a
project as they are listed there. An entry that lacks a part is counted within its own project, and the
first one in that order is the one that is told of.
-/
namespace SchemaOverlay

open World

namespace JobEntry

structure Asks (files : FileSystem) (base : Path) (entry : JobEntry) (job : Job) : Prop where
  output : entry.output.map (fun text => base.join ⟨text⟩) = some job.output
  overrides : entry.overrides.map (Config.inputAt files base) = some job.overrides
  schema : entry.schema.map (Config.inputAt files base) = some job.schema

theorem jobAt_eq_some_iff_asks {files : FileSystem} {base : Path} {entry : JobEntry} {job : Job} :
    entry.jobAt files base = some job ↔ entry.Asks files base job := by
  rw [jobAt_eq_some_iff]
  constructor
  · rintro ⟨output, overrides, schema, rfl, rfl⟩
    exact ⟨rfl, rfl, rfl⟩
  · intro asks
    obtain ⟨output, hasOutput, placed⟩ := Option.map_eq_some_iff.mp asks.output
    obtain ⟨overrides, hasOverrides, edits⟩ := Option.map_eq_some_iff.mp asks.overrides
    obtain ⟨schema, hasSchema, base⟩ := Option.map_eq_some_iff.mp asks.schema
    refine ⟨output, overrides, schema, ?_, ?_⟩
    · rw [← hasOutput, ← hasOverrides, ← hasSchema]
    · rw [placed, edits, base]

end JobEntry

def Project.LacksAt (project : Project) (index : Nat) : Prop :=
  ∃ entries, project.jobs = some entries ∧ ∃ inside : index < entries.length,
    entries[index].isComplete = false ∧ ∀ j (before : j < index), entries[j].isComplete = true

theorem Project.lacksAt_iff {project : Project} {index : Nat} :
    project.LacksAt index ↔
      ((project.jobs.getD []).findIdx? fun entry => !entry.isComplete) = some index := by
  unfold LacksAt
  cases project.jobs with
  | none => simp
  | some entries =>
    rw [Option.getD_some, List.findIdx?_eq_some_iff_getElem]
    simp

namespace Config

/-- Of all entries, the first that lacks a part is at this index in the project of this name. -/
def LacksFirst (projects : List (Option String × Project)) (index : Nat) (name : Option String) :
    Prop :=
  ∃ earlier project later, projects = earlier ++ (name, project) :: later ∧
    (∀ entry ∈ entriesOf earlier, entry.isComplete = true) ∧ project.LacksAt index

theorem firstIncomplete_eq_some_iff {projects : List (Option String × Project)} {index : Nat}
    {name : Option String} :
    firstIncomplete projects = some (index, name) ↔ LacksFirst projects index name := by
  unfold LacksFirst
  rw [firstIncomplete, List.findSome?_eq_some_iff]
  constructor
  · rintro ⟨earlier, ⟨_, project⟩, later, split, lacks, complete⟩
    obtain ⟨_, found, ⟨rfl, rfl⟩⟩ := Option.map_eq_some_iff.mp lacks
    have before := firstIncomplete_eq_none_iff.mp (List.findSome?_eq_none_iff.mpr complete)
    exact ⟨earlier, project, later, split, before, Project.lacksAt_iff.mpr found⟩
  · rintro ⟨earlier, project, later, split, before, lacks⟩
    have complete := List.findSome?_eq_none_iff.mp (firstIncomplete_eq_none_iff.mpr before)
    refine ⟨earlier, (name, project), later, split, ?_, complete⟩
    rw [Project.lacksAt_iff.mp lacks]
    rfl

section Answers

variable {config : Config} {configPath : Path} {files : FileSystem}

theorem exists_answer_jobs_iff :
    (∃ jobs, answer (config.jobs configPath) files = .ok jobs) ↔
      ∀ entry ∈ config.entries, entry.isComplete = true := by
  constructor
  · rintro ⟨jobs, made⟩
    exact complete_of_answer_jobs made
  · intro complete
    exact ⟨_, answer_jobs_of_complete complete files configPath⟩

theorem answer_jobs_eq_ok_iff_asks {jobs : List Job} :
    answer (config.jobs configPath) files = .ok jobs ↔
      List.Forall₂ (JobEntry.Asks files (directoryOf configPath)) config.entries jobs := by
  rw [answer_jobs_eq_ok_iff, ← List.forall₂_eq_eq_eq, List.forall₂_map_left_iff,
    List.forall₂_map_right_iff]
  simp only [JobEntry.jobAt_eq_some_iff_asks]

theorem answer_jobs_eq_error_iff {e : ConfigError} :
    answer (config.jobs configPath) files = .error e ↔
      ∃ index name, LacksFirst config.effectiveProjects index name ∧
        e = .incompleteJob index name := by
  rw [answer_jobs]
  simp only [← firstIncomplete_eq_some_iff]
  cases firstIncomplete config.effectiveProjects with
  | none => simp
  | some found =>
    obtain ⟨index, name⟩ := found
    constructor
    · rintro ⟨⟩
      exact ⟨index, name, rfl, rfl⟩
    · rintro ⟨_, _, ⟨rfl, rfl⟩, rfl⟩
      rfl

end Answers

def placeOf : Option String → String
  | some name => s!"project `{name}`"
  | none => "the config"

theorem chain_incompleteJob (index : Nat) (name : Option String) :
    (ConfigError.incompleteJob index name).chain =
      [s!"Invalid override job #{index} in {placeOf name}",
        "`schema`, `overrides`, and `output` must all be provided for each override job"] := by
  cases name <;> rfl

/-- From a configuration to its jobs. The projects that count are those of the file, in its order. The
jobs can be made exactly if every entry of these projects has its parts. Then there is one job for each
entry, project after project and in each as they are listed. Otherwise there is none, and the error tells
of the first entry that lacks a part, by its index in its own project and by the name of that project. -/
theorem jobs_in_order (config : Config) (configPath : Path) (w : World) :
    let made := ((config.jobs configPath : StateM World _).run w).1
    (∀ text, parse text = .ok config → ∃ members, Json.parse? text = some (.object members) ∧
      InEffect members config.effectiveProjects) ∧
    ((∃ jobs, made = .ok jobs) ↔ ∀ entry ∈ config.entries, entry.isComplete = true) ∧
    (∀ jobs, made = .ok jobs ↔
      List.Forall₂ (JobEntry.Asks w.files (directoryOf configPath)) config.entries jobs) ∧
    ∀ e, made = .error e ↔ ∃ index name, LacksFirst config.effectiveProjects index name ∧
      e = .incompleteJob index name ∧
      e.chain = [s!"Invalid override job #{index} in {placeOf name}",
        "`schema`, `overrides`, and `output` must all be provided for each override job"] := by
  intro made
  have answers : made = answer (config.jobs configPath) w.files :=
    (onlyReads_jobs config configPath).answers w
  rw [answers]
  refine ⟨fun text read => inEffect_of_parse read, exists_answer_jobs_iff,
    fun jobs => answer_jobs_eq_ok_iff_asks, fun e => ?_⟩
  rw [answer_jobs_eq_error_iff]
  refine exists_congr fun index => exists_congr fun name => and_congr_right fun _ => ?_
  constructor
  · rintro rfl
    exact ⟨rfl, chain_incompleteJob index name⟩
  · exact And.left

/-- A file of three projects: `web` is written again at the end, `docs` lists no jobs, and the second job of
`api` lacks two parts. The incomplete job at the top level does not count. -/
def threeProjects : String :=
  "\x7b\"projects\":\x7b\"web\":\x7b\x7d,\"docs\":\x7b\x7d," ++
    "\"api\":\x7b\"extensions\":\x7b\"override\":[[\"a\",\"o\",\"s\"],\x7b\"schema\":\"s\"\x7d]\x7d\x7d," ++
    "\"web\":\x7b\"extensions\":\x7b\"override\":[[\"w\",\"o\",\"s\"]]\x7d\x7d\x7d," ++
    "\"extensions\":\x7b\"override\":[\x7b\x7d]\x7d\x7d"

def threeProjectsConfig (second : JobEntry) : Config :=
  let entry (output : String) : JobEntry := ⟨some output, some "o", some "s"⟩
  ⟨some ⟨[("web", ⟨some [entry "w"]⟩), ("docs", ⟨none⟩), ("api", ⟨some [entry "a", second]⟩)]⟩,
    ⟨some [⟨none, none, none⟩]⟩⟩

/-- The second job of `api` is told of; if it had its parts there would be three jobs, the one of `web`
before those of `api`. -/
theorem jobs_in_order_threeProjects :
    let w : World := ⟨⟨.directory .empty, []⟩, []⟩
    let lacking := threeProjectsConfig ⟨none, none, some "s"⟩
    let complete := threeProjectsConfig ⟨some "b", some "o", some "s"⟩
    let job (output : String) : Job := ⟨⟨output⟩, .sdl "o", .sdl "s"⟩
    parse threeProjects = .ok lacking ∧
    (∃ members, Json.parse? threeProjects = some (.object members) ∧
      InEffect members lacking.effectiveProjects) ∧
    ((lacking.jobs ⟨"cfg/.graphqlconfig"⟩ : StateM World _).run w).1 =
      .error (.incompleteJob 1 (some "api")) ∧
    ((complete.jobs ⟨"cfg/.graphqlconfig"⟩ : StateM World _).run w).1 =
      .ok [job "cfg/w", job "cfg/a", job "cfg/b"] := by
  intro w lacking complete job
  have read : parse threeProjects = .ok lacking := by decide +kernel
  obtain ⟨counts, -, -, failed⟩ := jobs_in_order lacking ⟨"cfg/.graphqlconfig"⟩ w
  obtain ⟨-, -, made, -⟩ := jobs_in_order complete ⟨"cfg/.graphqlconfig"⟩ w
  refine ⟨read, counts _ read, (failed _).mpr ?_, (made _).mpr ?_⟩
  · refine ⟨1, some "api", ⟨lacking.effectiveProjects.take 2, _, [], rfl, ?_, ?_⟩, rfl, ?_⟩
    · decide
    · exact ⟨_, rfl, by decide, rfl, by decide⟩
    · exact chain_incompleteJob 1 (some "api")
  · have base : directoryOf ⟨"cfg/.graphqlconfig"⟩ = ⟨"cfg"⟩ := by decide +kernel
    have edits : inputAt w.files ⟨"cfg"⟩ "o" = .sdl "o" :=
      Input.inputAt_eq_sdl (by decide +kernel) (by decide +kernel)
    have schema : inputAt w.files ⟨"cfg"⟩ "s" = .sdl "s" :=
      Input.inputAt_eq_sdl (by decide +kernel) (by decide +kernel)
    have asks : ∀ output, Path.join ⟨"cfg"⟩ ⟨output⟩ = ⟨"cfg/" ++ output⟩ →
        JobEntry.Asks w.files ⟨"cfg"⟩ ⟨some output, some "o", some "s"⟩ (job ("cfg/" ++ output)) :=
      fun output place => ⟨congrArg some place, congrArg some edits, congrArg some schema⟩
    rw [base]
    exact .cons (asks "w" (by decide +kernel)) (.cons (asks "a" (by decide +kernel))
      (.cons (asks "b" (by decide +kernel)) .nil))

end Config

end SchemaOverlay
