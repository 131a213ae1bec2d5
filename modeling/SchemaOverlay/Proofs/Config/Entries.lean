import SchemaOverlay.Proofs.Config.Inputs
import Mathlib.Data.List.Forall2

/-!
From the entries of a configuration to its jobs. Making jobs looks at the files and changes nothing:
either every entry has its parts and each gives the job it stands for, in order, or there is no job at
all and the first entry without its parts is named.
-/
namespace SchemaOverlay

open World

namespace JobEntry

def isComplete (entry : JobEntry) : Bool :=
  entry.schema.isSome && entry.overrides.isSome && entry.output.isSome

def texts (entry : JobEntry) : List String := entry.overrides.toList ++ entry.schema.toList

def jobAt (files : FileSystem) (base : Path) : JobEntry → Option Job
  | ⟨some output, some overrides, some schema⟩ =>
    some ⟨base.join ⟨output⟩, Config.inputAt files base overrides, Config.inputAt files base schema⟩
  | _ => none

variable {files files' : FileSystem} {base : Path}

theorem isSome_jobAt (files : FileSystem) (base : Path) (entry : JobEntry) :
    (entry.jobAt files base).isSome = entry.isComplete := by
  rcases entry with ⟨_ | _, _ | _, _ | _⟩ <;> rfl

theorem jobAt_eq_some_iff {entry : JobEntry} {job : Job} :
    entry.jobAt files base = some job ↔ ∃ output overrides schema,
      entry = ⟨some output, some overrides, some schema⟩ ∧
      job = ⟨base.join ⟨output⟩, Config.inputAt files base overrides,
        Config.inputAt files base schema⟩ := by
  constructor
  · intro made
    rcases entry with ⟨_ | output, _ | overrides, _ | schema⟩
    case some.some.some => exact ⟨output, overrides, schema, rfl, (Option.some.inj made).symm⟩
    all_goals cases made
  · rintro ⟨output, overrides, schema, rfl, rfl⟩
    rfl

theorem jobAt_congr {entry : JobEntry}
    (same : ∀ text ∈ entry.texts, Config.inputAt files' base text = Config.inputAt files base text) :
    entry.jobAt files' base = entry.jobAt files base := by
  rcases entry with ⟨_ | output, _ | overrides, _ | schema⟩
  case some.some.some =>
    rw [jobAt, jobAt, same overrides (by simp [texts]), same schema (by simp [texts])]
  all_goals rfl

end JobEntry

namespace Config

def entriesOf (projects : List (Option String × Project)) : List JobEntry :=
  projects.flatMap fun project => project.2.jobs.getD []

def entries (config : Config) : List JobEntry := entriesOf config.effectiveProjects

/-- The first entry without its parts: its place in its own project, and the name of the project. -/
def firstIncomplete (projects : List (Option String × Project)) : Option (Nat × Option String) :=
  projects.findSome? fun project =>
    ((project.2.jobs.getD []).findIdx? fun entry => !entry.isComplete).map fun i => (i, project.1)

theorem firstIncomplete_eq_none_iff {projects : List (Option String × Project)} :
    firstIncomplete projects = none ↔ ∀ entry ∈ entriesOf projects, entry.isComplete = true := by
  simp only [firstIncomplete, entriesOf, List.findSome?_eq_none_iff, Option.map_eq_none_iff,
    List.findIdx?_eq_none_iff, List.mem_flatMap, Bool.not_eq_false']
  exact ⟨fun all entry ⟨project, member, inside⟩ => all project member entry inside,
    fun all project member entry inside => all entry ⟨project, member, inside⟩⟩

theorem filterMap_jobAt (files : FileSystem) (base : Path) {entries : List JobEntry}
    (complete : ∀ entry ∈ entries, entry.isComplete = true) :
    entries.map (JobEntry.jobAt files base) =
      (entries.filterMap (JobEntry.jobAt files base)).map some := by
  induction entries with
  | nil => rfl
  | cons entry more ih =>
    rw [List.forall_mem_cons, ← JobEntry.isSome_jobAt files base,
      Option.isSome_iff_exists] at complete
    obtain ⟨⟨job, made⟩, rest⟩ := complete
    rw [List.map_cons, List.filterMap_cons, made, List.map_cons, ih rest]

section Making

variable (files : FileSystem) (base : Path)

theorem onlyLooks_entryJob (entry : JobEntry) : OnlyLooks (entryJob base entry) := by
  rcases entry with ⟨_ | output, _ | overrides, _ | schema⟩
  case some.some.some =>
    refine (onlyLooks_jobInput base overrides).bind fun edits => ?_
    exact (onlyLooks_jobInput base schema).bind fun _ => onlyLooks_pure _
  all_goals exact onlyLooks_pure _

theorem answer_entryJob (entry : JobEntry) :
    answer (entryJob base entry) files = entry.jobAt files base := by
  rcases entry with ⟨_ | output, _ | overrides, _ | schema⟩
  case some.some.some =>
    unfold entryJob
    dsimp only
    rw [(onlyLooks_jobInput base overrides).answer_bind, (onlyLooks_jobInput base schema).answer_bind,
      answer_jobInput, answer_jobInput]
    rfl
  all_goals rfl

theorem onlyLooks_entryJobs (name : Option String) (index : Nat) (entries : List JobEntry) :
    OnlyLooks (entryJobs base name index entries) := by
  induction entries generalizing index with
  | nil => exact onlyLooks_pure _
  | cons entry more ih =>
    refine (onlyLooks_entryJob base entry).bind fun job => ?_
    cases job with
    | none => exact onlyLooks_pure _
    | some job => exact (ih (index + 1)).bind fun _ => onlyLooks_pure _

theorem answer_entryJobs (name : Option String) (index : Nat) (entries : List JobEntry) :
    answer (entryJobs base name index entries) files =
      match entries.findIdx? fun entry => !entry.isComplete with
      | some i => .error (.incompleteJob (index + i) name)
      | none => .ok (entries.filterMap (JobEntry.jobAt files base)) := by
  induction entries generalizing index with
  | nil => rfl
  | cons entry more ih =>
    have complete := entry.isSome_jobAt files base
    unfold entryJobs
    rw [(onlyLooks_entryJob base entry).answer_bind, answer_entryJob, List.findIdx?_cons,
      List.filterMap_cons, ← complete]
    cases entry.jobAt files base with
    | none => rfl
    | some job =>
      dsimp only [Option.isSome_some, Bool.not_true, Bool.false_eq_true, ↓reduceIte]
      rw [(onlyLooks_entryJobs base name _ more).answer_bind, ih]
      cases more.findIdx? fun entry => !entry.isComplete with
      | none => rfl
      | some i =>
        simp only [Option.map_some, Nat.add_assoc, Nat.add_comm 1]
        rfl

theorem onlyReads_projectJobs (name : Option String) (project : Project) :
    OnlyReads (projectJobs base name project) := by
  unfold projectJobs
  cases project.jobs with
  | none => exact (onlyReads_tell _).bind fun _ => onlyReads_pure _
  | some entries => exact (onlyLooks_entryJobs base name 0 entries).toOnlyReads

theorem answer_projectJobs (name : Option String) (project : Project) :
    answer (projectJobs base name project) files =
      match (project.jobs.getD []).findIdx? fun entry => !entry.isComplete with
      | some i => .error (.incompleteJob i name)
      | none => .ok ((project.jobs.getD []).filterMap (JobEntry.jobAt files base)) := by
  unfold projectJobs
  cases project.jobs with
  | none => rfl
  | some entries =>
    rw [Option.getD_some, answer_entryJobs]
    simp only [Nat.zero_add]

theorem onlyReads_allJobs (projects : List (Option String × Project)) :
    OnlyReads (allJobs base projects) := by
  induction projects with
  | nil => exact onlyReads_pure _
  | cons project more ih =>
    refine (onlyReads_projectJobs base project.1 project.2).bind fun made => ?_
    cases made with
    | error e => exact onlyReads_pure _
    | ok jobs => exact ih.bind fun _ => onlyReads_pure _

theorem answer_allJobs (projects : List (Option String × Project)) :
    answer (allJobs base projects) files =
      match firstIncomplete projects with
      | some (i, name) => .error (.incompleteJob i name)
      | none => .ok ((entriesOf projects).filterMap (JobEntry.jobAt files base)) := by
  induction projects with
  | nil => rfl
  | cons project more ih =>
    obtain ⟨name, project⟩ := project
    unfold allJobs
    rw [answer_bind_of_onlyReads (onlyReads_projectJobs base name project), answer_projectJobs,
      firstIncomplete, List.findSome?_cons, entriesOf, List.flatMap_cons, List.filterMap_append]
    · cases (project.jobs.getD []).findIdx? fun entry => !entry.isComplete with
      | some i => rfl
      | none =>
        dsimp only [Option.map_none]
        rw [answer_bind_of_onlyReads (onlyReads_allJobs base more)
          fun _ => (onlyReads_pure _).toIgnoresLog, ih, ← firstIncomplete, ← entriesOf]
        cases firstIncomplete more with
        | none => rfl
        | some found => rfl
    · rintro (e | jobs)
      · exact (onlyReads_pure _).toIgnoresLog
      · exact ((onlyReads_allJobs base more).bind fun _ => onlyReads_pure _).toIgnoresLog

end Making

theorem onlyReads_jobs (config : Config) (configPath : Path) :
    OnlyReads (config.jobs configPath) := onlyReads_allJobs _ _

theorem answer_jobs (files : FileSystem) (config : Config) (configPath : Path) :
    answer (config.jobs configPath) files =
      match firstIncomplete config.effectiveProjects with
      | some (i, name) => .error (.incompleteJob i name)
      | none => .ok (config.entries.filterMap (JobEntry.jobAt files (directoryOf configPath))) :=
  answer_allJobs files _ _

theorem answer_jobs_of_complete {config : Config}
    (complete : ∀ entry ∈ config.entries, entry.isComplete = true) (files : FileSystem)
    (configPath : Path) :
    answer (config.jobs configPath) files =
      .ok (config.entries.filterMap (JobEntry.jobAt files (directoryOf configPath))) := by
  rw [answer_jobs, firstIncomplete_eq_none_iff.mpr complete]

theorem complete_of_answer_jobs {files : FileSystem} {config : Config} {configPath : Path}
    {jobs : List Job} (made : answer (config.jobs configPath) files = .ok jobs) :
    ∀ entry ∈ config.entries, entry.isComplete = true := by
  rw [answer_jobs] at made
  apply firstIncomplete_eq_none_iff.mp
  cases first : firstIncomplete config.effectiveProjects with
  | none => rfl
  | some found => rw [first] at made; cases made

theorem answer_jobs_eq_ok_iff {files : FileSystem} {config : Config} {configPath : Path}
    {jobs : List Job} :
    answer (config.jobs configPath) files = .ok jobs ↔
      config.entries.map (JobEntry.jobAt files (directoryOf configPath)) = jobs.map some := by
  constructor
  · intro made
    have complete := complete_of_answer_jobs made
    rw [answer_jobs_of_complete complete, Except.ok.injEq] at made
    rw [filterMap_jobAt _ _ complete, made]
  · intro made
    have complete : ∀ entry ∈ config.entries, entry.isComplete = true := by
      intro entry member
      rw [← JobEntry.isSome_jobAt files (directoryOf configPath)]
      obtain ⟨job, -, same⟩ := List.mem_map.mp (made ▸ List.mem_map_of_mem member)
      rw [← same, Option.isSome_some]
    rw [filterMap_jobAt _ _ complete] at made
    rw [answer_jobs_of_complete complete,
      List.map_injective_iff.mpr (fun _ _ => Option.some.inj) made]

def listing (entries : List JobEntry) : Config := ⟨none, ⟨some entries⟩⟩

@[simp]
theorem entries_listing (entries : List JobEntry) : (listing entries).entries = entries :=
  List.append_nil entries

/-- What the texts of a configuration come to. Each entry gives one job, in order, and a text of it
that is settled is the path of the file that it names seen from the directory of the configuration, or
else a schema. A text that is not settled is taken from the working directory instead. And the jobs hang
on nothing but which of the names so seen stand for files: whatever else the files are or hold, the same
jobs are made. -/
theorem inputs_of_jobs {config : Config} {configPath : Path} {w : World} {jobs : List Job}
    (made : ((config.jobs configPath : StateM World _).run w).1 = .ok jobs) :
    List.Forall₂ (fun entry job => ∃ output overrides schema,
        entry = ⟨some output, some overrides, some schema⟩ ∧
        job.output = (directoryOf configPath).join ⟨output⟩ ∧
        Input.IsTaken w.files (directoryOf configPath) overrides job.overrides ∧
        Input.IsTaken w.files (directoryOf configPath) schema job.schema) config.entries jobs ∧
    ∀ w' : World,
      (∀ entry ∈ config.entries, ∀ text ∈ entry.texts,
        Input.IsAlike w.files w'.files (directoryOf configPath) text) →
      ((config.jobs configPath : StateM World _).run w').1 = .ok jobs := by
  rw [(onlyReads_jobs config configPath).answers, answer_jobs_eq_ok_iff] at made
  constructor
  · rw [← List.forall₂_eq_eq_eq, List.forall₂_map_left_iff, List.forall₂_map_right_iff] at made
    refine made.imp fun entry job gives => ?_
    obtain ⟨output, overrides, schema, rfl, rfl⟩ := JobEntry.jobAt_eq_some_iff.mp gives
    exact ⟨output, overrides, schema, rfl, rfl, Input.isTaken_inputAt _ _ _,
      Input.isTaken_inputAt _ _ _⟩
  · intro w' alike
    rw [(onlyReads_jobs config configPath).answers, answer_jobs_eq_ok_iff, ← made]
    exact List.map_congr_left fun entry member =>
      JobEntry.jobAt_congr fun text inside => Input.inputAt_congr (alike entry member text inside)

def filesAround (outside inside : Keyed String Node) : FileSystem :=
  ⟨.directory (outside.insert "cfg" (.directory inside)), []⟩

def schemaFile : Keyed String Node := Keyed.empty.insert "schema.graphql" (.file [])

def besideSchema (schema : String) : Config :=
  listing [⟨some "out.graphql", some "scalar B @create", some schema⟩]

theorem jobs_besideSchema {files : FileSystem} {schema : String} {input : Input}
    (taken : inputAt files ⟨"cfg"⟩ schema = input)
    (nameless : Input.namedFile? files ⟨"cfg"⟩ "scalar B @create" = none)
    (alone : Input.namedFile? files ⟨""⟩ "scalar B @create" = none) :
    (((besideSchema schema).jobs ⟨"cfg/.graphqlconfig"⟩ : StateM World _).run ⟨files, []⟩).1 =
      .ok [⟨⟨"cfg/out.graphql"⟩, .sdl "scalar B @create", input⟩] := by
  have base : directoryOf ⟨"cfg/.graphqlconfig"⟩ = ⟨"cfg"⟩ := by decide +kernel
  have output : Path.join ⟨"cfg"⟩ ⟨"out.graphql"⟩ = ⟨"cfg/out.graphql"⟩ := by decide +kernel
  have edits := Input.inputAt_eq_sdl nameless alone
  rw [(onlyReads_jobs _ _).answers, answer_jobs_eq_ok_iff, base, besideSchema, entries_listing,
    List.map_singleton, JobEntry.jobAt, output, edits, taken]
  rfl

theorem inputs_of_jobs_beside :
    let jobs : List Job :=
      [⟨⟨"cfg/out.graphql"⟩, .sdl "scalar B @create", .path ⟨"cfg/schema.graphql"⟩⟩]
    (((besideSchema "schema.graphql").jobs ⟨"cfg/.graphqlconfig"⟩ : StateM World _).run
      ⟨filesAround schemaFile schemaFile, []⟩).1 = .ok jobs ∧
    (((besideSchema "schema.graphql").jobs ⟨"cfg/.graphqlconfig"⟩ : StateM World _).run
      ⟨filesAround .empty schemaFile, []⟩).1 = .ok jobs := by
  intro jobs
  have base : directoryOf ⟨"cfg/.graphqlconfig"⟩ = ⟨"cfg"⟩ := by decide +kernel
  have line : '\n' ∉ "schema.graphql".toList := by decide
  have both : Input.namedFile? (filesAround schemaFile schemaFile) ⟨"cfg"⟩ "schema.graphql" =
      some ⟨"cfg/schema.graphql"⟩ := by decide +kernel
  have inside : Input.namedFile? (filesAround .empty schemaFile) ⟨"cfg"⟩ "schema.graphql" =
      some ⟨"cfg/schema.graphql"⟩ := by decide +kernel
  have made := jobs_besideSchema (Input.inputAt_of_named line both) (by decide +kernel)
    (by decide +kernel)
  refine ⟨made, (inputs_of_jobs made).2 _ ?_⟩
  intro entry listed text member
  rw [besideSchema, entries_listing, List.mem_singleton] at listed
  subst listed
  rw [base]
  rcases List.mem_pair.mp member with rfl | rfl
  · exact ⟨by decide +kernel, Or.inr (by decide +kernel)⟩
  · exact ⟨by decide +kernel, Or.inl ⟨.of_named line both, .of_named line inside⟩⟩

/-- Where a text names nothing seen from `cfg`, a file of that name in the working directory is taken;
and a line end behind a name hides the file that it names. -/
theorem inputs_of_jobs_astray :
    ((((besideSchema "schema.graphql").jobs ⟨"cfg/.graphqlconfig"⟩ : StateM World _).run
        ⟨filesAround schemaFile .empty, []⟩).1 =
      .ok [⟨⟨"cfg/out.graphql"⟩, .sdl "scalar B @create", .path ⟨"schema.graphql"⟩⟩] ∧
    Input.seenFrom (filesAround schemaFile .empty) ⟨"cfg"⟩ "schema.graphql" =
      .sdl "schema.graphql") ∧
    (((besideSchema "schema.graphql\n").jobs ⟨"cfg/.graphqlconfig"⟩ : StateM World _).run
        ⟨filesAround .empty schemaFile, []⟩).1 =
      .ok [⟨⟨"cfg/out.graphql"⟩, .sdl "scalar B @create", .sdl "schema.graphql\n"⟩] ∧
    Input.seenFrom (filesAround .empty schemaFile) ⟨"cfg"⟩ "schema.graphql\n" =
      .path ⟨"cfg/schema.graphql"⟩ := by
  have beyond : inputAt (filesAround schemaFile .empty) ⟨"cfg"⟩ "schema.graphql" =
      .path ⟨"schema.graphql"⟩ := by
    rw [Input.inputAt_of_nameless (by decide +kernel), Input.seenFrom_eq_path_iff]
    decide +kernel
  have hidden : inputAt (filesAround .empty schemaFile) ⟨"cfg"⟩ "schema.graphql\n" =
      .sdl "schema.graphql\n" := by
    rw [Input.inputAt_of_lines (by decide), Input.seenFrom_eq_sdl_iff]
    decide +kernel
  refine ⟨⟨jobs_besideSchema beyond ?_ ?_, Input.seenFrom_eq_sdl_iff.mpr ?_⟩,
    jobs_besideSchema hidden ?_ ?_, Input.seenFrom_eq_path_iff.mpr ?_⟩ <;> decide +kernel

end Config

end SchemaOverlay
