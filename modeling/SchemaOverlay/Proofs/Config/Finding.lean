import SchemaOverlay.Proofs.Config.Order

/-!
What a path leads to. It is a configuration with its jobs, or something is wrong with it, which is told of
before the first job would begin. Nothing is changed by finding out.
-/
namespace SchemaOverlay

open World

namespace Config

theorem onlyLooks_firstFile (paths : List Path) : OnlyLooks (firstFile paths) := by
  induction paths with
  | nil => exact onlyLooks_pure _
  | cons p more ih => exact (onlyLooks_isFile p).bind fun _ => .ite (onlyLooks_pure _) ih

theorem onlyLooks_locate (path : Path) : OnlyLooks (locate path) := by
  refine (onlyLooks_isFile path).bind fun _ => .ite (onlyLooks_pure _) ?_
  refine (onlyLooks_isDirectory path).bind fun _ => .ite ?_ (onlyLooks_pure _)
  refine (onlyLooks_firstFile _).bind fun found => ?_
  cases found with
  | none => exact onlyLooks_pure _
  | some p => exact onlyLooks_pure _

theorem onlyLooks_readText (path : Path) : OnlyLooks (readText path) := by
  refine (onlyLooks_read path).bind fun content => ?_
  cases content with
  | error e => exact onlyLooks_pure _
  | ok bytes =>
    dsimp only
    cases Text.decodeUtf8 bytes with
    | error e => exact onlyLooks_pure _
    | ok text => exact onlyLooks_pure _

theorem onlyLooks_load (path : Path) : OnlyLooks (load path) := by
  refine (onlyLooks_readText path).bind fun read => ?_
  cases read with
  | error e => exact onlyLooks_pure _
  | ok text => exact onlyLooks_pure _

/-- The configuration file that a path leads to: the file there, or in a directory the first of two. -/
inductive LeadsTo (files : FileSystem) (path : Path) : Path → Prop
  | file (here : files.isFile path = true) : LeadsTo files path path
  | inside {name : String} (other : files.isFile path = false)
    (directory : files.isDirectory path = true)
    (first : First (fun name => files.isFile (path.join ⟨name⟩) = true)
      [".graphqlconfig", ".graphqlconfig.json"] name) : LeadsTo files path (path.join ⟨name⟩)

/-- The configuration that a path leads to, with the projects that count by the text of the file. -/
structure Found (path : Path) (files : FileSystem) (configPath : Path)
    (projects : List (Option String × Project)) : Prop where
  leads : LeadsTo files path configPath
  read : ∃ bytes text members, files.read configPath = .ok bytes ∧
    Text.decodeUtf8 bytes = .ok text ∧ Json.parse? text = some (.object members) ∧
    InEffect members projects

/-- What is wrong with the configuration that a path leads to: it is not found, it cannot be read, or
a job in it, the first such one, is incomplete. -/
inductive Refused (path : Path) (files : FileSystem) : ConfigError → Prop
  | nothing (other : files.isFile path = false) (notDirectory : files.isDirectory path = false) :
    Refused path files (.nothingAt path)
  | empty (other : files.isFile path = false) (directory : files.isDirectory path = true)
    (none : ∀ name ∈ [".graphqlconfig", ".graphqlconfig.json"],
      files.isFile (path.join ⟨name⟩) = false) : Refused path files (.noConfigIn path)
  | unreadable {configPath : Path} {f : FileFault} (leads : LeadsTo files path configPath)
    (fails : files.read configPath = .error f) :
    Refused path files (.unreadable configPath f.system)
  | notText {configPath : Path} {bytes : List UInt8} (leads : LeadsTo files path configPath)
    (read : files.read configPath = .ok bytes) (fails : ∀ text, Text.decodeUtf8 bytes ≠ .ok text) :
    Refused path files (.unreadable configPath FileFault.notText.named)
  | unparsable {configPath : Path} {bytes : List UInt8} {text : String} {fault : ConfigFault}
    (leads : LeadsTo files path configPath) (read : files.read configPath = .ok bytes)
    (decoded : Text.decodeUtf8 bytes = .ok text) (fails : parse text = .error fault) :
    Refused path files (.unparsable configPath fault)
  | incomplete {configPath : Path} {projects : List (Option String × Project)} {i : Nat}
    {name : Option String} (found : Found path files configPath projects)
    (first : LacksFirst projects i name) : Refused path files (.incompleteJob i name)

/-- The jobs of the configuration that a path leads to: one for each of its entries, in order. -/
structure Lists (path : Path) (files : FileSystem) (configPath : Path)
    (projects : List (Option String × Project)) (jobs : List Job) : Prop where
  found : Found path files configPath projects
  made : List.Forall₂ (JobEntry.Asks files (directoryOf configPath)) (entriesOf projects) jobs

section Finding

variable {path configPath : Path} {files : FileSystem} {projects : List (Option String × Project)}

theorem answer_firstFile (files : FileSystem) (paths : List Path) :
    answer (firstFile paths) files = paths.find? fun p => files.isFile p := by
  induction paths with
  | nil => rfl
  | cons p more ih =>
    rw [firstFile, (onlyLooks_isFile p).answer_bind, answer_isFile, List.find?_cons, ← ih]
    cases files.isFile p <;> rfl

theorem answer_locate (path : Path) (files : FileSystem) :
    answer (locate path) files =
      if files.isFile path = true then .ok path
      else if files.isDirectory path = true then
        match fileNames.find? fun name => files.isFile (path.join ⟨name⟩) with
        | some name => .ok (path.join ⟨name⟩)
        | none => .error (.noConfigIn path)
      else .error (.nothingAt path) := by
  unfold locate
  rw [(onlyLooks_isFile path).answer_bind, answer_isFile]
  cases files.isFile path with
  | true => rfl
  | false =>
    simp only [Bool.false_eq_true, if_false]
    rw [(onlyLooks_isDirectory path).answer_bind, answer_isDirectory]
    cases files.isDirectory path with
    | false => rfl
    | true =>
      simp only [if_true]
      rw [(onlyLooks_firstFile _).answer_bind, answer_firstFile, List.find?_map, Function.comp_def]
      cases fileNames.find? fun name => files.isFile (path.join ⟨name⟩) <;> rfl

theorem answer_locate_eq_ok_iff :
    answer (locate path) files = .ok configPath ↔ LeadsTo files path configPath := by
  rw [answer_locate]
  constructor
  · intro located
    split at located
    · rename_i here
      cases located
      exact .file here
    · rename_i other
      split at located
      · rename_i directory
        split at located
        · rename_i name found
          cases located
          exact .inside (Bool.not_eq_true _ ▸ other) directory (find?_eq_some_iff_first.mp found)
        · cases located
      · cases located
  · rintro (here | ⟨other, directory, first⟩)
    · rw [if_pos here]
    · rw [if_neg (by simp [other]), if_pos directory]
      rw [show fileNames = [".graphqlconfig", ".graphqlconfig.json"] from rfl,
        find?_eq_some_iff_first.mpr first]

theorem refused_of_locate {e : ConfigError} (fails : answer (locate path) files = .error e) :
    Refused path files e := by
  rw [answer_locate] at fails
  split at fails
  · cases fails
  · rename_i other
    split at fails
    · rename_i directory
      split at fails
      · cases fails
      · rename_i none
        cases fails
        refine .empty (Bool.not_eq_true _ ▸ other) directory fun name known => ?_
        exact Bool.not_eq_true _ ▸ List.find?_eq_none.mp none name known
    · rename_i nowhere
      cases fails
      exact .nothing (Bool.not_eq_true _ ▸ other) (Bool.not_eq_true _ ▸ nowhere)

theorem answer_load (files : FileSystem) (path : Path) :
    answer (load path) files =
      match files.read path with
      | .error f => .error (.unreadable path f.system)
      | .ok bytes =>
        match Text.decodeUtf8 bytes with
        | .error _ => .error (.unreadable path FileFault.notText.named)
        | .ok text => (parse text).mapError (.unparsable path) := by
  unfold load
  rw [(onlyLooks_readText path).answer_bind]
  unfold readText
  rw [(onlyLooks_read path).answer_bind, answer_read]
  cases files.read path with
  | error f => rfl
  | ok bytes =>
    simp only [Except.mapError]
    cases Text.decodeUtf8 bytes <;> rfl

theorem refused_of_load {e : ConfigError} (leads : LeadsTo files path configPath)
    (fails : answer (load configPath) files = .error e) : Refused path files e := by
  rw [answer_load] at fails
  cases read : files.read configPath with
  | error f =>
    simp only [read, Except.error.injEq] at fails
    exact fails ▸ .unreadable leads read
  | ok bytes =>
    cases decoded : Text.decodeUtf8 bytes with
    | error g =>
      simp only [read, decoded, Except.error.injEq] at fails
      exact fails ▸ .notText leads read (by simp [decoded])
    | ok text =>
      cases parsed : parse text with
      | ok config => simp [read, decoded, parsed, Except.mapError] at fails
      | error fault =>
        simp only [read, decoded, parsed, Except.mapError, Except.error.injEq] at fails
        exact fails ▸ .unparsable leads read decoded parsed

theorem found_of_load {config : Config} (leads : LeadsTo files path configPath)
    (loaded : answer (load configPath) files = .ok config) :
    Found path files configPath config.effectiveProjects := by
  rw [answer_load] at loaded
  cases read : files.read configPath with
  | error f => simp [read] at loaded
  | ok bytes =>
    cases decoded : Text.decodeUtf8 bytes with
    | error g => simp [read, decoded] at loaded
    | ok text =>
      cases parsed : parse text with
      | error fault => simp [read, decoded, parsed, Except.mapError] at loaded
      | ok config' =>
        simp only [read, decoded, parsed, Except.mapError, Except.ok.injEq] at loaded
        obtain ⟨members, written, counts⟩ := inEffect_of_parse parsed
        exact ⟨leads, bytes, text, members, read, decoded, written, loaded ▸ counts⟩

/-- A path leads to one configuration, and the text of the file settles which projects count. -/
theorem Found.unique {configPath' : Path} {projects' : List (Option String × Project)}
    (first : Found path files configPath projects)
    (second : Found path files configPath' projects') :
    configPath = configPath' ∧ projects = projects' := by
  obtain ⟨leads, bytes, text, members, read, decoded, written, counts⟩ := first
  obtain ⟨leads', bytes', text', members', read', decoded', written', counts'⟩ := second
  obtain rfl : configPath = configPath' := Except.ok.inj
    ((answer_locate_eq_ok_iff.mpr leads).symm.trans (answer_locate_eq_ok_iff.mpr leads'))
  obtain rfl := Except.ok.inj (read.symm.trans read')
  obtain rfl := Except.ok.inj (decoded.symm.trans decoded')
  cases written.symm.trans written'
  exact ⟨rfl, counts.unique counts'⟩

theorem Lists.complete {jobs : List Job} (lists : Lists path files configPath projects jobs) :
    ∀ entry ∈ entriesOf projects, entry.isComplete = true := by
  intro entry member
  obtain ⟨job, _, asks⟩ := exists_of_mem_of_forall₂ lists.made member
  rw [← entry.isSome_jobAt files (directoryOf configPath),
    JobEntry.jobAt_eq_some_iff_asks.mpr asks, Option.isSome_some]

end Finding

def prepare (path : Path) : StateM World (Except ConfigError (Path × List Job)) := do
  match ← locate path with
  | .error e => return .error e
  | .ok configPath =>
    Host.tell ⟨.debug, s!"Loading override jobs from {Text.quoted configPath.text}."⟩
    match ← load configPath with
    | .error e => return .error e
    | .ok config => return (← config.jobs configPath).map (configPath, ·)

theorem onlyReads_prepare (path : Path) : OnlyReads (prepare path) := by
  refine (onlyLooks_locate path).toOnlyReads.bind fun located => ?_
  cases located with
  | error e => exact onlyReads_pure _
  | ok configPath =>
    refine (onlyReads_tell _).bind fun _ => ?_
    refine (onlyLooks_load configPath).toOnlyReads.bind fun loaded => ?_
    cases loaded with
    | error e => exact onlyReads_pure _
    | ok config => exact (onlyReads_jobs config configPath).bind fun _ => onlyReads_pure _

theorem answer_prepare (path : Path) (files : FileSystem) :
    answer (prepare path) files =
      match answer (locate path) files with
      | .error e => .error e
      | .ok configPath =>
        match answer (load configPath) files with
        | .error e => .error e
        | .ok config => (answer (config.jobs configPath) files).map (configPath, ·) := by
  unfold prepare
  rw [(onlyLooks_locate path).answer_bind]
  cases answer (locate path) files with
  | error e => rfl
  | ok configPath =>
    dsimp only
    rw [answer_bind_of_onlyReads (onlyReads_tell _), (onlyLooks_load configPath).answer_bind]
    · cases answer (load configPath) files with
      | error e => rfl
      | ok config => rfl
    · intro _
      refine (onlyLooks_load configPath).toIgnoresLog.bind fun loaded => ?_
      cases loaded with
      | error e => exact (onlyReads_pure _).toIgnoresLog
      | ok config =>
        exact (onlyReads_jobs config configPath).toIgnoresLog.bind fun _ =>
          (onlyReads_pure _).toIgnoresLog

theorem refused_of_prepare {path : Path} {files : FileSystem} {e : ConfigError}
    (fails : answer (prepare path) files = .error e) : Refused path files e := by
  rw [answer_prepare] at fails
  cases located : answer (locate path) files with
  | error e' =>
    simp only [located, Except.error.injEq] at fails
    exact fails ▸ refused_of_locate located
  | ok configPath =>
    have leads := answer_locate_eq_ok_iff.mp located
    cases loaded : answer (load configPath) files with
    | error e' =>
      simp only [located, loaded, Except.error.injEq] at fails
      exact fails ▸ refused_of_load leads loaded
    | ok config =>
      cases made : answer (config.jobs configPath) files with
      | ok jobs => simp [located, loaded, made, Except.map] at fails
      | error e' =>
        simp only [located, loaded, made, Except.map, Except.error.injEq] at fails
        obtain ⟨index, name, first, rfl⟩ := answer_jobs_eq_error_iff.mp made
        exact fails ▸ .incomplete (found_of_load leads loaded) first

theorem lists_of_prepare {path configPath : Path} {files : FileSystem} {jobs : List Job}
    (prepared : answer (prepare path) files = .ok (configPath, jobs)) :
    ∃ projects, Lists path files configPath projects jobs := by
  rw [answer_prepare] at prepared
  cases located : answer (locate path) files with
  | error e => simp [located] at prepared
  | ok place =>
    cases loaded : answer (load place) files with
    | error e => simp [located, loaded] at prepared
    | ok config =>
      cases made : answer (config.jobs place) files with
      | error e => simp [located, loaded, made, Except.map] at prepared
      | ok all =>
        simp only [located, loaded, made, Except.map, Except.ok.injEq, Prod.mk.injEq] at prepared
        obtain ⟨rfl, rfl⟩ := prepared
        exact ⟨_, found_of_load (answer_locate_eq_ok_iff.mp located) loaded,
          answer_jobs_eq_ok_iff_asks.mp made⟩

def Preliminary (r : LogRecord) : Prop :=
  r.level = .trace ∨ r.message.toList.head? = some 'L'

section Tells

variable {P : LogRecord → Prop} (trace : ∀ r : LogRecord, r.level = .trace → P r)
include trace

theorem tells_projectJobs (base : Path) (name : Option String) (project : Project) :
    Tells P (projectJobs base name project) := by
  unfold projectJobs
  cases project.jobs with
  | none => exact (tells_tell (trace _ rfl)).bind fun _ => (onlyLooks_pure _).tells
  | some entries => exact (onlyLooks_entryJobs base name 0 entries).tells

theorem tells_allJobs (base : Path) (projects : List (Option String × Project)) :
    Tells P (allJobs base projects) := by
  induction projects with
  | nil => exact (onlyLooks_pure _).tells
  | cons project more ih =>
    refine (tells_projectJobs trace base project.1 project.2).bind fun made => ?_
    cases made with
    | error e => exact (onlyLooks_pure _).tells
    | ok jobs => exact ih.bind fun _ => (onlyLooks_pure _).tells

theorem tells_prepare (loading : ∀ configPath : Path,
    P ⟨.debug, s!"Loading override jobs from {Text.quoted configPath.text}."⟩) (path : Path) :
    Tells P (prepare path) := by
  refine (onlyLooks_locate path).tells.bind fun located => ?_
  cases located with
  | error e => exact (onlyLooks_pure _).tells
  | ok configPath =>
    refine (tells_tell (loading configPath)).bind fun _ => ?_
    refine (onlyLooks_load configPath).tells.bind fun loaded => ?_
    cases loaded with
    | error e => exact (onlyLooks_pure _).tells
    | ok config => exact (tells_allJobs trace _ _).bind fun _ => (onlyLooks_pure _).tells

end Tells

theorem tells_preliminary (path : Path) : Tells Preliminary (prepare path) := by
  refine tells_prepare (fun _ level => Or.inl level) (fun configPath => Or.inr ?_) path
  rw [String.toList_append, String.toList_append, List.append_assoc, List.head?_append]
  rfl

theorem not_preliminary_heading (job : Job) : ¬ Preliminary job.heading := by
  have initial : job.heading.message.toList.head? = some 'A' := by
    unfold Job.heading
    rw [String.toList_append, String.toList_append, List.append_assoc, List.head?_append]
    rfl
  rintro (level | loading)
  · cases level
  · rw [initial] at loading
    exact absurd loading (by decide)

end Config

end SchemaOverlay
