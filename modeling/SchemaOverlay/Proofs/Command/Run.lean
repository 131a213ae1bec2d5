import SchemaOverlay.Command.Run
import SchemaOverlay.Proofs.Config.Finding
import SchemaOverlay.Proofs.Text.Utf8

/-!
Whole runs over a configuration. Everything that can be wrong with the configuration is found before
the first job runs, and until then nothing is changed. After that the jobs run one after another until
one fails, each on the files that those before it left.
-/
namespace SchemaOverlay

open World

namespace Outcome

/-- What a command reports: the outputs that were saved, and the failure that ended it if one did. -/
structure Reports (o : Outcome) (saved : List Path) (failure : Option (List String)) : Prop where
  exitCode : o.exitCode = if failure.isNone then 0 else 1
  stdout : o.stdout = if failure.isSome ∧ saved = [] then none
    else some (Sdl.joinWith "\n" (saved.map savedLine))
  stderr : o.stderr = failure.map failureLine

theorem reports_failed (chain : List String) : (failed chain).Reports [] (some chain) :=
  ⟨rfl, rfl, rfl⟩

theorem reports_allSaved (saved : List Path) : (allSaved saved).Reports saved none where
  exitCode := rfl
  stdout := by rw [if_neg fun both => by cases both.1]; rfl
  stderr := rfl

theorem reports_failedAfter (saved : List Path) (chain : List String) :
    (failedAfter saved chain).Reports saved (some chain) where
  exitCode := rfl
  stdout := by
    unfold failedAfter
    simp only [List.isEmpty_iff, Option.isSome_some, true_and]
  stderr := rfl

end Outcome

namespace Job

def after (files : FileSystem) (jobs : List Job) : FileSystem :=
  jobs.foldl (fun files job => left job.run files) files

/-- Every job succeeds on the files that those before it leave. -/
def AllSave (files : FileSystem) (jobs : List Job) : Prop :=
  ∀ done job later, jobs = done ++ job :: later →
    answer job.run (after files done) = .ok job.output

/-- How jobs end that run one after another until one fails: what was saved, the failure, and the
files that are left. -/
inductive Ends (files : FileSystem) : List Job → List Path → Option JobError → FileSystem → Prop
  | saved {jobs : List Job} (all : AllSave files jobs) :
    Ends files jobs (jobs.map output) none (after files jobs)
  | failed {done : List Job} {job : Job} {later : List Job} {e : JobError} (all : AllSave files done)
    (fails : answer job.run (after files done) = .error e) :
    Ends files (done ++ job :: later) (done.map output) (some e) (after files (done ++ [job]))

variable {files files' : FileSystem} {job : Job} {jobs : List Job}

theorem allSave_nil : AllSave files [] := by
  intro done job later same
  cases done <;> cases same

theorem allSave_cons (first : answer job.run files = .ok job.output)
    (rest : AllSave (left job.run files) jobs) : AllSave files (job :: jobs) := by
  rintro (_ | ⟨early, done⟩) turn later same
  · obtain ⟨rfl, rfl⟩ := List.cons.inj same
    exact first
  · obtain ⟨rfl, rfl⟩ := List.cons.inj same
    exact rest done turn later rfl

theorem Ends.cons {saved : List Path} {failure : Option JobError}
    (first : answer job.run files = .ok job.output)
    (rest : Ends (left job.run files) jobs saved failure files') :
    Ends files (job :: jobs) (job.output :: saved) failure files' := by
  cases rest with
  | saved all => exact .saved (allSave_cons first all)
  | failed all fails => exact @Ends.failed files (job :: _) _ _ _ (allSave_cons first all) fails

theorem Ends.outputs_eq {saved : List Path} {failure : Option JobError}
    (ends : Ends files jobs saved failure files') :
    ∃ more, jobs.map output = saved ++ more ∧ (failure = none ↔ more = []) := by
  cases ends with
  | saved => exact ⟨[], (List.append_nil _).symm, iff_of_true rfl rfl⟩
  | failed => exact ⟨_, List.map_append, by simp⟩

def followUp (more : List Job) :
    Except JobError Path → StateM World (List Path × Option JobError)
  | .error e => return ([], some e)
  | .ok output => return (fun ran => (output :: ran.1, ran.2)) (← runJobs more)

theorem runJobs_cons (job : Job) (more : List Job) :
    runJobs (job :: more) = job.run >>= followUp more := by
  rw [runJobs]
  refine bind_congr fun ran => ?_
  cases ran <;> rfl

theorem ignoresLog_runJobs (jobs : List Job) : IgnoresLog (runJobs jobs) := by
  induction jobs with
  | nil => exact (onlyReads_pure _).toIgnoresLog
  | cons job more ih =>
    rw [runJobs_cons]
    refine job.ignoresLog_run.bind fun ran => ?_
    cases ran with
    | error e => exact (onlyReads_pure _).toIgnoresLog
    | ok output => exact ih.bind fun _ => (onlyReads_pure _).toIgnoresLog

theorem ignoresLog_followUp (more : List Job) (ran : Except JobError Path) :
    IgnoresLog (followUp more ran) := by
  cases ran with
  | error e => exact (onlyReads_pure _).toIgnoresLog
  | ok output => exact (ignoresLog_runJobs more).bind fun _ => (onlyReads_pure _).toIgnoresLog

theorem runJobs_of_error (more : List Job) {e : JobError}
    (fails : answer job.run files = .error e) :
    answer (runJobs (job :: more)) files = ([], some e) ∧
      left (runJobs (job :: more)) files = left job.run files := by
  rw [runJobs_cons, answer_bind (ignoresLog_followUp more), left_bind (ignoresLog_followUp more),
    fails]
  exact ⟨rfl, rfl⟩

theorem runJobs_of_ok (more : List Job) {output : Path}
    (saves : answer job.run files = .ok output) :
    answer (runJobs (job :: more)) files =
        (output :: (answer (runJobs more) (left job.run files)).1,
          (answer (runJobs more) (left job.run files)).2) ∧
      left (runJobs (job :: more)) files = left (runJobs more) (left job.run files) := by
  rw [runJobs_cons, answer_bind (ignoresLog_followUp more), left_bind (ignoresLog_followUp more),
    saves]
  exact ⟨rfl, rfl⟩

theorem ends_runJobs (files : FileSystem) (jobs : List Job) :
    Ends files jobs (answer (runJobs jobs) files).1 (answer (runJobs jobs) files).2
      (left (runJobs jobs) files) := by
  induction jobs generalizing files with
  | nil => exact .saved allSave_nil
  | cons job more ih =>
    cases ran : answer job.run files with
    | error e =>
      obtain ⟨answered, files⟩ := runJobs_of_error more ran
      rw [answered, files]
      exact @Ends.failed _ [] job more e allSave_nil ran
    | ok output =>
      obtain rfl : output = job.output := job.answers_run ⟨files, []⟩ output ran
      obtain ⟨answered, files⟩ := runJobs_of_ok more ran
      rw [answered, files]
      exact (ih _).cons ran

end Job

def Outcome.ofJobs : List Path × Option JobError → Outcome
  | (saved, none) => .allSaved saved
  | (saved, some e) => .failedAfter saved e.chain

theorem Outcome.reports_ofJobs (saved : List Path) (failure : Option JobError) :
    (ofJobs (saved, failure)).Reports saved (failure.map JobError.chain) := by
  cases failure with
  | none => exact reports_allSaved saved
  | some e => exact reports_failedAfter saved e.chain

section RunAll

variable (configPath : Path) (jobs : List Job)

theorem runAll_eq : ∃ told : StateM World Unit, OnlyReads told ∧
    runAll configPath jobs = told >>= fun _ => runJobs jobs >>= fun ran => pure (.ofJobs ran) := by
  have report : (do
      match ← runJobs jobs with
      | (saved, none) => return .allSaved saved
      | (saved, some e) => return .failedAfter saved e.chain : StateM World Outcome) =
      runJobs jobs >>= fun ran => pure (.ofJobs ran) := by
    refine bind_congr ?_
    rintro ⟨saved, _ | e⟩ <;> rfl
  rw [← report]
  unfold runAll
  by_cases none : jobs.isEmpty = true
  · exact ⟨_, onlyReads_tell _, if_pos none⟩
  · exact ⟨pure (), onlyReads_pure _, (if_neg none).trans rfl⟩

theorem ignoresLog_runAll : IgnoresLog (runAll configPath jobs) := by
  obtain ⟨told, reads, same⟩ := runAll_eq configPath jobs
  rw [same]
  refine reads.toIgnoresLog.bind fun _ => ?_
  exact (Job.ignoresLog_runJobs jobs).bind fun _ => (onlyReads_pure _).toIgnoresLog

theorem answer_runAll (files : FileSystem) :
    answer (runAll configPath jobs) files = .ofJobs (answer (runJobs jobs) files) := by
  obtain ⟨told, reads, same⟩ := runAll_eq configPath jobs
  have later : IgnoresLog (runJobs jobs >>= fun ran => pure (Outcome.ofJobs ran)) :=
    (Job.ignoresLog_runJobs jobs).bind fun _ => (onlyReads_pure _).toIgnoresLog
  rw [same, answer_bind_of_onlyReads reads fun _ => later]
  rfl

theorem left_runAll (files : FileSystem) :
    left (runAll configPath jobs) files = left (runJobs jobs) files := by
  obtain ⟨told, reads, same⟩ := runAll_eq configPath jobs
  have later : IgnoresLog (runJobs jobs >>= fun ran => pure (Outcome.ofJobs ran)) :=
    (Job.ignoresLog_runJobs jobs).bind fun _ => (onlyReads_pure _).toIgnoresLog
  rw [same, left_bind_of_onlyReads reads fun _ => later]
  rfl

end RunAll

def Config.carryOut : Except ConfigError (Path × List Job) → StateM World Outcome
  | .error e => return .failed e.chain
  | .ok (configPath, jobs) => runAll configPath jobs

theorem runConfig_eq (path : Option Path) :
    runConfig path = Config.prepare (path.getD ⟨"."⟩) >>= Config.carryOut := by
  unfold runConfig Config.prepare
  simp only [bind_assoc]
  refine bind_congr fun located => ?_
  cases located with
  | error e => rfl
  | ok configPath =>
    simp only [bind_assoc]
    refine bind_congr fun _ => bind_congr fun loaded => ?_
    cases loaded with
    | error e => rfl
    | ok config =>
      simp only [Config.run, bind_assoc, pure_bind]
      refine bind_congr fun made => ?_
      cases made with
      | error e => rfl
      | ok jobs => rfl

theorem Config.ignoresLog_carryOut (prepared : Except ConfigError (Path × List Job)) :
    IgnoresLog (Config.carryOut prepared) := by
  cases prepared with
  | error e => exact (onlyReads_pure _).toIgnoresLog
  | ok found => exact ignoresLog_runAll found.1 found.2

theorem ignoresLog_runConfig (path : Option Path) : IgnoresLog (runConfig path) := by
  rw [runConfig_eq]
  exact (Config.onlyReads_prepare _).toIgnoresLog.bind Config.ignoresLog_carryOut

/-- The command ended before any job: each would have begun by telling of itself. -/
structure Config.Unstarted (w : World) (ran : Outcome × World) (e : ConfigError) : Prop where
  report : ran.1.Reports [] (some e.chain)
  files : ran.2.files = w.files
  silent : ∃ told, ran.2.log = w.log ++ told ∧ ∀ job : Job, job.heading ∉ told

section RunConfig

variable {path : Option Path} {w : World}

theorem unstarted_of_prepare {e : ConfigError}
    (fails : answer (Config.prepare (path.getD ⟨"."⟩)) w.files = .error e) :
    Config.Unstarted w ((runConfig path : StateM World Outcome).run w) e := by
  have reads := Config.onlyReads_prepare (path.getD ⟨"."⟩)
  have ran : (runConfig path : StateM World Outcome).run w =
      (.failed e.chain, ((Config.prepare (path.getD ⟨"."⟩)).run w).2) := by
    rw [← reads.answers] at fails
    rw [runConfig_eq]
    change (Config.carryOut ((Config.prepare _).run w).1).run _ = _
    rw [fails]
    rfl
  obtain ⟨told, log, preliminary⟩ := Config.tells_preliminary (path.getD ⟨"."⟩) w
  rw [ran]
  exact ⟨Outcome.reports_failed _, (reads.leaves w).trans (reads.keeps _), told, log,
    fun job member => Config.not_preliminary_heading job (preliminary _ member)⟩

theorem ends_of_prepare {configPath : Path} {jobs : List Job}
    (prepared : answer (Config.prepare (path.getD ⟨"."⟩)) w.files = .ok (configPath, jobs)) :
    let ran := (runConfig path : StateM World Outcome).run w
    ∃ saved failure, Job.Ends w.files jobs saved failure ran.2.files ∧
      ran.1.Reports saved (failure.map JobError.chain) := by
  have reads := Config.onlyReads_prepare (path.getD ⟨"."⟩)
  have outcome : answer (runConfig path) w.files = .ofJobs (answer (runJobs jobs) w.files) := by
    rw [runConfig_eq, answer_bind_of_onlyReads reads Config.ignoresLog_carryOut, prepared]
    exact answer_runAll configPath jobs w.files
  have files : left (runConfig path) w.files = left (runJobs jobs) w.files := by
    rw [runConfig_eq, left_bind_of_onlyReads reads Config.ignoresLog_carryOut, prepared]
    exact left_runAll configPath jobs w.files
  dsimp only
  rw [(ignoresLog_runConfig path).answers, (ignoresLog_runConfig path).leaves, outcome, files]
  exact ⟨_, _, Job.ends_runJobs w.files jobs, Outcome.reports_ofJobs _ _⟩

end RunConfig

/-- What the command on a configuration does. Either the configuration is refused; then no job runs, and
no file or directory is changed. Or its jobs, which are those of the entries in the file, run one after
another until one fails, each on the files that those before it left. The report tells of exactly what was
saved, and of the failure. And a configuration is refused if any entry in it lacks a part. -/
theorem runConfig_ends (path : Option Path) (w : World) :
    let ran := (runConfig path : StateM World Outcome).run w
    let start := path.getD ⟨"."⟩
    ((∃ e, Config.Refused start w.files e ∧ Config.Unstarted w ran e) ∨
      ∃ configPath projects jobs saved failure,
        Config.Lists start w.files configPath projects jobs ∧
        Job.Ends w.files jobs saved failure ran.2.files ∧
        ran.1.Reports saved (failure.map JobError.chain)) ∧
    ∀ configPath projects, Config.Found start w.files configPath projects →
      (∃ entry ∈ Config.entriesOf projects, entry.isComplete = false) →
      ∃ e, Config.Refused start w.files e ∧ Config.Unstarted w ran e := by
  intro ran start
  cases prepared : answer (Config.prepare start) w.files with
  | error e =>
    have refused := Config.refused_of_prepare prepared
    have unstarted := unstarted_of_prepare prepared
    exact ⟨Or.inl ⟨e, refused, unstarted⟩, fun _ _ _ _ => ⟨e, refused, unstarted⟩⟩
  | ok found =>
    obtain ⟨configPath, jobs⟩ := found
    obtain ⟨projects, lists⟩ := Config.lists_of_prepare prepared
    obtain ⟨saved, failure, ends, reports⟩ := ends_of_prepare prepared
    refine ⟨Or.inr ⟨configPath, projects, jobs, saved, failure, lists, ends, reports⟩, ?_⟩
    rintro place written found ⟨entry, member, lacking⟩
    obtain ⟨-, rfl⟩ := lists.found.unique found
    rw [lists.complete entry member] at lacking
    cases lacking

def threeJobs : String :=
  "\x7b\"extensions\":[[[\"a\",\"scalar B @create\",\"scalar A\"]," ++
    "[\"a/b\",\"scalar C @create\",\"scalar A\"],[\"c\",\"\",\"scalar A\"]]]\x7d"

def threeJobEntries : List JobEntry :=
  [⟨some "a", some "scalar B @create", some "scalar A"⟩,
    ⟨some "a/b", some "scalar C @create", some "scalar A"⟩, ⟨some "c", some "", some "scalar A"⟩]

def threeJobsFiles : FileSystem :=
  ⟨.directory (Keyed.empty.insert ".graphqlconfig" (.file (Text.encodeUtf8 threeJobs))), []⟩

theorem Config.Found.entriesOf_threeJobs {configPath : Path}
    {projects : List (Option String × Project)}
    (found : Found ⟨"."⟩ threeJobsFiles configPath projects) :
    configPath = Path.join ⟨"."⟩ ⟨".graphqlconfig"⟩ ∧ entriesOf projects = threeJobEntries := by
  have parsed : parse threeJobs = .ok ⟨none, ⟨some threeJobEntries⟩⟩ := by decide +kernel
  obtain ⟨members, written, counts⟩ := inEffect_of_parse parsed
  have first : First (fun name => threeJobsFiles.isFile (Path.join ⟨"."⟩ ⟨name⟩) = true)
      [".graphqlconfig", ".graphqlconfig.json"] ".graphqlconfig" :=
    ⟨[], _, rfl, by decide +kernel, by simp⟩
  have leads : LeadsTo threeJobsFiles ⟨"."⟩ (Path.join ⟨"."⟩ ⟨".graphqlconfig"⟩) :=
    .inside (by decide +kernel) (by decide +kernel) first
  have read : threeJobsFiles.read (Path.join ⟨"."⟩ ⟨".graphqlconfig"⟩) =
      .ok (Text.encodeUtf8 threeJobs) := by decide +kernel
  have here : Found ⟨"."⟩ threeJobsFiles _ [(none, ⟨some threeJobEntries⟩)] :=
    ⟨leads, _, threeJobs, members, read, Text.decodeUtf8_encodeUtf8 threeJobs, written, counts⟩
  obtain ⟨rfl, rfl⟩ := found.unique here
  exact ⟨rfl, rfl⟩

theorem Config.Lists.outputs_threeJobs {configPath : Path}
    {projects : List (Option String × Project)} {jobs : List Job}
    (lists : Lists ⟨"."⟩ threeJobsFiles configPath projects jobs) :
    jobs.map Job.output = [⟨"./a"⟩, ⟨"./a/b"⟩, ⟨"./c"⟩] := by
  obtain ⟨found, made⟩ := lists
  obtain ⟨rfl, entries⟩ := found.entriesOf_threeJobs
  rw [entries] at made
  have outputs : threeJobEntries.map (fun entry => entry.output.map fun text =>
      (directoryOf (Path.join ⟨"."⟩ ⟨".graphqlconfig"⟩)).join ⟨text⟩) =
        (jobs.map Job.output).map some := by
    rw [List.map_map, ← List.forall₂_eq_eq_eq, List.forall₂_map_left_iff,
      List.forall₂_map_right_iff]
    exact made.imp fun _ _ asks => asks.output
  have there : threeJobEntries.map (fun entry => entry.output.map fun text =>
      (directoryOf (Path.join ⟨"."⟩ ⟨".graphqlconfig"⟩)).join ⟨text⟩) =
        [⟨"./a"⟩, ⟨"./a/b"⟩, ⟨"./c"⟩].map some := by decide +kernel
  exact List.map_injective_iff.mpr (fun _ _ => Option.some.inj) (outputs.symm.trans there)

/-- The first job is saved, the second fails on what it left, and the third has no effect. -/
theorem runConfig_ends_threeJobs :
    let ran := (runConfig none : StateM World Outcome).run ⟨threeJobsFiles, []⟩
    (∃ configPath projects jobs e, Config.Lists ⟨"."⟩ threeJobsFiles configPath projects jobs ∧
      jobs.map Job.output = [⟨"./a"⟩, ⟨"./a/b"⟩, ⟨"./c"⟩] ∧
      Job.Ends threeJobsFiles jobs [⟨"./a"⟩] (some e) ran.2.files ∧
      ran.1.Reports [⟨"./a"⟩] (some e.chain)) ∧
    (ran.2.files.read ⟨"a"⟩).toOption = some (Text.encodeUtf8 "scalar A\n\nscalar B\n") ∧
    ran.2.files.isFile ⟨"c"⟩ = false := by
  have facts : let ran := (runConfig none : StateM World Outcome).run ⟨threeJobsFiles, []⟩
      ran.1.stdout = some (Outcome.savedLine ⟨"./a"⟩) ∧ ran.1.exitCode = 1 ∧
      (ran.2.files.read ⟨"a"⟩).toOption = some (Text.encodeUtf8 "scalar A\n\nscalar B\n") ∧
      ran.2.files.isFile ⟨"c"⟩ = false := by decide +kernel
  have ended := (runConfig_ends none ⟨threeJobsFiles, []⟩).1
  revert facts ended
  generalize (runConfig none : StateM World Outcome).run ⟨threeJobsFiles, []⟩ = ran
  rintro ⟨told, exitCode, left⟩ ended
  refine ⟨?_, left⟩
  rcases ended with ⟨e, -, unstarted⟩ |
    ⟨configPath, projects, jobs, saved, failure, lists, ends, reports⟩
  · have silent := unstarted.report.stdout.symm.trans told
    simp at silent
  · have outputs := lists.outputs_threeJobs
    have lines := reports.stdout.symm.trans told
    cases failure with
    | none => cases reports.exitCode.symm.trans exitCode
    | some e =>
      refine ⟨configPath, projects, jobs, e, lists, outputs, ?_⟩
      obtain ⟨more, split, whole⟩ := ends.outputs_eq
      rw [outputs] at split
      -- The report has one line, so just the first output was saved.
      rcases saved with _ | ⟨first, _ | ⟨second, _ | ⟨third, saved⟩⟩⟩
      · simp at lines
      · obtain rfl := (List.cons.inj split).1
        exact ⟨ends, reports⟩
      · obtain ⟨rfl, next⟩ := List.cons.inj split
        obtain ⟨rfl, -⟩ := List.cons.inj next
        rw [if_neg (by simp)] at lines
        exact absurd lines (by decide +kernel)
      · have lengths := congrArg List.length split
        simp only [List.length_cons, List.length_nil, List.length_append] at lengths
        cases whole.mpr (List.length_eq_zero_iff.mp (by omega))

end SchemaOverlay
