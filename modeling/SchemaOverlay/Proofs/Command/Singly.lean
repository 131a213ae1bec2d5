import SchemaOverlay.Proofs.Command.Run

/-!
The jobs of a configuration run together, and each by a configuration of its own. What the texts of a
job stand for is settled before the first job runs, so the two agree only as long as no job changes
what a text of a later one stands for.
-/
namespace SchemaOverlay

open World

namespace Outcome

/-- What commands that ran one after another report, put together. -/
def together (outcomes : List Outcome) : Outcome :=
  let told := outcomes.filterMap stdout
  let good := outcomes.all success
  ⟨good, if told = [] ∧ good = false then none else some (Sdl.joinWith "\n" told),
    outcomes.findSome? stderr⟩

def ofEach (ran : List Path × Option JobError) : List Outcome :=
  ran.1.map (fun output => allSaved [output]) ++
    ran.2.toList.map fun e => failedAfter [] e.chain

theorem together_ofEach (ran : List Path × Option JobError) : together (ofEach ran) = ofJobs ran := by
  obtain ⟨saved, failure⟩ := ran
  have told : (saved.map fun output => allSaved [output]).filterMap stdout = saved.map savedLine := by
    rw [List.filterMap_map, ← List.filterMap_eq_map]
    rfl
  have good : (saved.map fun output => allSaved [output]).all success = true := by
    simp [allSaved, done]
  have quiet : (saved.map fun output => allSaved [output]).findSome? stderr = none := by
    simp [allSaved, done]
  unfold together ofEach
  simp only [List.filterMap_append, List.all_append, List.findSome?_append, told, good, quiet]
  cases failure with
  | none => simp [ofJobs, allSaved, done]
  | some e => simp [ofJobs, failedAfter]

end Outcome

namespace Config

theorem run_eq (config : Config) (configPath : Path) :
    config.run configPath =
      config.jobs configPath >>= fun made => carryOut (made.map (configPath, ·)) := by
  refine bind_congr fun made => ?_
  cases made <;> rfl

theorem ignoresLog_run (config : Config) (configPath : Path) : IgnoresLog (config.run configPath) := by
  rw [run_eq]
  exact (onlyReads_jobs config configPath).toIgnoresLog.bind fun _ => ignoresLog_carryOut _

theorem run_of_made {config : Config} {configPath : Path} {files : FileSystem} {jobs : List Job}
    (made : config.entries.map (JobEntry.jobAt files (directoryOf configPath)) = jobs.map some) :
    answer (config.run configPath) files = .ofJobs (answer (runJobs jobs) files) ∧
      left (config.run configPath) files = left (runJobs jobs) files := by
  rw [run_eq, answer_bind_of_onlyReads (onlyReads_jobs config configPath) fun _ =>
      ignoresLog_carryOut _, left_bind_of_onlyReads (onlyReads_jobs config configPath) fun _ =>
      ignoresLog_carryOut _, answer_jobs_eq_ok_iff.mpr made]
  exact ⟨answer_runAll configPath jobs files, left_runAll configPath jobs files⟩

/-- Runs for each entry a configuration that lists it alone, until one fails. -/
def runSingly (configPath : Path) : List JobEntry → StateM World (List Outcome)
  | [] => return []
  | entry :: more => do
    let outcome ← (listing [entry]).run configPath
    if outcome.success then return outcome :: (← runSingly configPath more)
    return [outcome]

section Singly

variable {configPath : Path} {entry : JobEntry} {more : List JobEntry}
  {start now : FileSystem}

def followUp (configPath : Path) (more : List JobEntry) (outcome : Outcome) :
    StateM World (List Outcome) := do
  if outcome.success then return outcome :: (← runSingly configPath more)
  return [outcome]

theorem runSingly_cons (entry : JobEntry) (more : List JobEntry) :
    runSingly configPath (entry :: more) =
      (listing [entry]).run configPath >>= followUp configPath more := rfl

theorem ignoresLog_runSingly (entries : List JobEntry) :
    IgnoresLog (runSingly configPath entries) := by
  induction entries with
  | nil => exact (onlyReads_pure _).toIgnoresLog
  | cons entry more ih =>
    refine (ignoresLog_run _ configPath).bind fun outcome => ?_
    split
    · exact ih.bind fun _ => (onlyReads_pure _).toIgnoresLog
    · exact (onlyReads_pure _).toIgnoresLog

theorem ignoresLog_followUp (outcome : Outcome) : IgnoresLog (followUp configPath more outcome) := by
  unfold followUp
  split
  · exact (ignoresLog_runSingly more).bind fun _ => (onlyReads_pure _).toIgnoresLog
  · exact (onlyReads_pure _).toIgnoresLog

theorem run_listing_single {job : Job}
    (made : entry.jobAt now (directoryOf configPath) = some job) :
    answer ((listing [entry]).run configPath) now = .ofJobs (answer (runJobs [job]) now) ∧
      left ((listing [entry]).run configPath) now = left (runJobs [job]) now := by
  apply run_of_made
  rw [entries_listing, List.map_singleton, List.map_singleton, made]

theorem runSingly_of_error (more : List JobEntry) {job : Job} {e : JobError}
    (made : entry.jobAt now (directoryOf configPath) = some job)
    (fails : answer job.run now = .error e) :
    answer (runSingly configPath (entry :: more)) now = [.failedAfter [] e.chain] ∧
      left (runSingly configPath (entry :: more)) now = left job.run now := by
  obtain ⟨outcome, files⟩ := run_listing_single made
  obtain ⟨ran, kept⟩ := Job.runJobs_of_error [] fails
  rw [runSingly_cons, answer_bind ignoresLog_followUp, left_bind ignoresLog_followUp, outcome, files,
    ran, kept]
  exact ⟨rfl, rfl⟩

theorem runSingly_of_ok (more : List JobEntry) {job : Job} {output : Path}
    (made : entry.jobAt now (directoryOf configPath) = some job)
    (saves : answer job.run now = .ok output) :
    answer (runSingly configPath (entry :: more)) now =
        .allSaved [output] :: answer (runSingly configPath more) (left job.run now) ∧
      left (runSingly configPath (entry :: more)) now =
        left (runSingly configPath more) (left job.run now) := by
  obtain ⟨outcome, files⟩ := run_listing_single made
  obtain ⟨ran, kept⟩ := Job.runJobs_of_ok [] saves
  rw [runSingly_cons, answer_bind ignoresLog_followUp, left_bind ignoresLog_followUp, outcome, files,
    ran, kept]
  exact ⟨rfl, rfl⟩

/-- Every text stands for the same input when the turn of its entry comes, where the entries are run
singly from `now`, as when the jobs were made at `start`. -/
def Steady (configPath : Path) (start now : FileSystem) (entries : List JobEntry) : Prop :=
  ∀ early entry later, entries = early ++ entry :: later →
    (answer (runSingly configPath early) now).all Outcome.success = true →
    ∀ text ∈ entry.texts,
      inputAt (left (runSingly configPath early) now) (directoryOf configPath) text =
        inputAt start (directoryOf configPath) text

theorem Steady.head (steady : Steady configPath start now (entry :: more)) :
    entry.jobAt now (directoryOf configPath) = entry.jobAt start (directoryOf configPath) :=
  JobEntry.jobAt_congr (steady [] entry more rfl rfl)

theorem Steady.tail {job : Job} {output : Path} (steady : Steady configPath start now (entry :: more))
    (made : entry.jobAt now (directoryOf configPath) = some job)
    (saves : answer job.run now = .ok output) :
    Steady configPath start (left job.run now) more := by
  intro early turn later same succeed
  obtain ⟨outcomes, files⟩ := runSingly_of_ok early made saves
  rw [← files]
  refine steady (entry :: early) turn later (by rw [same, List.cons_append]) ?_
  rw [outcomes, List.all_cons, succeed]
  rfl

theorem runSingly_of_steady {entries : List JobEntry} {jobs : List Job}
    (steady : Steady configPath start now entries)
    (made : entries.map (JobEntry.jobAt start (directoryOf configPath)) = jobs.map some) :
    answer (runSingly configPath entries) now = Outcome.ofEach (answer (runJobs jobs) now) ∧
      left (runSingly configPath entries) now = left (runJobs jobs) now := by
  -- What the first job leaves is where the later ones start, so `now` moves on and `start` does not.
  induction entries generalizing now jobs with
  | nil =>
    obtain rfl : jobs = [] := List.map_eq_nil_iff.mp made.symm
    exact ⟨rfl, rfl⟩
  | cons entry more ih =>
    obtain ⟨job, others, rfl, first, rest⟩ := List.map_eq_cons_iff.mp made.symm
    have turn : entry.jobAt now (directoryOf configPath) = some job := steady.head.trans first.symm
    cases ran : answer job.run now with
    | error e =>
      obtain ⟨whole, wholeFiles⟩ := Job.runJobs_of_error others ran
      obtain ⟨singly, singlyFiles⟩ := runSingly_of_error more turn ran
      rw [whole, wholeFiles, singly, singlyFiles]
      exact ⟨rfl, rfl⟩
    | ok output =>
      obtain ⟨whole, wholeFiles⟩ := Job.runJobs_of_ok others ran
      obtain ⟨singly, singlyFiles⟩ := runSingly_of_ok more turn ran
      obtain ⟨outcomes, files⟩ := ih (steady.tail turn ran) rest.symm
      rw [whole, wholeFiles, singly, singlyFiles, outcomes, files]
      exact ⟨rfl, rfl⟩

end Singly

/-- Jobs run together as each by itself, as long as every text stands for the same when the turn of its
job comes as before the first job: the same files are left, and the same is reported. Then a text that
names a file when its turn comes, such as the output of an earlier job, is read from that file. -/
theorem run_eq_singly {config : Config} {configPath : Path} {w : World}
    (complete : ∀ entry ∈ config.entries, entry.isComplete = true)
    (steady : Steady configPath w.files w.files config.entries) :
    let whole := (config.run configPath : StateM World Outcome).run w
    let singly := (runSingly configPath config.entries).run w
    (whole.1 = .together singly.1 ∧ whole.2.files = singly.2.files) ∧
    ∀ early entry later text p, config.entries = early ++ entry :: later →
      (answer (runSingly configPath early) w.files).all Outcome.success = true →
      text ∈ entry.texts → '\n' ∉ text.toList →
      Input.namedFile? (left (runSingly configPath early) w.files) (directoryOf configPath) text =
        some p →
      inputAt w.files (directoryOf configPath) text = .path p := by
  have made := filterMap_jobAt w.files (directoryOf configPath) complete
  obtain ⟨whole, wholeFiles⟩ := run_of_made made
  obtain ⟨singly, singlyFiles⟩ := runSingly_of_steady steady made
  dsimp only
  rw [(ignoresLog_run config configPath).answers, (ignoresLog_run config configPath).leaves,
    (ignoresLog_runSingly config.entries).answers, (ignoresLog_runSingly config.entries).leaves,
    whole, wholeFiles, singly, singlyFiles, Outcome.together_ofEach]
  refine ⟨⟨rfl, rfl⟩, fun early entry later text p place succeed member line named => ?_⟩
  rw [← steady early entry later place succeed text member]
  exact Input.inputAt_of_named line named

def inTurn : List JobEntry :=
  [⟨some "base.graphql", some "scalar B @create", some "scalar A"⟩,
    ⟨some "final.graphql", some "scalar C @create", some "base.graphql"⟩]

def nothingThere : FileSystem := ⟨.directory .empty, []⟩

def baseThere : FileSystem := ⟨.directory (Keyed.empty.insert "base.graphql" (.file [])), []⟩

/-- Where the output of the first job is there before, the second reads what the first has written. -/
theorem run_eq_singly_rewritten :
    let whole := ((listing inTurn).run ⟨".graphqlconfig"⟩ : StateM World Outcome).run ⟨baseThere, []⟩
    let singly := (runSingly ⟨".graphqlconfig"⟩ inTurn).run ⟨baseThere, []⟩
    (whole.1 = .together singly.1 ∧ whole.2.files = singly.2.files) ∧
    (whole.2.files.read ⟨"final.graphql"⟩).toOption =
      some (Text.encodeUtf8 "scalar A\n\nscalar B\n\nscalar C\n") := by
  have complete : ∀ entry ∈ (listing inTurn).entries, entry.isComplete = true := by
    rw [entries_listing]
    decide
  have steady : Steady ⟨".graphqlconfig"⟩ baseThere baseThere (listing inTurn).entries := by
    rw [entries_listing]
    intro early entry later place succeed text member
    apply Input.inputAt_congr
    rcases early with _ | ⟨first, _ | ⟨second, early⟩⟩
    · exact ⟨rfl, Or.inr rfl⟩
    · obtain ⟨rfl, rfl⟩ : first = inTurn[0] ∧ entry = inTurn[1] := by
        simp only [inTurn, List.cons_append, List.nil_append, List.cons.injEq] at place
        exact ⟨place.1.symm, place.2.1.symm⟩
      rcases List.mem_pair.mp member with rfl | rfl
      · exact ⟨by decide +kernel, Or.inr (by decide +kernel)⟩
      · exact ⟨by decide +kernel, Or.inr (by decide +kernel)⟩
    · simp [inTurn] at place
  exact ⟨(run_eq_singly complete steady).1, by decide +kernel⟩

/-- Where it is not, the second job has been made before the file is there: its schema is taken for a
text of its own, and fails. Run singly, both jobs succeed. -/
theorem run_eq_singly_premature :
    let whole := ((listing inTurn).run ⟨".graphqlconfig"⟩ : StateM World Outcome).run ⟨nothingThere, []⟩
    let singly := (runSingly ⟨".graphqlconfig"⟩ inTurn).run ⟨nothingThere, []⟩
    (whole.1.success = false ∧ whole.1.stdout = some (Outcome.savedLine ⟨"base.graphql"⟩) ∧
      (whole.2.files.read ⟨"final.graphql"⟩).toOption = none) ∧
    Outcome.together singly.1 = .allSaved [⟨"base.graphql"⟩, ⟨"final.graphql"⟩] ∧
    (singly.2.files.read ⟨"final.graphql"⟩).toOption =
      some (Text.encodeUtf8 "scalar A\n\nscalar B\n\nscalar C\n") := by
  decide +kernel

end Config

end SchemaOverlay
