import SchemaOverlay.Command.Program
import SchemaOverlay.Proofs.Command.Run
import SchemaOverlay.Proofs.Files.Above

/-!
One job, given on the command line or as the only one of a configuration in the working directory. Both
commands make the same job of the same texts, and what comes of it is reported alike.
-/
namespace SchemaOverlay

open World

namespace Config

theorem directoryOf_plain {configPath : Path} (here : '/' ∉ configPath.text.toList) :
    directoryOf configPath = ⟨""⟩ := by
  unfold directoryOf Path.parent?
  rcases configPath.splitStart_cases with bare | ⟨rest, root, _⟩ | ⟨rest, text, dot, next⟩
  · simp only [bare, Path.splitSlash_plain here, List.reverse_singleton]
    by_cases idle : Path.isIdle configPath.text.toList = true
    · simp [Path.dropIdle, idle]
    · simp [Path.dropIdle, idle]
  · exact absurd (root ▸ List.mem_cons_self) here
  · -- A dot with no slash behind it has nothing behind it.
    cases rest with
    | nil => simp [dot, Path.splitSlash, Path.dropIdle, Path.isIdle]
    | cons c more =>
      rw [text, next c rfl] at here
      simp at here

theorem inputAt_here (files : FileSystem) (text : String) :
    inputAt files ⟨""⟩ text = Input.seenFrom files ⟨""⟩ text := by
  refine Input.inputAt_eq_seenFrom_iff.mpr ⟨fun p named => Or.inr ?_, id⟩
  exact (Input.namedFile?_alone_eq_some_iff.mp named).2.2

theorem isFile_of_load {configPath : Path} {files : FileSystem} {config : Config}
    (loaded : answer (load configPath) files = .ok config) : files.isFile configPath = true := by
  unfold load at loaded
  rw [(onlyLooks_readText configPath).answer_bind] at loaded
  unfold readText at loaded
  rw [(onlyLooks_read configPath).answer_bind, answer_read] at loaded
  cases read : files.read configPath with
  | ok content => exact FileSystem.isFile_of_read read
  | error f =>
    rw [read] at loaded
    cases loaded

theorem answer_locate_of_isFile {path : Path} {files : FileSystem} (is : files.isFile path = true) :
    answer (locate path) files = .ok path := by
  unfold locate
  rw [(onlyLooks_isFile path).answer_bind, answer_isFile, if_pos is]
  rfl

end Config

def Outcome.ofRun : Except JobError Path → Outcome
  | .ok output => .done (savedLine output)
  | .error e => .failed e.chain

def Job.alone (job : Job) : StateM World Outcome := job.run >>= fun ran => pure (.ofRun ran)

theorem Job.goesOn_alone (job : Job) : GoesOn job.alone :=
  job.goesOn_run.bind fun _ => goesOn_pure _

theorem answer_jobOfWords (schema overrides : String) (output : Path) (files : FileSystem) :
    answer (jobOfWords schema overrides output) files =
      ⟨output, Input.seenFrom files ⟨""⟩ overrides, Input.seenFrom files ⟨""⟩ schema⟩ := by
  unfold jobOfWords
  rw [(Input.onlyLooks_infer overrides).answer_bind, (Input.onlyLooks_infer schema).answer_bind,
    Input.answer_infer, Input.answer_infer]
  rfl

theorem onlyLooks_jobOfWords (schema overrides : String) (output : Path) :
    OnlyLooks (jobOfWords schema overrides output) :=
  (Input.onlyLooks_infer overrides).bind fun _ => (Input.onlyLooks_infer schema).bind fun _ =>
    onlyLooks_pure _

theorem runApply_eq (schema overrides : String) (output : Path) :
    (runApply schema overrides output : StateM World Outcome) =
      jobOfWords schema overrides output >>= Job.alone := by
  unfold runApply
  refine bind_congr fun job => bind_congr fun ran => ?_
  cases ran <;> rfl

theorem runAll_single (configPath : Path) (job : Job) :
    (runAll configPath [job] : StateM World Outcome) = job.alone := by
  unfold runAll
  rw [Job.runJobs_cons]
  simp only [List.isEmpty_cons, Bool.false_eq_true, ↓reduceIte, bind_assoc]
  refine bind_congr fun ran => ?_
  cases ran <;> rfl

theorem run_runApply (schema overrides : String) (output : Path) (w : World) :
    (runApply schema overrides output : StateM World Outcome).run w =
      (answer (jobOfWords schema overrides output) w.files).alone.run w := by
  rw [runApply_eq, (onlyLooks_jobOfWords schema overrides output).run_bind]

section Single

variable {schema overrides output : String} {configPath : Path} {config : Config}

theorem Config.answer_jobs_here (here : '/' ∉ configPath.text.toList)
    (only : config.entries = [⟨some output, some overrides, some schema⟩]) (files : FileSystem) :
    answer (config.jobs configPath) files =
      .ok [answer (jobOfWords schema overrides ⟨output⟩) files] := by
  rw [answer_jobs_eq_ok_iff, only, directoryOf_plain here, answer_jobOfWords, List.map_singleton,
    JobEntry.jobAt, inputAt_here, inputAt_here, Path.join_empty]
  rfl

theorem run_runConfig_here {w : World} (here : '/' ∉ configPath.text.toList)
    (loaded : answer (Config.load configPath) w.files = .ok config)
    (only : config.entries = [⟨some output, some overrides, some schema⟩]) :
    ∃ before, (∀ r ∈ before, r.isTold .usual = false) ∧
      (runConfig (some configPath) : StateM World Outcome).run w =
        (answer (jobOfWords schema overrides ⟨output⟩) w.files).alone.run
          ⟨w.files, w.log ++ before⟩ := by
  have reads := Config.onlyReads_prepare configPath
  have prepared : answer (Config.prepare configPath) w.files =
      .ok (configPath, [answer (jobOfWords schema overrides ⟨output⟩) w.files]) := by
    rw [Config.answer_prepare, Config.answer_locate_of_isFile (Config.isFile_of_load loaded)]
    simp only [loaded, Config.answer_jobs_here here only]
    rfl
  obtain ⟨before, log, silent⟩ := Config.tells_prepare
    (P := fun r => r.isTold .usual = false) (fun r level => by rw [LogRecord.isTold, level]; rfl)
    (fun _ => rfl) configPath w
  refine ⟨before, silent, ?_⟩
  have ran : (Config.prepare configPath).run w =
      (.ok (configPath, [answer (jobOfWords schema overrides ⟨output⟩) w.files]),
        ⟨w.files, w.log ++ before⟩) :=
    Prod.ext ((reads.answers w).trans prepared)
      (by rw [← log, ← (reads.leaves w).trans (reads.keeps _)])
  rw [runConfig_eq, Option.getD_some, StateT.run_bind, ran, ← runAll_single configPath]
  rfl

/-- A job on the command line is the same job in a configuration here. Of the same three texts both
commands make the same job, and so they answer alike and leave the same files behind. What is told differs
only below the usual level. -/
theorem run_config_eq_apply (here : '/' ∉ configPath.text.toList) {w : World}
    (loaded : answer (Config.load configPath) w.files = .ok config)
    (only : config.entries = [⟨some output, some overrides, some schema⟩]) :
    let applied := ((Command.apply schema overrides ⟨output⟩).run : StateM World Outcome).run w
    let configured := ((Command.config (some configPath)).run : StateM World Outcome).run w
    answer (config.jobs configPath) w.files =
        .ok [answer (jobOfWords schema overrides ⟨output⟩) w.files] ∧
      configured.1 = applied.1 ∧
      configured.2.files = applied.2.files ∧
      configured.2.log.filter (·.isTold .usual) = applied.2.log.filter (·.isTold .usual) := by
  obtain ⟨before, silent, configured⟩ := run_runConfig_here here loaded only
  have on := (answer (jobOfWords schema overrides ⟨output⟩) w.files).goesOn_alone
  refine ⟨Config.answer_jobs_here here only w.files, ?_⟩
  simp only [Command.run, configured, run_runApply, on.run_eq]
  have unheard : before.filter (·.isTold .usual) = [] :=
    List.filter_eq_nil_iff.mpr fun r member => by simp [silent r member]
  refine ⟨trivial, trivial, ?_⟩
  rw [List.filter_append, List.filter_append, List.filter_append, unheard, List.append_nil]

end Single

def aloneFiles : FileSystem :=
  let config := "\x7b\"extensions\":\x7b\"override\":[\x7b\"schema\":\" schema.graphql\"," ++
    "\"overrides\":\"scalar B\\n@create\",\"output\":\"build/out.graphql\"\x7d]\x7d\x7d"
  ⟨.directory (((Keyed.empty : Keyed String Node).insert ".graphqlconfig"
      (.file (Text.encodeUtf8 config))).insert "schema.graphql"
      (.file (Text.encodeUtf8 "scalar A"))), []⟩

def aloneConfig : Config :=
  Config.listing [⟨some "build/out.graphql", some "scalar B\n@create", some " schema.graphql"⟩]

theorem run_config_eq_apply_alone :
    let w : World := ⟨aloneFiles, []⟩
    let apply := Command.apply " schema.graphql" "scalar B\n@create" ⟨"build/out.graphql"⟩
    let applied := (apply.run : StateM World Outcome).run w
    let configured :=
      ((Command.config (some ⟨".graphqlconfig"⟩)).run : StateM World Outcome).run w
    answer (Config.load ⟨".graphqlconfig"⟩) w.files = .ok aloneConfig ∧
      answer (aloneConfig.jobs ⟨".graphqlconfig"⟩) w.files =
        .ok [answer (jobOfWords " schema.graphql" "scalar B\n@create" ⟨"build/out.graphql"⟩) w.files] ∧
      configured.1 = applied.1 ∧
      configured.2.files = applied.2.files ∧
      configured.2.log.filter (·.isTold .usual) = applied.2.log.filter (·.isTold .usual) := by
  have loaded : answer (Config.load ⟨".graphqlconfig"⟩) aloneFiles = .ok aloneConfig := by
    decide +kernel
  exact ⟨loaded, run_config_eq_apply (w := ⟨aloneFiles, []⟩) (by decide) loaded rfl⟩

end SchemaOverlay
