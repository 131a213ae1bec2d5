import SchemaOverlay.Job
import SchemaOverlay.Proofs.Host

/-!
What a job has to do with the files. Reading its inputs and merging them changes nothing, and what
comes of the job hangs on the files alone.
-/
namespace SchemaOverlay

open World

namespace Input

theorem onlyLooks_infer (text : String) : OnlyLooks (infer text) := by
  unfold infer
  apply OnlyLooks.ite (onlyLooks_pure _)
  refine (onlyLooks_isFile _).bind fun there => ?_
  exact OnlyLooks.ite (onlyLooks_pure _) (onlyLooks_pure _)

theorem onlyLooks_readText (p : Path) : OnlyLooks (readText p) := by
  unfold readText
  refine (onlyLooks_isFile p).bind fun there => ?_
  apply OnlyLooks.ite _ (onlyLooks_pure _)
  refine (onlyLooks_read p).bind fun content => ?_
  cases content with
  | error e => exact onlyLooks_pure _
  | ok bytes => exact onlyLooks_pure _

theorem onlyLooks_resolve (label : String) (input : Input) : OnlyLooks (resolve label input) := by
  cases input with
  | document doc => exact onlyLooks_pure _
  | sdl text => exact onlyLooks_pure _
  | path p =>
    refine (onlyLooks_readText p).bind fun read => ?_
    cases read with
    | error e => exact onlyLooks_pure _
    | ok text => exact onlyLooks_pure _

end Input

theorem onlyReads_mergeTelling (schema overrides : Sdl.Document) :
    OnlyReads (mergeTelling schema overrides) := by
  unfold mergeTelling
  exact (onlyReads_tellAll _).bind fun _ => onlyReads_pure _

theorem onlyReads_build (schema overrides : Input) : OnlyReads (build schema overrides) := by
  unfold build
  refine (Input.onlyLooks_resolve _ schema).toOnlyReads.bind fun first => ?_
  cases first with
  | error e => exact onlyReads_pure _
  | ok base =>
    refine (Input.onlyLooks_resolve _ overrides).toOnlyReads.bind fun second => ?_
    cases second with
    | error e => exact onlyReads_pure _
    | ok edits => exact onlyReads_mergeTelling base edits

theorem goesOn_build (schema overrides : Input) : GoesOn (build schema overrides) := by
  unfold build
  refine (Input.onlyLooks_resolve _ schema).goesOn.bind fun first => ?_
  cases first with
  | error e => exact goesOn_pure _
  | ok base =>
    refine (Input.onlyLooks_resolve _ overrides).goesOn.bind fun second => ?_
    cases second with
    | error e => exact goesOn_pure _
    | ok edits => exact (goesOn_tellAll _).bind fun _ => goesOn_pure _

/-- What two inputs make of each other: the schema is looked up first, then the overrides. -/
def merged (files : FileSystem) (schema overrides : Input) : Except BuildError Sdl.Document := do
  let base ← (answer (schema.resolve "schema") files).mapError .input
  let edits ← (answer (overrides.resolve "overrides") files).mapError .input
  (merge base edits).outcome.mapError .overlay

theorem answer_mergeTelling (schema overrides : Sdl.Document) (files : FileSystem) :
    answer (mergeTelling schema overrides) files =
      (merge schema overrides).outcome.mapError .overlay := by
  unfold mergeTelling
  rw [answer_bind_of_onlyReads (onlyReads_tellAll _) fun _ => (onlyReads_pure _).toIgnoresLog]
  rfl

theorem answer_build (schema overrides : Input) (files : FileSystem) :
    answer (build schema overrides) files = merged files schema overrides := by
  unfold build merged
  rw [(Input.onlyLooks_resolve _ schema).answer_bind]
  cases answer (schema.resolve "schema") files with
  | error e => rfl
  | ok base =>
    dsimp only
    rw [(Input.onlyLooks_resolve _ overrides).answer_bind]
    cases answer (overrides.resolve "overrides") files with
    | error e => rfl
    | ok edits => exact answer_mergeTelling base edits files

namespace Job

theorem onlyLooks_missingDirectory (output : Path) : OnlyLooks (missingDirectory output) := by
  unfold missingDirectory
  cases output.parent? with
  | none => exact onlyLooks_pure _
  | some parent =>
    apply OnlyLooks.ite (onlyLooks_pure _)
    refine (onlyLooks_isDirectory parent).bind fun there => ?_
    exact OnlyLooks.ite (onlyLooks_pure _) (onlyLooks_pure _)

theorem goesOn_prepareDirectory (output : Path) : GoesOn (prepareDirectory output) := by
  unfold prepareDirectory
  refine (onlyLooks_missingDirectory output).goesOn.bind fun missing => ?_
  cases missing with
  | none => exact goesOn_pure _
  | some parent =>
    refine (goesOn_tell _).bind fun _ => ?_
    exact (goesOn_makeDirectories parent).bind fun _ => goesOn_pure _

theorem goesOn_save (job : Job) (doc : Sdl.Document) : GoesOn (job.save doc) := by
  unfold save
  refine (goesOn_prepareDirectory job.output).bind fun prepared => ?_
  cases prepared with
  | error e => exact goesOn_pure _
  | ok _ => exact (goesOn_write _ _).bind fun _ => goesOn_pure _

theorem goesOn_run (job : Job) : GoesOn job.run := by
  unfold run
  refine (goesOn_tell _).bind fun _ => ?_
  refine (goesOn_build _ _).bind fun built => ?_
  cases built with
  | error e => exact goesOn_pure _
  | ok doc =>
    refine (goesOn_save job doc).bind fun saved => ?_
    cases saved with
    | error e => exact goesOn_pure _
    | ok _ => exact goesOn_pure _

theorem ignoresLog_run (job : Job) : IgnoresLog job.run := job.goesOn_run.toIgnoresLog

theorem answers_run (job : Job) : Answers (fun ran => ∀ p, ran = .ok p → p = job.output) job.run := by
  unfold run
  refine answers_bind fun _ => answers_bind fun built => ?_
  cases built with
  | error e => exact answers_pure nofun
  | ok doc =>
    refine answers_bind fun saved => ?_
    cases saved with
    | error e => exact answers_pure nofun
    | ok _ => exact answers_pure fun p same => (Except.ok.inj same).symm

end Job

end SchemaOverlay
