import SchemaOverlay.Command.Arguments
import SchemaOverlay.Config.Jobs

/-!
The commands: a single job from the command line, or all the jobs of a configuration, one after
another until one fails.
-/
namespace SchemaOverlay

structure Outcome where
  success : Bool
  stdout : Option String
  stderr : Option String
  deriving DecidableEq, Repr

namespace Outcome

def done (text : String) : Outcome := ⟨true, some text, none⟩

def savedLine (output : Path) : String := s!"✅ new schema saved to: {output.text}"

def failureLine (chain : List String) : String := "❌ " ++ joinChain chain

def failed (chain : List String) : Outcome := ⟨false, none, some (failureLine chain)⟩

def failedAfter (saved : List Path) (chain : List String) : Outcome :=
  let told := if saved.isEmpty then none else some (Sdl.joinWith "\n" (saved.map savedLine))
  ⟨false, told, some (failureLine chain)⟩

def allSaved (saved : List Path) : Outcome := done (Sdl.joinWith "\n" (saved.map savedLine))

def exitCode (o : Outcome) : Nat := if o.success then 0 else 1

end Outcome

variable {m : Type → Type} [Monad m] [Host m]

/-- Runs jobs until one fails; the answer is what was saved, and the failure. -/
def runJobs : List Job → m (List Path × Option JobError)
  | [] => return ([], none)
  | job :: more => do
    match ← job.run with
    | .error e => return ([], some e)
    | .ok output =>
      let (saved, failure) ← runJobs more
      return (output :: saved, failure)

def jobOfWords (schema overrides : String) (output : Path) : m Job := do
  let overrides ← Input.infer overrides
  let schema ← Input.infer schema
  return { output, overrides, schema }

def runApply (schema overrides : String) (output : Path) : m Outcome := do
  let job ← jobOfWords schema overrides output
  match ← job.run with
  | .ok output => return .done (Outcome.savedLine output)
  | .error e => return .failed e.chain

def runAll (configPath : Path) (jobs : List Job) : m Outcome := do
  if jobs.isEmpty then
    Host.tell ⟨.warn, Text.quoted configPath.text ++
      " lists no `extensions.override` jobs; nothing to do."⟩
  match ← runJobs jobs with
  | (saved, none) => return .allSaved saved
  | (saved, some e) => return .failedAfter saved e.chain

/-- Runs a configuration. All its jobs are made before the first of them runs. -/
def Config.run (config : Config) (configPath : Path) : m Outcome := do
  match ← config.jobs configPath with
  | .error e => return .failed e.chain
  | .ok jobs => runAll configPath jobs

def runConfig (path : Option Path) : m Outcome := do
  match ← Config.locate (path.getD ⟨"."⟩) with
  | .error e => return .failed e.chain
  | .ok configPath =>
    Host.tell ⟨.debug, s!"Loading override jobs from {Text.quoted configPath.text}."⟩
    match ← Config.load configPath with
    | .error e => return .failed e.chain
    | .ok config => config.run configPath

def Command.run : Command → m Outcome
  | .apply schema overrides output => runApply schema overrides output
  | .config path => runConfig path

end SchemaOverlay
