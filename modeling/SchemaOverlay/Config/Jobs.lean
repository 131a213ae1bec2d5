import SchemaOverlay.Config
import SchemaOverlay.Job

/-!
From a configuration file to its jobs. Paths in a configuration are seen from the directory it lies in,
and no job is made if any is incomplete.
-/
namespace SchemaOverlay

inductive ConfigError
  | nothingAt (path : Path)
  | noConfigIn (directory : Path)
  | unreadable (path : Path) (error : FileError)
  | unparsable (path : Path) (fault : ConfigFault)
  | incompleteJob (index : Nat) (project : Option String)
  deriving DecidableEq, Repr

namespace Config

def fileNames : List String := [".graphqlconfig", ".graphqlconfig.json"]

end Config

def ConfigError.chain : ConfigError → List String
  | .nothingAt p => [s!"No config file or directory exists at `{p.text}`"]
  | .noConfigIn p =>
    ["No " ++ Sdl.joinWith " or " Config.fileNames ++ s!" file found in `{p.text}`"]
  | .unreadable p e => [s!"Failed to read `{p.text}`", e.text]
  | .unparsable p fault => [s!"Failed to parse `{p.text}`", fault.message]
  | .incompleteJob index project =>
    let place := match project with
      | some name => s!"project `{name}`"
      | none => "the config"
    [s!"Invalid override job #{index} in {place}",
      "`schema`, `overrides`, and `output` must all be provided for each override job"]

namespace Config

variable {m : Type → Type} [Monad m] [Host m]

def firstFile : List Path → m (Option Path)
  | [] => return none
  | p :: more => do if ← Host.isFile p then return some p else firstFile more

/-- A path that is a file is the configuration itself; in a directory it is looked for. -/
def locate (path : Path) : m (Except ConfigError Path) := do
  if ← Host.isFile path then return .ok path
  unless ← Host.isDirectory path do return .error (.nothingAt path)
  match ← firstFile (fileNames.map fun name => path.join ⟨name⟩) with
  | some p => return .ok p
  | none => return .error (.noConfigIn path)

def readText (path : Path) : m (Except ConfigError String) := do
  match ← Host.read path with
  | .error e => return .error (.unreadable path e)
  | .ok bytes =>
    match Text.decodeUtf8 bytes with
    | .error _ => return .error (.unreadable path FileFault.notText.named)
    | .ok text => return .ok text

def load (path : Path) : m (Except ConfigError Config) := do
  match ← readText path with
  | .error e => return .error e
  | .ok text => return (parse text).mapError (.unparsable path)

/-- The input that a text in a job stands for: a file seen from `base`, if there is one. -/
def jobInput (base : Path) (text : String) : m Input := do
  let candidate := base.join ⟨Text.trim text⟩
  if text.toList.contains '\n' then Input.infer text
  else if ← Host.isFile candidate then return .path candidate
  else Input.infer text

def entryJob (base : Path) (entry : JobEntry) : m (Option Job) := do
  match entry.schema, entry.overrides, entry.output with
  | some schema, some overrides, some output =>
    let overrides ← jobInput base overrides
    let schema ← jobInput base schema
    return some { output := base.join ⟨output⟩, overrides, schema }
  | _, _, _ => return none

def entryJobs (base : Path) (name : Option String) :
    Nat → List JobEntry → m (Except ConfigError (List Job))
  | _, [] => return .ok []
  | index, entry :: more => do
    match ← entryJob base entry with
    | none => return .error (.incompleteJob index name)
    | some job => return (job :: ·) <$> (← entryJobs base name (index + 1) more)

def shownName : Option String → String
  | none => "None"
  | some name => "Some(" ++ Text.quoted name ++ ")"

def projectJobs (base : Path) (name : Option String) (project : Project) :
    m (Except ConfigError (List Job)) := do
  match project.jobs with
  | some entries => entryJobs base name 0 entries
  | none =>
    Host.tell ⟨.trace, s!"Project {shownName name} has no override jobs."⟩
    return .ok []

def allJobs (base : Path) :
    List (Option String × Project) → m (Except ConfigError (List Job))
  | [] => return .ok []
  | (name, project) :: more => do
    match ← projectJobs base name project with
    | .error e => return .error e
    | .ok jobs => return (jobs ++ ·) <$> (← allJobs base more)

def directoryOf (configPath : Path) : Path := configPath.parent?.getD ⟨""⟩

def jobs (config : Config) (configPath : Path) : m (Except ConfigError (List Job)) :=
  allJobs (directoryOf configPath) config.effectiveProjects

end Config

end SchemaOverlay
