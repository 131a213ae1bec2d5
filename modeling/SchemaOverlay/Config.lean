import SchemaOverlay.Config.Json
import SchemaOverlay.Keyed

/-!
A configuration: either one project at the top level or a map of named projects, each with a list of
override jobs under `extensions.override`. Keys that mean nothing here are ignored.

The values of top-level keys other than `projects` are read in full before they are looked at, so
that even an ignored one has to hold proper texts and numbers and must not be nested too deeply. Inside
`projects`, what is ignored only has to be JSON.
-/
namespace SchemaOverlay

structure JobEntry where
  output : Option String
  overrides : Option String
  schema : Option String
  deriving DecidableEq, Repr

structure Project where
  jobs : Option (List JobEntry)
  deriving DecidableEq, Repr

structure Config where
  projects : Option (Keyed String Project)
  root : Project
  deriving DecidableEq, Repr

inductive ConfigFault
  | malformed
  | badText
  | outOfRange
  | tooDeep
  | duplicateKey (key : String)
  | unexpected (place : String)
  deriving DecidableEq, Repr

def ConfigFault.message : ConfigFault → String
  | .malformed => "not a JSON text"
  | .badText => "a text holds half of a surrogate pair"
  | .outOfRange => "a number is out of range"
  | .tooDeep => "values are nested too deeply"
  | .duplicateKey key => s!"duplicate key `{key}`"
  | .unexpected place => s!"unexpected value for {place}"

namespace Config

abbrev Decode (α : Type) := Except ConfigFault α

/-- The depth at which values may no longer be nested, the whole text counting as one level. -/
def depthLimit : Nat := 127

mutual

/-- Refuses a value that cannot be read in full. At most `room` values may be nested in it. -/
def readInFull (room : Nat) : Json → Decode Unit
  | .null | .boolean _ => .ok ()
  | .number x => if x.isTooLarge then .error .outOfRange else .ok ()
  | .text (some _) => .ok ()
  | .text none => .error .badText
  | .array items =>
    match room with
    | 0 => .error .tooDeep
    | room + 1 => readItems room items
  | .object members =>
    match room with
    | 0 => .error .tooDeep
    | room + 1 => readMembers room members

def readItems (room : Nat) : List Json → Decode Unit
  | [] => .ok ()
  | item :: rest => do
    readInFull room item
    readItems room rest

def readMembers (room : Nat) : List (Option String × Json) → Decode Unit
  | [] => .ok ()
  | (key, item) :: rest => do
    if key.isNone then throw .badText
    readInFull room item
    readMembers room rest

end

def keyed (members : List (Option String × Json)) : Decode (List (String × Json)) :=
  members.mapM fun (key, item) =>
    match key with
    | some key => .ok (key, item)
    | none => .error .badText

def single (key : String) (members : List (String × Json)) : Decode (Option Json) :=
  match members.filter (·.1 = key) with
  | [] => .ok none
  | [(_, item)] => .ok (some item)
  | _ => .error (.duplicateKey key)

def optionalText (place : String) : Option Json → Decode (Option String)
  | none | some .null => .ok none
  | some (.text (some s)) => .ok (some s)
  | some (.text none) => .error .badText
  | some _ => .error (.unexpected place)

/-- A job is an object, or the list of its three parts. -/
def decodeJob : Json → Decode JobEntry
  | .object members => do
    let members ← keyed members
    let output ← optionalText "output" (← single "output" members)
    let overrides ← optionalText "overrides" (← single "overrides" members)
    let schema ← optionalText "schema" (← single "schema" members)
    return ⟨output, overrides, schema⟩
  | .array [output, overrides, schema] => do
    let output ← optionalText "output" (some output)
    let overrides ← optionalText "overrides" (some overrides)
    let schema ← optionalText "schema" (some schema)
    return ⟨output, overrides, schema⟩
  | _ => .error (.unexpected "a job")

def decodeJobs : Option Json → Decode (Option (List JobEntry))
  | none | some .null => .ok none
  | some (.array items) => some <$> items.mapM decodeJob
  | some _ => .error (.unexpected "override")

def decodeExtensions : Option Json → Decode Project
  | none | some (.array []) => .ok ⟨none⟩
  | some (.object members) => do
    let jobs ← decodeJobs (← single "override" (← keyed members))
    return ⟨jobs⟩
  | some (.array [jobs]) => return ⟨← decodeJobs (some jobs)⟩
  | some _ => .error (.unexpected "extensions")

def decodeProject : Json → Decode Project
  | .object members => do decodeExtensions (← single "extensions" (← keyed members))
  | .array [] => .ok ⟨none⟩
  | .array [extensions] => decodeExtensions (some extensions)
  | _ => .error (.unexpected "a project")

/-- Of two projects with one name the later counts, in the place of the earlier. -/
def decodeProjects : Option Json → Decode (Option (Keyed String Project))
  | none | some .null => .ok none
  | some (.object members) => do
    let projects ← (← keyed members).mapM fun (name, item) =>
      return (name, ← decodeProject item)
    return some (Keyed.ofList projects)
  | some _ => .error (.unexpected "projects")

def decode : Json → Decode Config
  | .object members => do
    let members ← keyed members
    let rest := members.filter (·.1 ≠ "projects")
    rest.forM fun (_, item) => readInFull (depthLimit - 1) item
    let projects ← decodeProjects (← single "projects" members)
    let root ← decodeExtensions (← single "extensions" rest)
    return ⟨projects, root⟩
  | _ => .error (.unexpected "the configuration")

def parse (text : String) : Decode Config :=
  match Json.parse? text with
  | some json => decode json
  | none => .error .malformed

def effectiveProjects (config : Config) : List (Option String × Project) :=
  match config.projects with
  | some projects => projects.pairs.map fun (name, project) => (some name, project)
  | none => [(none, config.root)]

end Config

end SchemaOverlay
