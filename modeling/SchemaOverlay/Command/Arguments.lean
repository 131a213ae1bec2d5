import SchemaOverlay.Files.Path
import SchemaOverlay.Keyed

/-!
The command line: the words after the program's name, read from left to right. The first word that
does not fit ends the reading, and so does a request for help; what is missing is noticed last.

An option takes its value from the same word or from the next one. A value in a word of its own is
settled when the next option begins or the words end, so that is when a fault in it is told.
-/
namespace SchemaOverlay

inductive Command
  | apply (schema overrides : String) (output : Path)
  | config (path : Option Path)
  deriving DecidableEq, Repr

structure Invocation where
  verbose : Bool
  command : Option Command
  deriving DecidableEq, Repr

inductive Usage
  | displayHelp | displayVersion
  | missingRequiredArgument | unknownArgument | invalidSubcommand | invalidValue
  | argumentConflict | tooManyValues
  deriving DecidableEq, Repr

def Usage.exitCode : Usage → Nat
  | .displayHelp | .displayVersion => 0
  | _ => 2

namespace Arguments

inductive Scope
  | program | apply | config
  deriving DecidableEq, Repr

inductive Parameter
  | schema | overrides | output | config
  deriving DecidableEq, Repr

inductive Switch
  | verbose | help | version
  deriving DecidableEq, Repr

def Parameter.long : Parameter → String
  | .schema => "schema"
  | .overrides => "overrides"
  | .output => "output"
  | .config => "config"

def Parameter.short : Parameter → Char
  | .schema => 's'
  | .overrides => 'r'
  | .output => 'o'
  | .config => 'c'

def Parameter.isPath : Parameter → Bool
  | .output | .config => true
  | .schema | .overrides => false

def Switch.long : Switch → String
  | .verbose => "verbose"
  | .help => "help"
  | .version => "version"

def Switch.short : Switch → Char
  | .verbose => 'v'
  | .help => 'h'
  | .version => 'V'

def Scope.parameters : Scope → List Parameter
  | .program => []
  | .apply => [.schema, .overrides, .output]
  | .config => [.config]

def Scope.switches : Scope → List Switch
  | .program => [.verbose, .help, .version]
  | .apply | .config => [.verbose, .help]

structure Reading where
  scope : Scope
  verbose : Bool
  verboseBefore : Bool
  values : Keyed Parameter String
  /-- An option in a word of its own, and the word that followed it. -/
  pending : Option (Parameter × Option String)
  optionsEnded : Bool
  deriving Repr

def Reading.begin (scope : Scope) (verboseBefore : Bool) : Reading :=
  ⟨scope, false, verboseBefore, .empty, none, false⟩

namespace Reading

def store (r : Reading) (p : Parameter) (value : String) : Except Usage Reading :=
  if r.values.contains p then .error .argumentConflict
  else if p.isPath && value.isEmpty then .error .invalidValue
  else .ok { r with values := r.values.insert p value }

def settle (r : Reading) : Except Usage Reading :=
  match r.pending with
  | none => .ok r
  | some (_, none) => .error .invalidValue
  | some (p, some value) => { r with pending := none }.store p value

def switch (r : Reading) (s : Switch) : Except Usage Reading := do
  let r ← r.settle
  match s with
  | .help => throw .displayHelp
  | .version => throw .displayVersion
  | .verbose =>
    if r.verbose then throw .argumentConflict
    return { r with verbose := true }

def parameter (r : Reading) (p : Parameter) (value : Option String) : Except Usage Reading := do
  let r ← r.settle
  match value with
  | some value => r.store p value
  | none => return { r with pending := some (p, none) }

def long (r : Reading) (name : String) (value : Option String) : Except Usage Reading :=
  match r.scope.switches.find? (·.long = name), r.scope.parameters.find? (·.long = name) with
  | some s, _ => if value.isSome then .error .tooManyValues else r.switch s
  | none, some p => r.parameter p value
  | none, none => .error .unknownArgument

/-- A word of one dash and letters; after the letter of an option comes its value. -/
def cluster : Reading → List Char → Except Usage Reading
  | r, [] => .ok r
  | r, c :: rest =>
    match r.scope.switches.find? (·.short = c), r.scope.parameters.find? (·.short = c) with
    | some s, _ => do cluster (← r.switch s) rest
    | none, some p =>
      match rest with
      | [] => r.parameter p none
      | '=' :: value => r.parameter p (some (String.ofList value))
      | value => r.parameter p (some (String.ofList value))
    | none, none => .error .unknownArgument

def option (r : Reading) (word : List Char) : Except Usage Reading :=
  match word with
  | '-' :: '-' :: rest =>
    let name := String.ofList (rest.takeWhile (· ≠ '='))
    match rest.dropWhile (· ≠ '=') with
    | [] => r.long name none
    | _ :: value => r.long name (some (String.ofList value))
  | _ :: rest => r.cluster rest
  | [] => .ok r

def scopeOf? : String → Option Scope
  | "apply" => some .apply
  | "config" => some .config
  | _ => none

def helpOn : List String → Usage
  | [] => .displayHelp
  | [word] => if word = "help" || (scopeOf? word).isSome then .displayHelp else .invalidSubcommand
  | _ => .invalidSubcommand

/-- A word that is neither an option nor the value of one, where no command can stand. -/
def surplus (r : Reading) (word : String) : Usage :=
  match r.scope with
  | .program =>
    if word = "help" || (scopeOf? word).isSome then .unknownArgument else .invalidSubcommand
  | .apply | .config => .unknownArgument

def isOption (word : List Char) : Bool :=
  match word with
  | '-' :: _ :: _ => true
  | _ => false

def finish (r : Reading) : Except Usage Invocation := do
  let r ← r.settle
  let verbose := r.verbose || r.verboseBefore
  match r.scope with
  | .program => return ⟨verbose, none⟩
  | .config => return ⟨verbose, some (.config ((r.values.get? .config).map Path.mk))⟩
  | .apply =>
    match r.values.get? .schema, r.values.get? .overrides, r.values.get? .output with
    | some schema, some overrides, some output =>
      return ⟨verbose, some (.apply schema overrides ⟨output⟩)⟩
    | _, _, _ => throw .missingRequiredArgument

def words : Reading → List String → Except Usage Invocation
  | r, [] => r.finish
  | r, word :: rest =>
    if r.optionsEnded then .error (r.surplus word)
    else if word = "--" then words { r with optionsEnded := true } rest
    else if isOption word.toList then do words (← r.option word.toList) rest
    else
      match r.pending, r.scope, scopeOf? word with
      | some (p, none), _, _ => words { r with pending := some (p, some word) } rest
      | _, .program, some scope => words (begin scope r.verbose) rest
      | _, .program, none =>
        .error (if word = "help" then helpOn rest else .invalidSubcommand)
      | _, _, _ => .error .unknownArgument

end Reading

def read (words : List String) : Except Usage Invocation := (Reading.begin .program false).words words

end Arguments

end SchemaOverlay
