import SchemaOverlay.Sdl.Syntax

/-!
The seven actions that a directive in an overrides document can ask for, and the order in which
they are carried out, whatever their order in the document.
-/
namespace SchemaOverlay

open Sdl

/-- To create needs that nothing of the name is there. To replace, remove, extend or exclude needs that
something is. To upsert or delete goes either way: the first replaces or adds, the second removes what may be
there. Extending merges what is missing into what is there, and excluding drops the listed entries of it. -/
inductive Action
  | create
  | delete
  | exclude
  | extend
  | remove
  | replace
  | upsert
  deriving DecidableEq, Repr

namespace Action

def all : List Action := [.create, .delete, .exclude, .extend, .remove, .replace, .upsert]

def typePhases : List Action :=
  [.create, .replace, .upsert, .delete, .remove, .extend, .exclude]

def memberPhases : List Action := [.create, .replace, .upsert, .delete, .remove]

def directiveName : Action → Name
  | .create => "create"
  | .delete => "delete"
  | .exclude => "exclude"
  | .extend => "extend"
  | .remove => "remove"
  | .replace => "replace"
  | .upsert => "upsert"

def ofDirectiveName? (n : Name) : Option Action := all.find? (·.directiveName = n)

theorem ofDirectiveName?_directiveName (a : Action) : ofDirectiveName? a.directiveName = some a := by
  cases a <;> decide

theorem ofDirectiveName?_eq_some_iff {n : Name} {a : Action} :
    ofDirectiveName? n = some a ↔ n = a.directiveName := by
  constructor
  · intro named
    rw [ofDirectiveName?] at named
    have same : a.directiveName = n := by simpa using List.find?_some named
    exact same.symm
  · rintro rfl
    exact ofDirectiveName?_directiveName a

theorem exists_directiveName_iff {n : Name} : (∃ a : Action, n = a.directiveName) ↔
    n ∈ ["create", "delete", "exclude", "extend", "remove", "replace", "upsert"] := by
  constructor
  · rintro ⟨a, rfl⟩
    cases a <;> decide
  · intro listed
    have known : n ∈ all.map directiveName := listed
    obtain ⟨a, _, rfl⟩ := List.mem_map.mp known
    exact ⟨a, rfl⟩

def text (a : Action) : String := "@" ++ a.directiveName

def appliesToMembers (a : Action) : Bool := memberPhases.contains a

def declarations : String :=
  let members := "SCALAR | OBJECT | FIELD_DEFINITION | INTERFACE | UNION | ENUM | ENUM_VALUE | " ++
    "INPUT_OBJECT | INPUT_FIELD_DEFINITION"
  let types := "SCALAR | OBJECT | INTERFACE | UNION | ENUM | INPUT_OBJECT"
  let declare (a : Action) : String :=
    "directive " ++ a.text ++ " on " ++ (if a.appliesToMembers then members else types) ++ "\n"
  String.join ([create, replace, upsert, remove, delete, extend, exclude].map declare)

end Action

end SchemaOverlay
