import SchemaOverlay.Log
import SchemaOverlay.Overlay.Error
import SchemaOverlay.Sdl.Entry
import SchemaOverlay.Sdl.Use

/-!
The plan of an overrides document: the edits its action directives ask for, in the order of the
walk. Each edit holds the annotated node without the one directive that asked for it.
-/
namespace SchemaOverlay

open Sdl

structure TypeEdit where
  action : Action
  definition : Definition
  kind : Kind
  name : Name
  deriving Repr

structure MemberEdit where
  action : Action
  entry : Entry
  registry : Registry
  collection : Collection
  typeName : Name
  /-- Whether the node around the member carries an action directive itself. -/
  withinTypeEdit : Bool
  deriving Repr

def TypeEdit.registry (e : TypeEdit) : Registry := e.kind.registry

structure Plan where
  typeEdits : List TypeEdit
  memberEdits : List MemberEdit
  deriving Repr

namespace Plan

def empty : Plan := ⟨[], []⟩

instance : Inhabited Plan := ⟨empty⟩

def isEmpty (p : Plan) : Bool := p.memberEdits.isEmpty && p.typeEdits.isEmpty

def describeDefinition (d : Definition) : String :=
  match d.kind?, d.name? with
  | some kind, some name => s!"{kind.word} `{name}`"
  | _, _ => "the schema definition"

def describeSite : Site → String
  | .definition d => describeDefinition d
  | .field d f => s!"field `{f.name}` (in {describeDefinition d})"
  | .argument d f v => s!"input value `{v.name}` (in field `{f.name}` in {describeDefinition d})"
  | .inputValue d v => s!"input value `{v.name}` (in {describeDefinition d})"
  | .enumValue d v => s!"enum value `{v.name}` (in {describeDefinition d})"

def typeNode? : Definition → Option TypeNode
  | .type _ node | .extension node => some node
  | .schema _ | .directive _ => none

def carriesAction (d : Definition) : Bool :=
  d.directives.any fun use => (Action.ofDirectiveName? use.name).isSome

def dropDirective (d : Definition) (index : Nat) : Definition :=
  let drop (node : TypeNode) : TypeNode := { node with directives := node.directives.eraseIdx index }
  match d with
  | .type description node => .type description (drop node)
  | .extension node => .extension (drop node)
  | d => d

abbrev Classifier := StateT Plan (Except OverlayError)

def recordType (a : Action) (d : Definition) (kind : Kind) (name : Name) (index : Nat) :
    Classifier PUnit :=
  modify fun p =>
    { p with typeEdits := p.typeEdits ++ [⟨a, dropDirective d index, kind, name⟩] }

def recordMember (a : Action) (d : Definition) (kind : Kind) (name : Name) (c : Collection)
    (e : Entry) : Classifier PUnit := do
  if !a.appliesToMembers then throw (.unsupportedOnMember a name e.name)
  modify fun p =>
    { p with memberEdits := p.memberEdits ++ [⟨a, e, kind.registry, c, name, carriesAction d⟩] }

/-- Records the edit that an action directive on a site asks for. Actions belong on types and on
their direct members. -/
def recordAction (a : Action) (site : Site) (index : Nat) : Classifier PUnit := do
  let misplaced : Classifier PUnit := throw (.invalidTarget a (describeSite site))
  match site with
  | .definition d =>
    match typeNode? d, d.kind? with
    | some node, some kind => recordType a d kind node.name index
    | _, _ => misplaced
  | .field d f =>
    match typeNode? d, d.kind? with
    | some node, some kind =>
      recordMember a d kind node.name .fields
        (.field { f with directives := f.directives.eraseIdx index })
    | _, _ => misplaced
  | .inputValue d v =>
    match typeNode? d, d.kind? with
    | some node, some kind =>
      recordMember a d kind node.name .fields
        (.inputValue { v with directives := v.directives.eraseIdx index })
    | _, _ => misplaced
  | .enumValue d v =>
    match typeNode? d, d.kind? with
    | some node, some kind =>
      recordMember a d kind node.name .values
        (.enumValue { v with directives := v.directives.eraseIdx index })
    | _, _ => misplaced
  | .argument .. => misplaced

def recordUse (u : Use) : Classifier PUnit :=
  match Action.ofDirectiveName? u.directive.name with
  | some a => recordAction a u.site u.index
  | none => pure ⟨⟩

/-- Refuses a plan in which one node asks for edits of its type and of a member of it. Separate nodes
for one type may do so. -/
def checkUnambiguous (p : Plan) : Except OverlayError Unit :=
  match p.memberEdits.find? (·.withinTypeEdit) with
  | some e => .error (.ambiguous e.typeName)
  | none => .ok ()

def ofDocument (doc : Document) : Except OverlayError Plan := do
  let (_, plan) ← (doc.walk recordUse).run empty
  plan.checkUnambiguous
  return plan

def classified (p : Plan) : LogRecord :=
  let types := p.typeEdits.length
  let members := p.memberEdits.length
  ⟨.debug, s!"Classified {types} type action(s) and {members} field action(s)."⟩

end Plan

end SchemaOverlay
