import SchemaOverlay.Edit.Draft
import SchemaOverlay.Sdl.Parser

/-!
A document opened for editing: three registries of drafts, each filed by name. The document is
written registry by registry; within one, what was there keeps its order and new definitions follow.
-/
namespace SchemaOverlay

open Sdl

structure Catalog where
  directives : Keyed Name Draft
  definitions : Keyed Name Draft
  extensions : Keyed Name Draft
  deriving Repr

namespace Catalog

def empty : Catalog := ⟨.empty, .empty, .empty⟩

instance : Inhabited Catalog := ⟨empty⟩

def registry (cat : Catalog) : Registry → Keyed Name Draft
  | .directives => cat.directives
  | .definitions => cat.definitions
  | .extensions => cat.extensions

def setRegistry (cat : Catalog) (r : Registry) (drafts : Keyed Name Draft) : Catalog :=
  match r with
  | .directives => { cat with directives := drafts }
  | .definitions => { cat with definitions := drafts }
  | .extensions => { cat with extensions := drafts }

def has (cat : Catalog) (r : Registry) (n : Name) : Bool := (cat.registry r).contains n

def get? (cat : Catalog) (r : Registry) (n : Name) : Option Draft := (cat.registry r).get? n

def names (cat : Catalog) (r : Registry) : List Name := (cat.registry r).keys

def size (cat : Catalog) : Nat :=
  cat.directives.size + cat.definitions.size + cat.extensions.size

def isEmpty (cat : Catalog) : Bool := cat.size == 0

/-- The extensions that have nothing left to extend. As text they would be no extensions. -/
def emptyExtensions (cat : Catalog) : List Draft := cat.extensions.values.filter (·.hasNoEntries)

def put (cat : Catalog) (r : Registry) (n : Name) (d : Draft) : Catalog :=
  cat.setRegistry r ((cat.registry r).insert n d)

def file (cat : Catalog) (r : Registry) (d : Draft) : Catalog := cat.put r d.name d

def draftFor (r : Registry) (d : Definition) : Except EditError Draft := do
  let draft ← Draft.ofDefinition d
  unless draft.registry = r do throw (.wrongRegistry draft.name draft.kind r)
  return draft

def existing (cat : Catalog) (r : Registry) (n : Name) : Except EditError Draft :=
  match cat.get? r n with
  | some draft => .ok draft
  | none => .error (.notFound n r)

def create (cat : Catalog) (r : Registry) (d : Definition) : Except EditError Catalog := do
  let draft ← draftFor r d
  if cat.has r draft.name then throw (.alreadyExists draft.name r)
  return cat.file r draft

def replace (cat : Catalog) (r : Registry) (d : Definition) : Except EditError Catalog := do
  let draft ← draftFor r d
  unless cat.has r draft.name do throw (.notFound draft.name r)
  return cat.file r draft

def upsert (cat : Catalog) (r : Registry) (d : Definition) : Except EditError Catalog := do
  let draft ← draftFor r d
  return cat.file r draft

def delete (cat : Catalog) (r : Registry) (n : Name) : Catalog :=
  cat.setRegistry r ((cat.registry r).erase n)

def remove (cat : Catalog) (r : Registry) (n : Name) : Except EditError Catalog :=
  if cat.has r n then .ok (cat.delete r n) else .error (.notFound n r)

def extend (cat : Catalog) (r : Registry) (d : Definition) : Except EditError Catalog := do
  let incoming ← draftFor r d
  let draft ← cat.existing r incoming.name
  return cat.put r incoming.name (← draft.extendWith incoming)

def exclude (cat : Catalog) (r : Registry) (d : Definition) : Except EditError Catalog := do
  let incoming ← draftFor r d
  let draft ← cat.existing r incoming.name
  return cat.put r incoming.name (← draft.excludeWith incoming)

/-- Files one more definition; a repeated name is merged into its first occurrence. -/
def add (cat : Catalog) (d : Definition) : Except EditError Catalog := do
  let draft ← Draft.ofDefinition d
  match cat.get? draft.registry draft.name with
  | some first => return cat.put draft.registry draft.name (← first.extendWith draft)
  | none => return cat.file draft.registry draft

def ofDocument (doc : Document) : Except EditError Catalog := doc.definitions.foldlM add empty

def toDocument (cat : Catalog) : Document :=
  ⟨Registry.all.flatMap fun r => (cat.registry r).values.map Draft.toDefinition⟩

def print (cat : Catalog) : String := cat.toDocument.print

/-- The document that a reader of the printed text sees. -/
def normalize (cat : Catalog) : Except SyntaxError Document := Document.parse cat.print

end Catalog

end SchemaOverlay
