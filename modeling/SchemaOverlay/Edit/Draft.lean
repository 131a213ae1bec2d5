import SchemaOverlay.Edit.Error
import SchemaOverlay.Keyed
import SchemaOverlay.Sdl.Entry
import SchemaOverlay.Sdl.Printer

/-!
A definition opened for editing. Its named entries are filed by collection and by name, so that each
can be found, overwritten or dropped; its skeleton is the definition without them. Entries keep the
order they had, and new ones follow.
-/
namespace SchemaOverlay

open Sdl

abbrev Entries := Keyed Name Entry

structure Draft where
  kind : Kind
  name : Name
  /-- The definition without any entry that a collection holds. -/
  skeleton : Definition
  collections : Keyed Collection Entries
  deriving Repr

/-- Files entries under their names; of two with one name the later stays, in the place of the
earlier. -/
def fileEntries (es : List Entry) : Entries := Keyed.ofList (es.map fun e => (e.name, e))

namespace Draft

def ofDefinition (d : Definition) : Except EditError Draft :=
  match d.kind?, d.name? with
  | some kind, some name => .ok {
      kind, name
      skeleton := kind.collections.foldl (fun d c => d.withEntries c []) d
      collections := Keyed.ofList (kind.collections.map fun c => (c, fileEntries (d.entries c))) }
  | _, _ => .error .unsupportedKind

def toDefinition (d : Draft) : Definition :=
  d.collections.pairs.foldl (fun node (c, es) => node.withEntries c es.values) d.skeleton

def description? (d : Draft) : Option String := d.skeleton.description?

def registry (d : Draft) : Registry := d.kind.registry

def hasNoEntries (d : Draft) : Bool := d.collections.values.all Keyed.isEmpty

def supports (d : Draft) (c : Collection) : Bool := d.kind.supports c

def notSupported (d : Draft) (c : Collection) : EditError :=
  .collectionNotSupported c d.name d.kind

def collection (d : Draft) (c : Collection) : Except EditError Entries :=
  match d.collections.get? c with
  | some es => .ok es
  | none => .error (d.notSupported c)

def has (d : Draft) (c : Collection) (n : Name) : Except EditError Bool :=
  (·.contains n) <$> d.collection c

def get? (d : Draft) (c : Collection) (n : Name) : Except EditError (Option Entry) :=
  (·.get? n) <$> d.collection c

def entries (d : Draft) (c : Collection) : Except EditError (List Entry) :=
  (·.values) <$> d.collection c

def check (d : Draft) (c : Collection) (e : Entry) : Except EditError Unit :=
  if !d.supports c then .error (d.notSupported c)
  else if !d.kind.admits c e then .error (.mismatchedEntry c d.name d.kind e.word)
  else .ok ()

def held (d : Draft) (c : Collection) : Entries := (d.collections.get? c).getD .empty

def setHeld (d : Draft) (c : Collection) (es : Entries) : Draft :=
  { d with collections := d.collections.insert c es }

def file (d : Draft) (c : Collection) (e : Entry) : Draft :=
  d.setHeld c ((d.held c).insert e.name e)

def create (d : Draft) (c : Collection) (e : Entry) : Except EditError Draft := do
  d.check c e
  if ← d.has c e.name then throw (.duplicateEntry c d.name e.name)
  return d.file c e

def replace (d : Draft) (c : Collection) (e : Entry) : Except EditError Draft := do
  d.check c e
  unless ← d.has c e.name do throw (.entryNotFound c d.name e.name)
  return d.file c e

def upsert (d : Draft) (c : Collection) (e : Entry) : Except EditError Draft := do
  d.check c e
  return d.file c e

def delete (d : Draft) (c : Collection) (n : Name) : Except EditError Draft :=
  if !d.supports c then .error (d.notSupported c)
  else .ok (d.setHeld c ((d.held c).erase n))

def remove (d : Draft) (c : Collection) (n : Name) : Except EditError Draft :=
  if !d.supports c then .error (d.notSupported c)
  else if !(d.held c).contains n then .error (.entryNotFound c d.name n)
  else .ok (d.setHeld c ((d.held c).erase n))

def checkSameKind (d other : Draft) : Except EditError Unit :=
  if d.kind = other.kind then .ok () else .error (.kindMismatch d.name d.kind other.kind)

def addMissing (es incoming : Entries) : Entries :=
  incoming.pairs.foldl (fun es (n, e) => es.insertNew n e) es

def dropListed (es listed : Entries) : Entries :=
  listed.keys.foldl Keyed.erase es

/-- A description that is not empty replaces the one of the skeleton. -/
def takeDescription (skeleton : Definition) : Option String → Definition
  | some text => if text.isEmpty then skeleton else skeleton.describe text
  | none => skeleton

/-- Takes over what `other` has and this draft lacks, and the description of `other`, if any. -/
def extendWith (d other : Draft) : Except EditError Draft := do
  d.checkSameKind other
  let extended := other.collections.pairs.foldl
    (fun d (c, incoming) => d.setHeld c (addMissing (d.held c) incoming)) d
  return { extended with skeleton := takeDescription extended.skeleton other.description? }

def excludeWith (d other : Draft) : Except EditError Draft := do
  d.checkSameKind other
  return other.collections.pairs.foldl
    (fun d (c, listed) =>
      match d.collections.get? c with
      | some es => d.setHeld c (dropListed es listed)
      | none => d)
    d

def print (d : Draft) : String := d.toDefinition.print

end Draft

end SchemaOverlay
