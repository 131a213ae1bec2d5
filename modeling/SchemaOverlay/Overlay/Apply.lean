import SchemaOverlay.Edit.Catalog
import SchemaOverlay.Overlay.Plan

/-!
Carrying out a plan, phase by phase: first the edits of types, then those of members. The first edit
that is refused ends the run, and what was done before it stays done.
-/
namespace SchemaOverlay

open Sdl

inductive Step
  | type (edit : TypeEdit)
  | member (edit : MemberEdit)
  deriving Repr

def TypeEdit.perform (e : TypeEdit) (cat : Catalog) : Except EditError Catalog :=
  match e.action with
  | .create => cat.create e.registry e.definition
  | .delete => .ok (cat.delete e.registry e.name)
  | .exclude => cat.exclude e.registry e.definition
  | .extend => cat.extend e.registry e.definition
  | .remove => cat.remove e.registry e.name
  | .replace => cat.replace e.registry e.definition
  | .upsert => cat.upsert e.registry e.definition

def MemberEdit.onDraft (e : MemberEdit) (draft : Draft) : Except OverlayError Draft :=
  match e.action with
  | .create => (draft.create e.collection e.entry).mapError .edit
  | .delete => (draft.delete e.collection e.entry.name).mapError .edit
  | .remove => (draft.remove e.collection e.entry.name).mapError .edit
  | .replace => (draft.replace e.collection e.entry).mapError .edit
  | .upsert => (draft.upsert e.collection e.entry).mapError .edit
  | .exclude | .extend => .error (.unsupportedOnMember e.action e.typeName e.entry.name)

def MemberEdit.perform (e : MemberEdit) (cat : Catalog) : Except OverlayError Catalog := do
  let draft ← (cat.existing e.registry e.typeName).mapError .edit
  return cat.put e.registry e.typeName (← e.onDraft draft)

namespace Step

def perform : Step → Catalog → Except OverlayError Catalog
  | .type e, cat => (e.perform cat).mapError .edit
  | .member e, cat => e.perform cat

def record : Step → LogRecord
  | .type e =>
    ⟨.trace, s!"Applying {e.action.text} to `{e.name}` in {e.registry.word}."⟩
  | .member e =>
    ⟨.trace, s!"Applying {e.action.text} to `{e.typeName}.{e.entry.name}` " ++
      s!"({e.collection.word}) in {e.registry.word}."⟩

end Step

structure Progress where
  catalog : Catalog
  tried : List Step
  deriving Repr

abbrev Run := ExceptT OverlayError (StateM Progress)

/-- Takes a step. One that is refused changes nothing in the catalog. -/
def Step.take (s : Step) : Run PUnit := do
  modify fun p => { p with tried := p.tried ++ [s] }
  match s.perform (← get).catalog with
  | .ok cat => modify fun p => { p with catalog := cat }
  | .error e => throw e

def Plan.apply (p : Plan) : Run PUnit := do
  Action.typePhases.forM fun a =>
    (p.typeEdits.filter (·.action = a)).forM fun e => (Step.type e).take
  Action.memberPhases.forM fun a =>
    (p.memberEdits.filter (·.action = a)).forM fun e => (Step.member e).take

/-- Applies a plan to a catalog. The progress shows how far the run came. -/
def Plan.applyTo (p : Plan) (cat : Catalog) : Except OverlayError PUnit × Progress :=
  p.apply.run.run ⟨cat, []⟩

end SchemaOverlay
