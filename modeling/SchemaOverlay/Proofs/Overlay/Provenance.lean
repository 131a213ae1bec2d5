import SchemaOverlay.Proofs.Edit.Content
import SchemaOverlay.Proofs.Overlay.Reload
import SchemaOverlay.Proofs.Sdl.Carried

/-!
Where the entries of a result come from: each was an entry of the schema, or some step of the plan
brought it in. Only the actions that write bring anything in.
-/
namespace SchemaOverlay

open Sdl

/-- Whether what carries the action may come into the catalog. -/
def Action.writes : Action → Bool
  | .create | .extend | .replace | .upsert => true
  | .delete | .exclude | .remove => false

inductive Step.Brings : Step → Entry → Prop
  | type {e : TypeEdit} {c : Collection} {entry : Entry} (writes : e.action.writes = true)
      (listed : entry ∈ e.definition.entries c) : Brings (.type e) entry
  | member {e : MemberEdit} (writes : e.action.writes = true) : Brings (.member e) e.entry

section Steps

variable {P : Entry → Prop}

theorem TypeEdit.onPlace_holds {e : TypeEdit} {held : Option Draft} {d : Draft}
    (before : ∀ first, held = some first → first.Holds P)
    (brought : ∀ entry, (Step.type e).Brings entry → P entry)
    (made : e.onPlace held = .ok (some d)) : d.Holds P := by
  by_cases writes : e.action.writes = true
  · have incoming : e.incoming.Holds P :=
      Draft.Holds.opened fun c entry listed => brought entry (.type writes listed)
    exact .becomes before incoming (TypeEdit.onPlace_becomes made)
  · cases act : e.action
    case delete =>
      simp only [onPlace, act] at made
      cases made
    case remove =>
      cases held <;> simp only [onPlace, act] at made <;> cases made
    case exclude =>
      cases held <;> simp only [onPlace, act] at made
      · cases made
      · obtain ⟨stripped, done, same⟩ := Catalog.exists_of_map_eq_ok made
        cases same
        exact (before _ rfl).excludeWith done
    all_goals exact absurd (by rw [act]; rfl) writes

theorem MemberEdit.onDraft_holds {e : MemberEdit} {d d' : Draft} (before : d.Holds P)
    (brought : ∀ entry, (Step.member e).Brings entry → P entry)
    (made : e.onDraft d = .ok d') : d'.Holds P := by
  obtain rfl := MemberEdit.onDraft_ok made
  refine before.store e.collection e.entry.name fun entry written => ?_
  cases act : e.action
  case exclude =>
    simp only [onDraft, act] at made
    cases made
  all_goals
    simp only [MemberEdit.written, act] at written
    cases written
  all_goals exact brought _ (.member (by rw [act]; rfl))

theorem Step.onPlace_holds {s : Step} {held : Option Draft} {d : Draft}
    (before : ∀ first, held = some first → first.Holds P)
    (brought : ∀ entry, s.Brings entry → P entry)
    (made : s.onPlace held = .ok (some d)) : d.Holds P := by
  cases s with
  | type e =>
    refine TypeEdit.onPlace_holds before brought ?_
    cases result : e.onPlace held <;> simp_all [Step.onPlace, Except.mapError]
  | member e =>
    cases held with
    | none => cases made
    | some first =>
      obtain ⟨edited, done, same⟩ := Catalog.exists_of_map_eq_ok made
      cases same
      exact MemberEdit.onDraft_holds (before _ rfl) brought done

theorem Catalog.Holds.performAll {steps : List Step} (wf : ∀ s ∈ steps, s.WellFormed)
    {cat cat' : Catalog} (holds : cat.Holds P)
    (brought : ∀ s ∈ steps, ∀ entry, s.Brings entry → P entry)
    (ran : SchemaOverlay.performAll steps cat = .ok cat') : cat'.Holds P := by
  refine performAll_induction wf (P := Catalog.Holds P) holds ?_ ran
  intro s member mid held before made
  refine before.store s.registry s.name fun d same => ?_
  subst same
  exact Step.onPlace_holds (fun first found => before.get? found) (brought s member) made

end Steps

namespace Plan

variable {schema : Document} {p : Plan} {cat cat' : Catalog}

/-- Where an entry may come from: a definition of the schema, or a step of the plan. -/
def Supplies (p : Plan) (schema : Document) (e : Entry) : Prop :=
  (∃ d ∈ schema.definitions, ∃ c, e ∈ d.entries c) ∨ ∃ s ∈ p.schedule, s.Brings e

theorem filed_outcome (wf : p.WellFormed) (filed : cat.Filed) (ran : p.outcome cat = .ok cat') :
    cat'.Filed := by
  rw [outcome_eq wf] at ran
  exact filed.performAll wf.step ran

/-- Every entry that a run leaves was one of the schema, or a step of the plan brought it in. -/
theorem supplies_of_outcome (wf : p.WellFormed) (loaded : Catalog.ofDocument schema = .ok cat)
    (ran : p.outcome cat = .ok cat') :
    ∀ d ∈ cat'.toDocument.definitions, d.Holds (p.Supplies schema) := by
  have start : cat.Holds (p.Supplies schema) :=
    .ofDocument (fun d listed c e member => Or.inl ⟨d, listed, c, member⟩) loaded
  have last : cat'.Holds (p.Supplies schema) := by
    rw [outcome_eq wf] at ran
    exact start.performAll wf.step (fun s step e brings => Or.inr ⟨s, step, brings⟩) ran
  exact last.toDocument (filed_outcome wf (.ofDocument loaded) ran)

/-- Every directive that a run leaves was on the schema, or is carried by an entry that a step of
the plan brought in. -/
theorem origin_of_use (wf : p.WellFormed) (loaded : Catalog.ofDocument schema = .ok cat)
    (ran : p.outcome cat = .ok cat') {u : Use} (left : u ∈ cat'.toDocument.uses) :
    (∃ v ∈ schema.uses, v.directive = u.directive) ∨
      ∃ s ∈ p.schedule, ∃ e, s.Brings e ∧ u.directive ∈ e.carried := by
  have carried : u.directive ∈ cat'.toDocument.definitions.flatMap Definition.carried := by
    rw [← Document.map_directive_uses]
    exact List.mem_map_of_mem left
  obtain ⟨d, listed, inside⟩ := List.mem_flatMap.mp carried
  obtain ⟨kind, known⟩ := (filed_outcome wf (.ofDocument loaded) ran).kind?_toDocument listed
  obtain ⟨c, e, entry, here⟩ := (Definition.mem_carried_iff known).mp inside
  rcases supplies_of_outcome wf loaded ran d listed c e entry with
    ⟨source, given, k, there⟩ | ⟨s, step, brings⟩
  · have before : u.directive ∈ schema.uses.map Use.directive := by
      rw [Document.map_directive_uses]
      exact List.mem_flatMap.mpr ⟨source, given, Definition.mem_carried_of_entry there here⟩
    exact Or.inl (List.mem_map.mp before)
  · exact Or.inr ⟨s, step, e, brings, here⟩

end Plan

end SchemaOverlay
