import SchemaOverlay.Proofs.Edit.Loading
import SchemaOverlay.Proofs.Overlay.Outcome

/-!
Whatever calls and plans do to a catalog, it stays one that a document could have been loaded as:
exporting it and loading the export gives the catalog again, with nothing merged on the way. A plan
that is refused half-way leaves such a catalog too.
-/
namespace SchemaOverlay

open Sdl

theorem TypeEdit.onPlace_becomes {e : TypeEdit} {held : Option Draft} {d : Draft}
    (made : e.onPlace held = .ok (some d)) : e.incoming.Becomes held d := by
  cases act : e.action <;> cases held <;> simp only [onPlace, act] at made
  -- What is left of the other actions at these places is a refusal or a vacant place.
  case extend.some first =>
    obtain ⟨merged, done, same⟩ := Catalog.exists_of_map_eq_ok made
    cases same
    exact .extended done
  case exclude.some first =>
    obtain ⟨stripped, done, same⟩ := Catalog.exists_of_map_eq_ok made
    cases same
    exact .excluded done
  all_goals first | cases made; done | cases made; exact .whole _

theorem MemberEdit.onDraft_call {e : MemberEdit} {d d' : Draft} (made : e.onDraft d = .ok d') :
    d.Call d' := by
  have settled : ∀ {result : Except EditError Draft}, result.mapError OverlayError.edit = .ok d' →
      d.settle result = d' := by
    intro result done
    rw [ok_of_mapError done]
    rfl
  cases act : e.action <;> simp only [onDraft, act] at made
  case exclude => cases made
  case extend => cases made
  case create => exact settled made ▸ .create e.collection e.entry
  case delete => exact settled made ▸ .delete e.collection e.entry.name
  case remove => exact settled made ▸ .remove e.collection e.entry.name
  case replace => exact settled made ▸ .replace e.collection e.entry
  case upsert => exact settled made ▸ .upsert e.collection e.entry

theorem Plan.applyTo_catalog {p : Plan} (wf : p.WellFormed) (cat : Catalog) :
    ∃ done rest, p.schedule = done ++ rest ∧
      performAll done cat = .ok (p.applyTo cat).2.catalog := by
  cases ran : performAll p.schedule cat with
  | ok cat' =>
    refine ⟨p.schedule, [], (List.append_nil _).symm, ?_⟩
    rw [(applyTo_eq_ok_iff wf).mpr ⟨ran, rfl⟩, ran]
  | error e =>
    obtain ⟨done, s, rest, mid, split, before, refused⟩ := performAll_error ran
    refine ⟨done, s :: rest, split, ?_⟩
    rw [(applyTo_eq_error_iff wf).mpr ⟨done, s, rest, split, rfl, before, refused⟩, before]

namespace Catalog

theorem Files.onPlace {cat : Catalog} (filed : cat.Filed) {s : Step} (wf : s.WellFormed)
    {held : Option Draft} (made : s.onPlace (cat.get? s.registry s.name) = .ok held) :
    ∀ d, held = some d → Files s.registry s.name d := by
  rintro d rfl
  cases s with
  | type e =>
    have became : e.incoming.Becomes (cat.get? e.registry e.name) d := by
      refine TypeEdit.onPlace_becomes ?_
      cases result : e.onPlace (cat.get? e.registry e.name) <;>
        simp_all [Step.onPlace, Step.registry, Step.name, Except.mapError]
    have incoming : Files e.registry e.name e.incoming :=
      ⟨rfl, rfl, e.definition, .opened (Draft.ofDefinition_eq wf.kind wf.name)⟩
    exact incoming.becomes (fun first found => filed.get? found) became
  | member e =>
    simp only [Step.onPlace, Step.registry, Step.name] at made
    cases found : cat.get? e.registry e.typeName with
    | none => simp [found, MemberEdit.onPlace] at made
    | some first =>
      rw [found] at made
      obtain ⟨edited, done, same⟩ := exists_of_map_eq_ok made
      cases same
      exact (filed.get? found).call (MemberEdit.onDraft_call done)

theorem Filed.performAll {steps : List Step} (wf : ∀ s ∈ steps, s.WellFormed)
    {cat cat' : Catalog} (filed : cat.Filed)
    (ran : SchemaOverlay.performAll steps cat = .ok cat') : cat'.Filed :=
  performAll_induction wf (P := Filed) filed
    (fun s member _ _ before made => before.store (Files.onPlace before (wf s member) made)) ran

theorem Filed.applyTo {cat : Catalog} (filed : cat.Filed) {p : Plan} (wf : p.WellFormed) :
    (p.applyTo cat).2.catalog.Filed := by
  obtain ⟨done, rest, split, ran⟩ := Plan.applyTo_catalog wf cat
  refine filed.performAll (fun s member => wf.step s ?_) ran
  rw [split]
  exact List.mem_append_left rest member

def settle (cat : Catalog) : Except EditError Catalog → Catalog
  | .ok cat' => cat'
  | .error _ => cat

/-- The catalogs that calls, accepted or refused, and plans, complete or stopped, lead to from the
empty one and from those that documents are loaded as. -/
inductive Reached : Catalog → Prop
  | empty : Reached .empty
  | ofDocument {doc : Document} {cat : Catalog} (loaded : ofDocument doc = .ok cat) : Reached cat
  | create {cat : Catalog} (r : Registry) (d : Definition) (reached : Reached cat) :
      Reached (cat.settle (cat.create r d))
  | replace {cat : Catalog} (r : Registry) (d : Definition) (reached : Reached cat) :
      Reached (cat.settle (cat.replace r d))
  | upsert {cat : Catalog} (r : Registry) (d : Definition) (reached : Reached cat) :
      Reached (cat.settle (cat.upsert r d))
  | delete {cat : Catalog} (r : Registry) (n : Name) (reached : Reached cat) :
      Reached (cat.delete r n)
  | remove {cat : Catalog} (r : Registry) (n : Name) (reached : Reached cat) :
      Reached (cat.settle (cat.remove r n))
  | extend {cat : Catalog} (r : Registry) (d : Definition) (reached : Reached cat) :
      Reached (cat.settle (cat.extend r d))
  | exclude {cat : Catalog} (r : Registry) (d : Definition) (reached : Reached cat) :
      Reached (cat.settle (cat.exclude r d))
  | apply {cat : Catalog} {overrides : Document} {p : Plan}
      (planned : Plan.ofDocument overrides = .ok p) (reached : Reached cat) :
      Reached (p.applyTo cat).2.catalog
  | edit {cat : Catalog} {r : Registry} {n : Name} {d d' : Draft}
      (found : cat.get? r n = some d) (call : d.Call d') (reached : Reached cat) :
      Reached (cat.put r n d')

theorem Filed.settle {cat : Catalog} (filed : cat.Filed) {result : Except EditError Catalog}
    (done : ∀ cat', result = .ok cat' → cat'.Filed) : (cat.settle result).Filed := by
  cases result with
  | error e => exact filed
  | ok cat' => exact done cat' rfl

theorem Reached.filed {cat : Catalog} (reached : cat.Reached) : cat.Filed := by
  induction reached with
  | empty => exact Filed.empty
  | ofDocument loaded => exact Filed.ofDocument loaded
  | create r d _ ih => exact ih.settle fun _ ran => ih.stores (create_stores ran)
  | replace r d _ ih => exact ih.settle fun _ ran => ih.stores (replace_stores ran)
  | upsert r d _ ih => exact ih.settle fun _ ran => ih.stores (upsert_stores ran)
  | delete r n _ ih => exact ih.delete
  | remove r n _ ih => exact ih.settle fun _ ran => ih.remove ran
  | extend r d _ ih => exact ih.settle fun _ ran => ih.stores (extend_stores ran)
  | exclude r d _ ih => exact ih.settle fun _ ran => ih.stores (exclude_stores ran)
  | apply planned _ ih => exact ih.applyTo (Plan.ofDocument_wellFormed planned)
  | edit found call _ ih => exact ih.edit found call

/-- Whatever was done to a catalog, each registry files drafts of its own kinds, each once and under
its name. Loading what it exports files every definition anew, none of them merged with another, and
gives the catalog back, the order of definitions and entries included. -/
theorem reload_of_reached {cat : Catalog} (reached : cat.Reached) :
    (∀ r, (cat.names r).Nodup) ∧
    (∀ r n d, (n, d) ∈ (cat.registry r).pairs → d.name = n ∧ d.kind.registry = r) ∧
    ofDocument cat.toDocument = .ok cat ∧
    ∀ before d after, cat.toDocument.definitions = before ++ d :: after →
      ∃ mid draft, ofDocument ⟨before⟩ = .ok mid ∧ Draft.ofDefinition d = .ok draft ∧
        mid.get? draft.registry draft.name = none := by
  have filed := reached.filed
  refine ⟨filed.distinct, ?_, filed.ofDocument_toDocument, ?_⟩
  · intro r n d member
    have files := filed.files r n d member
    exact ⟨files.name, files.registry⟩
  · intro before d after split
    rw [definitions_toDocument] at split
    exact ofDocument_vacant filed.map_ofDefinition_drafts filed.drafts_apart split

def splitUser : Document := ⟨[
  objectOf "User" [] [("id", [])],
  objectOf "User" [] [("id", []), ("name", [])]]⟩

def pageless : Document := ⟨[
  objectOf "Post" ["create"] [("id", [])],
  objectOf "Page" ["remove"] []]⟩

def pagelessPlan : Plan := ⟨[
  ⟨.create, objectOf "Post" [] [("id", [])], .type .object, "Post"⟩,
  ⟨.remove, objectOf "Page" [] [], .type .object, "Page"⟩], []⟩

theorem reload_of_reached_pageless :
    Plan.ofDocument pageless = .ok pagelessPlan ∧
    ∃ cat left, ofDocument splitUser = .ok cat ∧
      (pagelessPlan.applyTo cat).1 = .error (.edit (.notFound "Page" .definitions)) ∧
      left = (pagelessPlan.applyTo cat).2.catalog ∧
      left.names .definitions = ["User", "Post"] ∧ ofDocument left.toDocument = .ok left := by
  have planned : Plan.ofDocument pageless = .ok pagelessPlan := rfl
  have loaded : ofDocument splitUser = .ok _ := rfl
  obtain ⟨_, _, back, _⟩ := reload_of_reached (.apply planned (.ofDocument loaded))
  exact ⟨planned, _, _, loaded, rfl, rfl, rfl, back⟩

end Catalog

end SchemaOverlay
