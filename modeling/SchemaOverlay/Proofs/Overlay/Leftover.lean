import SchemaOverlay.Proofs.Overlay.Classification
import SchemaOverlay.Proofs.Overlay.Provenance

/-!
What becomes of the action directives themselves. An edit holds what carries its directive without
that one use of it. Any other action directive on the same node stays in what the edit holds, and
comes into the catalog with it if the edit writes; no action directive comes there in another way.
-/
namespace SchemaOverlay

open Sdl

namespace Sdl

theorem TypeBody.isType_of_mem_sites {d : Definition} {body : TypeBody} {s : Site}
    (member : s ∈ body.sites d) : s.isType = false := by
  cases s with
  | definition d' =>
    cases body <;> simp [TypeBody.sites] at member
  | _ => rfl

theorem TypeBody.argument_mem_sites {d d' : Definition} {body : TypeBody} {f : Field}
    {v : InputValue} (field : .field d' f ∈ body.sites d) (listed : v ∈ f.arguments) :
    .argument d' f v ∈ body.sites d := by
  cases body <;> simp_all [TypeBody.sites]

theorem Definition.argument_mem_sites {d d' : Definition} {f : Field} {v : InputValue}
    (field : .field d' f ∈ d.sites) (listed : v ∈ f.arguments) : .argument d' f v ∈ d.sites := by
  cases d with
  | schema s => simp [Definition.sites] at field
  | directive definition => simp [Definition.sites] at field
  | _ =>
    rcases List.mem_cons.mp field with own | below
    · cases own
    · exact List.mem_cons_of_mem _ (TypeBody.argument_mem_sites below listed)

theorem Definition.carried_withDirectives {d : Definition} (type : d.isType = true)
    {uses : List Directive} {c : Collection} {e : Entry} {use : Directive}
    (listed : e ∈ (d.withDirectives uses).entries c) (inside : use ∈ e.carried) :
    use ∈ uses ∨ ∃ s ∈ d.sites, s.isType = false ∧ use ∈ s.directives := by
  have node : ∀ node : TypeNode, e ∈ ({ node with directives := uses } : TypeNode).entries c →
      use ∈ uses ∨ ∃ s ∈ node.body.sites d, use ∈ s.directives := by
    intro node listed
    by_cases own : c = .directives
    · subst own
      obtain ⟨use', given, rfl⟩ := List.mem_map.mp listed
      obtain rfl := List.mem_singleton.mp inside
      exact Or.inl given
    · rw [TypeNode.entries_of_ne _ own] at listed
      have below : use ∈ (node.body.sites d).flatMap Site.directives := by
        rw [TypeBody.carried_sites]
        exact List.mem_flatMap.mpr ⟨c, c.mem_all, List.mem_flatMap.mpr ⟨e, listed, inside⟩⟩
      exact Or.inr (List.mem_flatMap.mp below)
  cases d with
  | schema s => cases type
  | directive definition => cases type
  | _ =>
    rcases node _ listed with given | ⟨s, site, carried⟩
    · exact Or.inl given
    · exact Or.inr ⟨s, List.mem_cons_of_mem _ site, TypeBody.isType_of_mem_sites site, carried⟩

theorem Site.carried_withDirectives {s : Site} {uses : List Directive} {c : Collection} {e : Entry}
    {use : Directive} (entry : s.entry? = some (c, e))
    (inside : use ∈ (e.withDirectives uses).carried) :
    use ∈ uses ∨ ∃ d f v, s = .field d f ∧ v ∈ f.arguments ∧ use ∈ v.directives := by
  cases s with
  | definition d => cases entry
  | argument d f v => cases entry
  | inputValue d v =>
    cases entry
    exact Or.inl inside
  | enumValue d v =>
    cases entry
    exact Or.inl inside
  | field d f =>
    cases entry
    rcases List.mem_append.mp inside with below | own
    · obtain ⟨v, listed, carried⟩ := List.mem_flatMap.mp below
      exact Or.inr ⟨d, f, v, rfl, listed, carried⟩
    · exact Or.inl own

end Sdl

structure Sdl.Document.Accepted (doc : Document) : Prop where
  placed : ∀ i ∈ doc.instructions, ∀ f, ¬ i.Refused f
  unmixed : ∀ i ∈ doc.instructions, i.onMixed = false

namespace Instruction

/-- The other directives on the node that carries the instruction. -/
def beside (i : Instruction) : List Directive := i.site.directives.eraseIdx i.use.index

section Accepted

variable {doc : Document} (accepted : doc.Accepted)

include accepted

theorem placed {i : Instruction} (listed : i ∈ doc.instructions) (below : i.site.isType = false) :
    i.site.isMember = true := by
  cases member : i.site.isMember with
  | true => rfl
  | false => exact absurd (.misplaced below member) (accepted.placed i listed _)

theorem below_of_type {i : Instruction} (listed : i ∈ doc.instructions) {d : Definition}
    (type : i.site = .definition d) {s : Site} (site : s ∈ d.sites) (below : s.isType = false)
    {use : Directive} (carried : use ∈ s.directives) : use.isAction = false := by
  obtain ⟨inside, _⟩ := Document.owner_of_instruction listed
  have stands : i.Stands := Document.stands listed
  rw [Stands, type] at stands
  rw [type] at inside
  rw [Bool.eq_false_iff]
  intro action
  obtain ⟨j, asked, rfl⟩ := Document.exists_instruction inside site carried action
  have mixed : j.onMixed = true := by
    rw [onMixed, placed accepted asked below, Definition.owner_of_mem_sites site, Bool.true_and]
    refine Plan.carriesAction_iff.mpr ⟨i.use.directive, List.mem_of_getElem? stands, ?_⟩
    rw [(Document.mem_instructions_iff.mp listed).2, Option.isSome_some]
  rw [accepted.unmixed j asked] at mixed
  cases mixed

theorem argument_of_field {i : Instruction} (listed : i ∈ doc.instructions) {d : Definition}
    {f : Field} (field : i.site = .field d f) {v : InputValue} (argument : v ∈ f.arguments)
    {use : Directive} (carried : use ∈ v.directives) : use.isAction = false := by
  obtain ⟨inside, site⟩ := Document.owner_of_instruction listed
  rw [field] at inside site
  rw [Bool.eq_false_iff]
  intro action
  have below := Definition.argument_mem_sites site argument
  obtain ⟨j, asked, stray⟩ := Document.exists_instruction inside below carried action
  have member := placed accepted asked (by rw [stray]; rfl)
  rw [stray] at member
  cases member

theorem beside_of_brings {i : Instruction} (listed : i ∈ doc.instructions) {s : Step}
    (asks : i.AsksFor s) {e : Entry} (brings : s.Brings e) {use : Directive}
    (inside : use ∈ e.carried) (action : use.isAction = true) :
    i.action.writes = true ∧ use ∈ i.beside := by
  cases asks with
  | type site type _ _ carried index =>
    obtain ⟨writes, entry⟩ := brings
    refine ⟨writes, ?_⟩
    rcases Definition.carried_withDirectives type entry inside with left | ⟨s, within, below, held⟩
    · rw [beside, site, Site.directives, carried, eraseIdx_append_cons index]
      exact left
    · rw [below_of_type accepted listed site within below held] at action
      cases action
  | member entry _ _ _ _ carried index =>
    cases brings with
    | member writes =>
      refine ⟨writes, ?_⟩
      rcases Site.carried_withDirectives entry inside with left | ⟨d, f, v, field, argument, held⟩
      · rw [beside, Site.directives_of_entry? entry, carried, eraseIdx_append_cons index]
        exact left
      · rw [argument_of_field accepted listed field argument held] at action
        cases action

end Accepted

end Instruction

namespace Plan

theorem mem_of_mem_schedule {steps : List Step} {s : Step} (step : s ∈ (ofSteps steps).schedule) :
    s ∈ steps := by
  rcases mem_schedule_iff.mp step with ⟨e, edit, rfl⟩ | ⟨e, edit, rfl⟩
  · obtain ⟨t, listed, same⟩ := List.mem_filterMap.mp edit
    cases t <;> cases same
    exact listed
  · obtain ⟨t, listed, same⟩ := List.mem_filterMap.mp edit
    cases t <;> cases same
    exact listed

theorem asked_of_ok {doc : Document} {p : Plan} (planned : ofDocument doc = .ok p) :
    doc.Accepted ∧ ∀ s ∈ p.schedule, ∃ i ∈ doc.instructions, i.AsksFor s := by
  obtain ⟨placed, unmixed, steps, asked, rfl⟩ := ofDocument_of_ok planned
  refine ⟨⟨placed, unmixed⟩, fun s step => ?_⟩
  exact exists_of_mem_of_forall₂ asked.flip (mem_of_mem_schedule step)

/-- An action directive that a run leaves on a schema that had none comes from a node of the
overrides that carries it beside another action, one that writes. So none is left where no node
carries another action directive beside one that writes. -/
theorem outcome_leftovers {schema overrides : Document} {p : Plan}
    (clean : ∀ u ∈ schema.uses, u.directive.isAction = false)
    (planned : ofDocument overrides = .ok p) {cat cat' : Catalog}
    (loaded : Catalog.ofDocument schema = .ok cat) (ran : p.outcome cat = .ok cat') :
    (∀ u ∈ cat'.toDocument.uses, u.directive.isAction = true →
      ∃ i ∈ overrides.instructions, i.action.writes = true ∧ u.directive ∈ i.beside) ∧
    ((∀ i ∈ overrides.instructions, i.action.writes = true →
        ∀ use ∈ i.beside, use.isAction = false) →
      ∀ u ∈ cat'.toDocument.uses, u.directive.isAction = false) := by
  obtain ⟨accepted, asked⟩ := asked_of_ok planned
  have origin : ∀ u ∈ cat'.toDocument.uses, u.directive.isAction = true →
      ∃ i ∈ overrides.instructions, i.action.writes = true ∧ u.directive ∈ i.beside := by
    intro u left action
    rcases origin_of_use (ofDocument_wellFormed planned) loaded ran left with
      ⟨v, given, same⟩ | ⟨s, step, e, brings, inside⟩
    · rw [← same, clean v given] at action
      cases action
    · obtain ⟨i, listed, asks⟩ := asked s step
      exact ⟨i, listed, Instruction.beside_of_brings accepted listed asks brings inside action⟩
  refine ⟨origin, fun apart u left => ?_⟩
  rw [Bool.eq_false_iff]
  intro action
  obtain ⟨i, listed, writes, beside⟩ := origin u left action
  rw [apart i listed writes _ beside] at action
  cases action

def keyedUser : Definition := objectOf "User" ["key"] [("id", [])]

def userCatalog : Catalog := .fileAll [.opened (.type .object) "User" keyedUser]

def apartDocument : Document := ⟨[
  objectOf "Post" ["create", "key"] [("id", [])],
  objectOf "User" [] [("name", ["upsert", "deprecated"])]]⟩

def apartPlan : Plan := ⟨
  [⟨.create, objectOf "Post" ["key"] [("id", [])], .type .object, "Post"⟩],
  [⟨.upsert, .field (stringField "name" ["deprecated"]), .definitions, .fields, "User", false⟩]⟩

theorem outcome_leftovers_apart :
    ofDocument apartDocument = .ok apartPlan ∧
    ∃ cat cat', Catalog.ofDocument ⟨[keyedUser]⟩ = .ok cat ∧ apartPlan.outcome cat = .ok cat' ∧
      cat'.toDocument.definitions = [
        objectOf "User" ["key"] [("id", []), ("name", ["deprecated"])],
        objectOf "Post" ["key"] [("id", [])]] ∧
      ∀ u ∈ cat'.toDocument.uses, u.directive.isAction = false := by
  have clean : ∀ u ∈ (⟨[keyedUser]⟩ : Document).uses, u.directive.isAction = false := by decide
  have planned : ofDocument apartDocument = .ok apartPlan := rfl
  have loaded : Catalog.ofDocument ⟨[keyedUser]⟩ = .ok userCatalog := rfl
  have ran : apartPlan.outcome userCatalog = .ok _ := rfl
  have apart : ∀ i ∈ apartDocument.instructions, i.action.writes = true →
      ∀ use ∈ i.beside, use.isAction = false := by decide
  exact ⟨planned, _, _, loaded, ran, rfl, (outcome_leftovers clean planned loaded ran).2 apart⟩

def doubled : Document := ⟨[objectOf "Post" ["create", "upsert"] [("id", [])]]⟩

def doubledPlan : Plan := ⟨[
  ⟨.create, objectOf "Post" ["upsert"] [("id", [])], .type .object, "Post"⟩,
  ⟨.upsert, objectOf "Post" ["create"] [("id", [])], .type .object, "Post"⟩], []⟩

/-- The upsert comes last, and leaves the instruction to create the type on it. -/
theorem outcome_leftovers_doubled :
    (∀ u ∈ (⟨[keyedUser]⟩ : Document).uses, u.directive.isAction = false) ∧
    ofDocument doubled = .ok doubledPlan ∧
    ∃ cat cat', Catalog.ofDocument ⟨[keyedUser]⟩ = .ok cat ∧ doubledPlan.outcome cat = .ok cat' ∧
      cat'.toDocument.definitions = [keyedUser, objectOf "Post" ["create"] [("id", [])]] ∧
      ∃ u ∈ cat'.toDocument.uses, u.directive.isAction = true := by
  have loaded : Catalog.ofDocument ⟨[keyedUser]⟩ = .ok userCatalog := rfl
  have ran : doubledPlan.outcome userCatalog = .ok _ := rfl
  refine ⟨by decide, rfl, _, _, loaded, ran, rfl,
    ⟨⟨"create", []⟩, 0, .definition (objectOf "Post" ["create"] [("id", [])])⟩, ?_, by decide⟩
  exact List.mem_of_getElem? (i := 1) rfl

end Plan

end SchemaOverlay
