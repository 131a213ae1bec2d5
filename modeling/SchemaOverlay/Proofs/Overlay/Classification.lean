import SchemaOverlay.Proofs.Overlay.Instruction
import SchemaOverlay.Proofs.Sdl.Position
import SchemaOverlay.Proofs.Traversal

/-!
What becomes of an overrides document. The first action directive that is refused where it stands
ends the classification. If there is none, a node that carries an action on its type and another on
a member of it does. Otherwise the plan lists, in the order of the walk, the edit that each action
directive asks for.
-/
namespace SchemaOverlay

open Sdl

namespace Sdl

theorem TypeBody.owner_of_mem_sites {d : Definition} {body : TypeBody} {s : Site}
    (member : s ∈ body.sites d) : s.owner = d := by
  have fields : ∀ fs : List Field,
      s ∈ (fs.flatMap fun f => f.arguments.map (.argument d f) ++ [.field d f]) → s.owner = d := by
    intro fs inside
    obtain ⟨f, _, below⟩ := List.mem_flatMap.mp inside
    rcases List.mem_append.mp below with argument | own
    · obtain ⟨v, _, rfl⟩ := List.mem_map.mp argument
      rfl
    · obtain rfl := List.mem_singleton.mp own
      rfl
  cases body with
  | scalar => cases member
  | union members => cases member
  | object interfaces fs => exact fields fs member
  | interface implements fs => exact fields fs member
  | enum values =>
    obtain ⟨v, _, rfl⟩ := List.mem_map.mp member
    rfl
  | inputObject values =>
    obtain ⟨v, _, rfl⟩ := List.mem_map.mp member
    rfl

theorem Definition.owner_of_mem_sites {d : Definition} {s : Site} (member : s ∈ d.sites) :
    s.owner = d := by
  cases d with
  | schema definition =>
    obtain rfl := List.mem_singleton.mp member
    rfl
  | directive definition =>
    rcases List.mem_cons.mp member with rfl | below
    · rfl
    · obtain ⟨v, _, rfl⟩ := List.mem_map.mp below
      rfl
  | _ =>
    rcases List.mem_cons.mp member with rfl | below
    · rfl
    · exact TypeBody.owner_of_mem_sites below

theorem Document.mem_uses_iff {doc : Document} {u : Use} :
    u ∈ doc.uses ↔ ∃ d ∈ doc.definitions, u.site ∈ d.sites ∧
      u.site.directives[u.index]? = some u.directive := by
  simp only [uses, List.mem_flatMap, Site.uses, List.mem_map]
  constructor
  · rintro ⟨d, listed, s, inside, ⟨use, k⟩, member, rfl⟩
    exact ⟨d, listed, inside, List.mem_zipIdx_iff_getElem?.mp member⟩
  · rintro ⟨d, listed, inside, there⟩
    exact ⟨d, listed, u.site, inside, (u.directive, u.index),
      List.mem_zipIdx_iff_getElem?.mpr there, rfl⟩

def Directive.isAction (use : Directive) : Bool := (Action.ofDirectiveName? use.name).isSome

theorem Directive.isAction_iff {use : Directive} :
    use.isAction = true ↔ ∃ a : Action, use.name = a.directiveName := by
  simp only [isAction, Option.isSome_iff_exists, Action.ofDirectiveName?_eq_some_iff]

def Document.instructions (doc : Document) : List Instruction :=
  doc.uses.filterMap Use.instruction?

theorem Document.mem_instructions_iff {doc : Document} {i : Instruction} :
    i ∈ doc.instructions ↔
      i.use ∈ doc.uses ∧ Action.ofDirectiveName? i.use.directive.name = some i.action := by
  simp only [instructions, List.mem_filterMap, Use.instruction?_eq_some_iff]
  constructor
  · rintro ⟨u, listed, named, rfl⟩
    exact ⟨listed, named⟩
  · rintro ⟨listed, named⟩
    exact ⟨i.use, listed, named, rfl⟩

theorem Document.located_instructions (doc : Document) :
    ∃ located : List (Position × Instruction), located.Pairwise (fun x y => x.1.Before y.1) ∧
      (∀ p i, (p, i) ∈ located ↔
        doc.Holds p i.use ∧ i.use.directive.name = i.action.directiveName) ∧
      located.map Prod.snd = doc.instructions := by
  obtain ⟨located, ordered, complete, listed⟩ :=
    (doc.enumerates_uses.filterMap Use.instruction?).located
  refine ⟨located, ordered, fun p i => (complete p i).trans ?_, listed⟩
  simp only [Option.bind_eq_some_iff, useAt?_eq_some_iff, Use.instruction?_eq_some_iff,
    Action.ofDirectiveName?_eq_some_iff]
  constructor
  · rintro ⟨u, held, named, rfl⟩
    exact ⟨held, named⟩
  · rintro ⟨held, named⟩
    exact ⟨i.use, held, named, rfl⟩

theorem Document.exists_instruction {doc : Document} {d : Definition} {s : Site} {use : Directive}
    (inside : d ∈ doc.definitions) (site : s ∈ d.sites) (carried : use ∈ s.directives)
    (action : use.isAction = true) : ∃ i ∈ doc.instructions, i.site = s := by
  obtain ⟨a, named⟩ := Option.isSome_iff_exists.mp action
  obtain ⟨k, there⟩ := List.mem_iff_getElem?.mp carried
  exact ⟨⟨a, ⟨use, k, s⟩⟩,
    mem_instructions_iff.mpr ⟨mem_uses_iff.mpr ⟨d, inside, site, there⟩, named⟩, rfl⟩

theorem Document.stands {doc : Document} {i : Instruction} (listed : i ∈ doc.instructions) :
    i.Stands := by
  obtain ⟨used, _⟩ := mem_instructions_iff.mp listed
  obtain ⟨d, _, _, there⟩ := mem_uses_iff.mp used
  exact there

theorem Document.owner_of_instruction {doc : Document} {i : Instruction}
    (listed : i ∈ doc.instructions) :
    i.site.owner ∈ doc.definitions ∧ i.site ∈ i.site.owner.sites := by
  obtain ⟨used, _⟩ := mem_instructions_iff.mp listed
  obtain ⟨d, inside, site, _⟩ := mem_uses_iff.mp used
  have owner : i.site.owner = d := Definition.owner_of_mem_sites site
  rw [owner]
  exact ⟨inside, site⟩

end Sdl

def Step.type? : Step → Option TypeEdit
  | .type e => some e
  | .member _ => none

def Step.member? : Step → Option MemberEdit
  | .type _ => none
  | .member e => some e

namespace Plan

def ofSteps (steps : List Step) : Plan :=
  ⟨steps.filterMap Step.type?, steps.filterMap Step.member?⟩

theorem foldl_add (steps : List (Option Step)) (p : Plan) :
    steps.foldl add p =
      ⟨p.typeEdits ++ (ofSteps (steps.filterMap id)).typeEdits,
        p.memberEdits ++ (ofSteps (steps.filterMap id)).memberEdits⟩ := by
  induction steps generalizing p with
  | nil => simp [ofSteps]
  | cons s rest ih =>
    rw [List.foldl_cons, ih]
    match s with
    | none => rfl
    | some (.type e) => simp [add, ofSteps, List.filterMap_cons, Step.type?, Step.member?]
    | some (.member e) => simp [add, ofSteps, List.filterMap_cons, Step.type?, Step.member?]

theorem step?_of_none {u : Use} (asked : u.instruction? = none) : u.step? = .ok none := by
  have named := Option.map_eq_none_iff.mp asked
  simp [Use.step?, named]

theorem step?_of_some {u : Use} {i : Instruction} (asked : u.instruction? = some i) :
    u.step? = some <$> i.step := by
  obtain ⟨named, rfl⟩ := Use.instruction?_eq_some_iff.mp asked
  simp only [Use.step?, named]
  rfl

theorem mapM_step? (uses : List Use) :
    (List.filterMap id) <$> uses.mapM Use.step? =
      (uses.filterMap Use.instruction?).mapM Instruction.step := by
  induction uses with
  | nil => rfl
  | cons u rest ih =>
    rw [List.mapM_cons]
    cases asked : u.instruction? with
    | none =>
      rw [step?_of_none asked, List.filterMap_cons_none asked, ← ih]
      cases rest.mapM Use.step? <;> rfl
    | some i =>
      rw [step?_of_some asked, List.filterMap_cons_some asked, List.mapM_cons, ← ih]
      cases i.step with
      | error e => rfl
      | ok s => cases rest.mapM Use.step? <;> rfl

theorem ofDocument_eq (doc : Document) :
    ofDocument doc = doc.instructions.mapM Instruction.step >>= fun steps =>
      (ofSteps steps).checkUnambiguous.map fun _ => ofSteps steps := by
  rw [ofDocument, Document.walk_eq, recordUses_run, Document.instructions, ← mapM_step?]
  cases doc.uses.mapM Use.step? with
  | error e => rfl
  | ok steps =>
    have whole : steps.foldl add empty = ofSteps (steps.filterMap id) := by
      simp [foldl_add, empty]
    simp only [Except.map, bind, Except.bind, Functor.map, whole]
    cases (ofSteps (steps.filterMap id)).checkUnambiguous <;> rfl

end Plan

namespace Instruction

def onMixed (i : Instruction) : Bool := i.site.isMember && Plan.carriesAction i.site.owner

/-- The first edit of a member that the plan refuses is asked for by the first directive on a mixed
node. -/
theorem find?_withinTypeEdit {is : List Instruction} {steps : List Step}
    (asked : List.Forall₂ AsksFor is steps) :
    ((steps.filterMap Step.member?).find? (·.withinTypeEdit)).map (·.typeName) =
      (is.find? onMixed).bind (·.site.owner.name?) := by
  induction asked with
  | nil => rfl
  | @cons i s _ _ asks _ ih =>
    cases asks with
    | type site type known named carried index =>
      have alone : i.onMixed = false := by simp [onMixed, site, Site.isMember, Site.entry?]
      rw [List.filterMap_cons_none rfl, List.find?_cons_of_neg (by simp [alone]), ih]
    | member entry member known named action carried index =>
      rw [List.filterMap_cons_some (f := Step.member?) rfl]
      cases mixed : Plan.carriesAction i.site.owner with
      | true =>
        have here : i.onMixed = true := by simp [onMixed, member, mixed]
        rw [List.find?_cons_of_pos rfl, List.find?_cons_of_pos here]
        exact named.symm
      | false =>
        have other : i.onMixed = false := by simp [onMixed, mixed]
        rw [List.find?_cons_of_neg (by simp), List.find?_cons_of_neg (by simp [other]), ih]

theorem name?_of_onMixed {i : Instruction} (mixed : i.onMixed = true) :
    ∃ name, i.site.owner.name? = some name := by
  obtain ⟨member, _⟩ := Bool.and_eq_true_iff.mp mixed
  obtain ⟨_, _, _, type⟩ := Site.isMember_iff.mp member
  obtain ⟨node, _, _, _, named⟩ := Definition.of_isType type
  exact ⟨node.name, named⟩

end Instruction

theorem Plan.carriesAction_iff {d : Definition} :
    carriesAction d = true ↔
      ∃ use ∈ d.directives, (Action.ofDirectiveName? use.name).isSome = true :=
  List.any_eq_true

namespace Sdl

def Site.CarriesAction (s : Site) : Prop :=
  ∃ u : Use, u.site = s ∧ u.Stands ∧ ∃ a : Action, u.directive.name = a.directiveName

theorem Site.carriesAction_iff {s : Site} :
    s.CarriesAction ↔ ∃ use ∈ s.directives, use.isAction = true := by
  constructor
  · rintro ⟨u, rfl, stands, action⟩
    exact ⟨u.directive, List.mem_of_getElem? (Use.stands_iff.mp stands),
      Directive.isAction_iff.mpr action⟩
  · rintro ⟨use, carried, action⟩
    obtain ⟨k, there⟩ := List.mem_iff_getElem?.mp carried
    exact ⟨⟨use, k, s⟩, rfl, Use.stands_iff.mpr there, Directive.isAction_iff.mp action⟩

structure Definition.Mixes (d : Definition) : Prop where
  type : d.isType = true
  own : (Site.definition d).CarriesAction
  member : ∃ s ∈ d.members, s.CarriesAction

/-- A member of a type node that carries an action directive itself. -/
structure Site.InEdited (s : Site) : Prop where
  type : s.owner.isType = true
  own : (Site.definition s.owner).CarriesAction
  member : s ∈ s.owner.members

theorem Definition.mem_sites_of_member {d : Definition} {s : Site} (member : s ∈ d.members) :
    s ∈ d.sites := by
  rw [d.sites_eq]
  refine List.mem_cons_of_mem _ (List.mem_flatMap.mpr ⟨s, member, ?_⟩)
  exact List.mem_append_right _ (List.mem_singleton.mpr rfl)

theorem Definition.isSome_entry?_of_member {d : Definition} {s : Site} (member : s ∈ d.members) :
    s.entry?.isSome = true := by
  have body (body : TypeBody) (member : s ∈ body.members d) : s.entry?.isSome = true := by
    cases body with
    | scalar => cases member
    | union => cases member
    | object | interface | enum | inputObject =>
      obtain ⟨_, _, rfl⟩ := List.mem_map.mp member
      rfl
  cases d with
  | schema s => cases member
  | type description node => exact body node.body member
  | extension node => exact body node.body member
  | directive definition =>
    obtain ⟨_, _, rfl⟩ := List.mem_map.mp member
    rfl

theorem Definition.member_of_isSome_entry? {d : Definition} {s : Site} (site : s ∈ d.sites)
    (entry : s.entry?.isSome = true) : s ∈ d.members := by
  rw [d.sites_eq] at site
  rcases List.mem_cons.mp site with rfl | below
  · cases entry
  · obtain ⟨m, member, inside⟩ := List.mem_flatMap.mp below
    rcases List.mem_append.mp inside with argument | same
    · cases m with
      | field d' f =>
        obtain ⟨_, _, rfl⟩ := List.mem_map.mp argument
        cases entry
      | _ => cases argument
    · exact List.mem_singleton.mp same ▸ member

theorem Document.onMixed_iff {doc : Document} {i : Instruction} (listed : i ∈ doc.instructions) :
    i.onMixed = true ↔ i.site.InEdited := by
  obtain ⟨_, site⟩ := owner_of_instruction listed
  have own : Plan.carriesAction i.site.owner = true ↔
      (Site.definition i.site.owner).CarriesAction :=
    Plan.carriesAction_iff.trans (Site.carriesAction_iff (s := .definition i.site.owner)).symm
  rw [Instruction.onMixed, Site.isMember, Bool.and_eq_true, Bool.and_eq_true, own]
  constructor
  · rintro ⟨⟨entry, type⟩, carries⟩
    exact ⟨type, carries, Definition.member_of_isSome_entry? site entry⟩
  · rintro ⟨type, carries, member⟩
    exact ⟨⟨Definition.isSome_entry?_of_member member, type⟩, carries⟩

theorem Document.exists_inEdited_iff {doc : Document} :
    (∃ i ∈ doc.instructions, i.site.InEdited) ↔ ∃ d ∈ doc.definitions, d.Mixes := by
  constructor
  · rintro ⟨i, listed, edited⟩
    obtain ⟨inside, _⟩ := owner_of_instruction listed
    obtain ⟨used, named⟩ := mem_instructions_iff.mp listed
    obtain ⟨_, _, _, there⟩ := mem_uses_iff.mp used
    exact ⟨_, inside, edited.type, edited.own, i.site, edited.member, i.use, rfl,
      Use.stands_iff.mpr there, i.action, Action.ofDirectiveName?_eq_some_iff.mp named⟩
  · rintro ⟨d, inside, type, own, s, member, carries⟩
    obtain ⟨use, carried, action⟩ := Site.carriesAction_iff.mp carries
    have site := Definition.mem_sites_of_member member
    obtain ⟨i, listed, rfl⟩ := exists_instruction inside site carried action
    have owner := Definition.owner_of_mem_sites site
    exact ⟨i, listed, ⟨owner ▸ type, owner ▸ own, owner ▸ member⟩⟩

end Sdl

/-- An argument of a field or of a directive definition, or the schema definition. -/
def Sdl.Site.IsStray : Site → Prop
  | .argument .. | .inputValue (.directive _) _ | .definition (.schema _) => True
  | _ => False

theorem Sdl.Document.misplaced_iff {doc : Document} {i : Instruction}
    (listed : i ∈ doc.instructions) :
    i.site.isType = false ∧ i.site.isMember = false ↔ i.site.IsStray := by
  obtain ⟨_, site⟩ := owner_of_instruction listed
  have there : i.site.directives[i.use.index]? = some i.use.directive := stands listed
  generalize i.site = s at site there
  cases s with
  | argument d f v => simp [Site.isType, Site.isMember, Site.entry?, Site.IsStray]
  | definition d =>
    cases d <;> simp_all [Site.isType, Site.isMember, Site.entry?, Site.IsStray,
      Definition.isType, Site.directives, Definition.directives]
  | inputValue d v =>
    cases d <;> simp_all [Site.isType, Site.isMember, Site.entry?, Site.IsStray, Site.owner,
      Definition.isType, Definition.sites]
  | field d f =>
    cases d <;> simp_all [Site.isType, Site.isMember, Site.entry?, Site.IsStray, Site.owner,
      Definition.isType, Definition.sites]
  | enumValue d v =>
    cases d <;> simp_all [Site.isType, Site.isMember, Site.entry?, Site.IsStray, Site.owner,
      Definition.isType, Definition.sites]

namespace Plan

theorem checkUnambiguous_ofSteps {is : List Instruction} {steps : List Step}
    (asked : List.Forall₂ Instruction.AsksFor is steps) :
    (ofSteps steps).checkUnambiguous =
      match (is.find? Instruction.onMixed).bind (·.site.owner.name?) with
      | some name => .error (.ambiguous name)
      | none => .ok () := by
  rw [← Instruction.find?_withinTypeEdit asked, checkUnambiguous, ofSteps]
  cases (steps.filterMap Step.member?).find? (·.withinTypeEdit) <;> rfl

variable {doc : Document}

theorem mapM_step_eq_ok_iff {steps : List Step} :
    doc.instructions.mapM Instruction.step = .ok steps ↔
      List.Forall₂ Instruction.AsksFor doc.instructions steps := by
  have stands : ∀ i ∈ doc.instructions, i.Stands := fun _ listed => Document.stands listed
  have standing : ∀ R : Instruction → Step → Prop, List.Forall₂ R doc.instructions steps ↔
      List.Forall₂ (fun i s => i.Stands ∧ R i s) doc.instructions steps := by
    intro R
    rw [List.forall₂_and_left]
    exact (and_iff_right stands).symm
  rw [mapM_eq_ok_iff, standing, standing Instruction.AsksFor]
  have same : ∀ i s, (Instruction.Stands i ∧ i.step = .ok s) ↔ (i.Stands ∧ i.AsksFor s) :=
    fun i s => and_congr_right fun stands => Instruction.step_eq_ok_iff stands
  simp only [same]

theorem exists_steps_iff :
    (∃ steps, doc.instructions.mapM Instruction.step = .ok steps) ↔
      ∀ i ∈ doc.instructions, ∀ f, ¬ i.Refused f := by
  constructor
  · rintro ⟨steps, answered⟩ i listed f refused
    obtain ⟨s, _, recorded⟩ := exists_of_mem_of_forall₂ (mapM_eq_ok_iff.mp answered) listed
    rw [Instruction.step_eq_error_iff.mpr refused] at recorded
    cases recorded
  · intro accepted
    cases answered : doc.instructions.mapM Instruction.step with
    | ok steps => exact ⟨steps, rfl⟩
    | error e =>
      obtain ⟨i, first, stopped⟩ := mapM_eq_error_iff.mp answered
      exact absurd (Instruction.step_eq_error_iff.mp stopped) (accepted i first.mem.1 e)

theorem mapM_step_eq_error_iff {e : OverlayError} :
    doc.instructions.mapM Instruction.step = .error e ↔
      ∃ i, First (fun i => ∃ f, i.Refused f) doc.instructions i ∧ i.Refused e := by
  rw [mapM_eq_error_iff]
  simp only [Instruction.step_eq_error_iff]

theorem ofDocument_of_steps {steps : List Step}
    (answered : doc.instructions.mapM Instruction.step = .ok steps) :
    (∀ i name, First (fun i => i.onMixed = true) doc.instructions i →
      i.site.owner.name? = some name → ofDocument doc = .error (.ambiguous name)) ∧
    ((∀ i ∈ doc.instructions, i.onMixed = false) → ofDocument doc = .ok (ofSteps steps)) := by
  have whole : ofDocument doc =
      (ofSteps steps).checkUnambiguous.map fun _ => ofSteps steps := by
    rw [ofDocument_eq, answered]
    rfl
  rw [whole, checkUnambiguous_ofSteps (mapM_step_eq_ok_iff.mp answered)]
  constructor
  · intro i name first named
    rw [find?_eq_some_iff_first.mpr first, Option.bind_some, named]
    rfl
  · intro unmixed
    rw [List.find?_eq_none.mpr fun i listed => by simp [unmixed i listed]]
    rfl

theorem ofDocument_of_refused {i : Instruction} {e : OverlayError}
    (first : First (fun i => ∃ f, i.Refused f) doc.instructions i) (refused : i.Refused e) :
    ofDocument doc = .error e := by
  rw [ofDocument_eq, mapM_step_eq_error_iff.mpr ⟨i, first, refused⟩]
  rfl

theorem ofDocument_cases (doc : Document) :
    (∃ i e, First (fun i => ∃ f, i.Refused f) doc.instructions i ∧ i.Refused e ∧
      ofDocument doc = .error e) ∨
    ((∀ i ∈ doc.instructions, ∀ f, ¬ i.Refused f) ∧
      ∃ i name, First (fun i => i.onMixed = true) doc.instructions i ∧
        i.site.owner.name? = some name ∧ ofDocument doc = .error (.ambiguous name)) ∨
    ((∀ i ∈ doc.instructions, ∀ f, ¬ i.Refused f) ∧
      (∀ i ∈ doc.instructions, i.onMixed = false) ∧
      ∃ steps, List.Forall₂ Instruction.AsksFor doc.instructions steps ∧
        ofDocument doc = .ok (ofSteps steps)) := by
  cases answered : doc.instructions.mapM Instruction.step with
  | error e =>
    obtain ⟨i, first, refused⟩ := mapM_step_eq_error_iff.mp answered
    exact Or.inl ⟨i, e, first, refused, ofDocument_of_refused first refused⟩
  | ok steps =>
    have accepted := exists_steps_iff.mp ⟨steps, answered⟩
    obtain ⟨onMixed, unmixed⟩ := ofDocument_of_steps answered
    cases found : doc.instructions.find? Instruction.onMixed with
    | some i =>
      have first := find?_eq_some_iff_first.mp found
      obtain ⟨name, named⟩ := Instruction.name?_of_onMixed first.mem.2
      exact Or.inr (Or.inl ⟨accepted, i, name, first, named, onMixed i name first named⟩)
    | none =>
      have none : ∀ i ∈ doc.instructions, i.onMixed = false := by
        simpa using List.find?_eq_none.mp found
      exact Or.inr (Or.inr ⟨accepted, none, steps, mapM_step_eq_ok_iff.mp answered, unmixed none⟩)

theorem ofDocument_of_ok {p : Plan} (planned : ofDocument doc = .ok p) :
    (∀ i ∈ doc.instructions, ∀ f, ¬ i.Refused f) ∧ (∀ i ∈ doc.instructions, i.onMixed = false) ∧
    ∃ steps, List.Forall₂ Instruction.AsksFor doc.instructions steps ∧ p = ofSteps steps := by
  rcases ofDocument_cases doc with ⟨i, f, _, _, stopped⟩ | ⟨_, i, name, _, _, stopped⟩ |
    ⟨accepted, unmixed, steps, asked, planned'⟩
  · cases planned.symm.trans stopped
  · cases planned.symm.trans stopped
  · cases planned.symm.trans planned'
    exact ⟨accepted, unmixed, steps, asked, rfl⟩

theorem withinTypeEdit_of_ok {p : Plan} (planned : ofDocument doc = .ok p) :
    ∀ e ∈ p.memberEdits, e.withinTypeEdit = false := by
  obtain ⟨_, _, _, passed⟩ := ofDocument_eq_ok_iff.mp planned
  unfold checkUnambiguous at passed
  split at passed
  · cases passed
  · rename_i none
    simpa using List.find?_eq_none.mp none

theorem unmixed_iff :
    (∀ i ∈ doc.instructions, i.onMixed = false) ↔ ∀ d ∈ doc.definitions, ¬ d.Mixes := by
  have mixed := not_congr (@Document.exists_inEdited_iff doc)
  push Not at mixed
  rw [← mixed]
  refine forall₂_congr fun i listed => ?_
  rw [← Document.onMixed_iff listed, Bool.not_eq_true]

theorem first_onMixed_iff {i : Instruction} :
    First (fun i => i.onMixed = true) doc.instructions i ↔
      First (fun i => i.site.InEdited) doc.instructions i :=
  First.congr fun _ listed => Document.onMixed_iff listed

theorem ofDocument_eq_error_iff {e : OverlayError} : ofDocument doc = .error e ↔
    (∃ i, First (fun i => ∃ f, i.Refused f) doc.instructions i ∧ i.Refused e) ∨
    ((∀ i ∈ doc.instructions, ∀ f, ¬ i.Refused f) ∧
      ∃ i name, First (fun i => i.site.InEdited) doc.instructions i ∧
        i.site.owner.name? = some name ∧ e = .ambiguous name) := by
  constructor
  · intro ended
    rcases ofDocument_cases doc with ⟨i, f, first, refused, stopped⟩ |
      ⟨accepted, i, name, first, named, stopped⟩ | ⟨_, _, steps, _, planned⟩
    · cases ended.symm.trans stopped
      exact Or.inl ⟨i, first, refused⟩
    · cases ended.symm.trans stopped
      exact Or.inr ⟨accepted, i, name, first_onMixed_iff.mp first, named, rfl⟩
    · cases ended.symm.trans planned
  · rintro (⟨i, first, refused⟩ | ⟨accepted, i, name, first, named, rfl⟩)
    · exact ofDocument_of_refused first refused
    · obtain ⟨steps, answered⟩ := exists_steps_iff.mpr accepted
      exact (ofDocument_of_steps answered).1 i name (first_onMixed_iff.mpr first) named

theorem exists_ofDocument_iff : (∃ p, ofDocument doc = .ok p) ↔
    (∀ i ∈ doc.instructions, ∀ f, ¬ i.Refused f) ∧ ∀ d ∈ doc.definitions, ¬ d.Mixes := by
  constructor
  · rintro ⟨p, planned⟩
    obtain ⟨accepted, unmixed, _⟩ := ofDocument_of_ok planned
    exact ⟨accepted, unmixed_iff.mp unmixed⟩
  · rintro ⟨accepted, unmixed⟩
    obtain ⟨steps, answered⟩ := exists_steps_iff.mpr accepted
    exact ⟨_, (ofDocument_of_steps answered).2 (unmixed_iff.mpr unmixed)⟩

/-- How an overrides document is classified, by its uses of directives that are named after an action,
in the order of their positions. It is refused for the first one that is refused where it stands: one on
an argument of a field or of a directive definition or on the schema definition, or one to extend or
exclude a member. Otherwise it is refused if a type node carries an action itself and one on a member of
its own, for the node of the first such member. Otherwise the plan holds the edits that the action
directives ask for, each of them one, and none of them is within an edit of its type. -/
theorem ofDocument_classifies (doc : Document) :
    (∃ located : List (Position × Instruction), located.Pairwise (fun x y => x.1.Before y.1) ∧
      (∀ p i, (p, i) ∈ located ↔
        doc.Holds p i.use ∧ i.use.directive.name = i.action.directiveName) ∧
      located.map Prod.snd = doc.instructions) ∧
    (∀ n, (∃ a : Action, n = a.directiveName) ↔
      n ∈ ["create", "delete", "exclude", "extend", "remove", "replace", "upsert"]) ∧
    (∀ e, ofDocument doc = .error e ↔
      (∃ i, First (fun i => ∃ f, i.Refused f) doc.instructions i ∧ i.Refused e) ∨
      ((∀ i ∈ doc.instructions, ∀ f, ¬ i.Refused f) ∧
        ∃ i name, First (fun i => i.site.InEdited) doc.instructions i ∧
          i.site.owner.name? = some name ∧ e = .ambiguous name)) ∧
    ((∃ i ∈ doc.instructions, i.site.InEdited) ↔ ∃ d ∈ doc.definitions, d.Mixes) ∧
    ((∃ p, ofDocument doc = .ok p) ↔
      (∀ i ∈ doc.instructions, ∀ f, ¬ i.Refused f) ∧ ∀ d ∈ doc.definitions, ¬ d.Mixes) ∧
    (∀ p, ofDocument doc = .ok p → ∃ steps,
      List.Forall₂ Instruction.AsksFor doc.instructions steps ∧
      p.typeEdits = steps.filterMap Step.type? ∧ p.memberEdits = steps.filterMap Step.member? ∧
      ∀ e ∈ p.memberEdits, e.withinTypeEdit = false) ∧
    ∀ i ∈ doc.instructions,
      i.site.isType = false ∧ i.site.isMember = false ↔ i.site.IsStray := by
  refine ⟨doc.located_instructions, fun n => Action.exists_directiveName_iff,
    fun e => ofDocument_eq_error_iff, Document.exists_inEdited_iff, exists_ofDocument_iff, ?_,
    fun i listed => Document.misplaced_iff listed⟩
  intro p planned
  obtain ⟨_, _, steps, asked, rfl⟩ := ofDocument_of_ok planned
  exact ⟨steps, asked, rfl, rfl, withinTypeEdit_of_ok planned⟩

/-- Overrides with an action on a type in one node, and with one on a member in another. -/
def apartNodes : Document := ⟨[
  .type none ⟨"User", [⟨"create", []⟩, ⟨"deprecated", []⟩], .object [] []⟩,
  .extension ⟨"User", [], .object [] [
    ⟨none, "name", [], .named "String", [⟨"deprecated", []⟩, ⟨"remove", []⟩]⟩]⟩]⟩

def apartNodesPlan : Plan where
  typeEdits := [⟨.create, .type none ⟨"User", [⟨"deprecated", []⟩], .object [] []⟩,
    .type .object, "User"⟩]
  memberEdits := [⟨.remove, .field ⟨none, "name", [], .named "String", [⟨"deprecated", []⟩]⟩,
    .extensions, .fields, "User", false⟩]

def mixedNode : Document := ⟨[
  .type none ⟨"User", [⟨"upsert", []⟩], .object [] [
    ⟨none, "name", [], .named "String", [⟨"remove", []⟩]⟩]⟩]⟩

/-- The mixed node, and behind it a node with an action on an argument and an extension of a field. -/
def misplacedLater : Document := ⟨mixedNode.definitions ++ [
  .type none ⟨"Post", [], .object [] [
    ⟨none, "likes", [⟨none, "first", .named "Int", none, [⟨"create", []⟩]⟩], .named "Int",
      [⟨"extend", []⟩]⟩]⟩]⟩

theorem ofDocument_classifies_nodes :
    (ofDocument apartNodes = .ok apartNodesPlan ∧ (∀ d ∈ apartNodes.definitions, ¬ d.Mixes) ∧
      ∃ steps, List.Forall₂ Instruction.AsksFor apartNodes.instructions steps ∧
        apartNodesPlan.typeEdits = steps.filterMap Step.type? ∧
        apartNodesPlan.memberEdits = steps.filterMap Step.member?) ∧
    (ofDocument mixedNode = .error (.ambiguous "User") ∧ (∃ d ∈ mixedNode.definitions, d.Mixes) ∧
      ∃ i, First (fun i => i.site.InEdited) mixedNode.instructions i ∧
        i.site.owner.name? = some "User") ∧
    ∃ i, First (fun i => ∃ f, i.Refused f) misplacedLater.instructions i ∧
      i.Refused (.invalidTarget .create
        "input value `first` (in field `likes` in ObjectTypeDefinition `Post`)") := by
  refine ⟨?_, ?_, ?_⟩
  · have planned : ofDocument apartNodes = .ok apartNodesPlan := rfl
    obtain ⟨_, _, _, _, succeeds, holds, _⟩ := ofDocument_classifies apartNodes
    obtain ⟨steps, asked, types, members, _⟩ := holds _ planned
    exact ⟨planned, (succeeds.mp ⟨_, planned⟩).2, steps, asked, types, members⟩
  · have stopped : ofDocument mixedNode = .error (.ambiguous "User") := rfl
    obtain ⟨_, _, fails, mixes, _⟩ := ofDocument_classifies mixedNode
    rcases (fails _).mp stopped with ⟨i, _, refused⟩ | ⟨_, i, name, first, named, same⟩
    · cases refused
    · cases same
      exact ⟨stopped, mixes.mp ⟨i, first.mem⟩, i, first, named⟩
  · have stopped : ofDocument misplacedLater = .error (.invalidTarget .create
        "input value `first` (in field `likes` in ObjectTypeDefinition `Post`)") := rfl
    obtain ⟨_, _, fails, _⟩ := ofDocument_classifies misplacedLater
    rcases (fails _).mp stopped with refused | ⟨_, _, _, _, _, same⟩
    · exact refused
    · cases same

end Plan

end SchemaOverlay
