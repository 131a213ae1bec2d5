import SchemaOverlay.Overlay.Apply
import SchemaOverlay.Proofs.Sdl.Use

/-!
How an overrides document becomes a plan: each use of an action directive either asks for one step
or is refused, and the plan lists the steps in the order of the uses. What is recorded is
well-formed: an edit of a type holds a definition of that kind and name, and an edit of a member is
of a kind that some phase carries out.
-/
namespace SchemaOverlay

open Sdl

def Sdl.Site.owner : Site → Definition
  | .definition d | .field d _ | .argument d _ _ | .inputValue d _ | .enumValue d _ => d

def Sdl.Site.member? (index : Nat) : Site → Option (Collection × Entry)
  | .field _ f => some (.fields, .field { f with directives := f.directives.eraseIdx index })
  | .inputValue _ v =>
    some (.fields, .inputValue { v with directives := v.directives.eraseIdx index })
  | .enumValue _ v =>
    some (.values, .enumValue { v with directives := v.directives.eraseIdx index })
  | .definition _ | .argument .. => none

namespace Plan

def memberStep (a : Action) (d : Definition) (kind : Kind) (name : Name) (c : Collection)
    (e : Entry) : Except OverlayError Step :=
  if a.appliesToMembers then .ok (.member ⟨a, e, kind.registry, c, name, carriesAction d⟩)
  else .error (.unsupportedOnMember a name e.name)

def stepAt (a : Action) (site : Site) (index : Nat) : Except OverlayError Step :=
  match typeNode? site.owner, site.owner.kind? with
  | some node, some kind =>
    match site, site.member? index with
    | .definition d, _ => .ok (.type ⟨a, dropDirective d index, kind, node.name⟩)
    | _, some (c, e) => memberStep a site.owner kind node.name c e
    | _, none => .error (.invalidTarget a (describeSite site))
  | _, _ => .error (.invalidTarget a (describeSite site))

def add (p : Plan) : Option Step → Plan
  | some (.type e) => { p with typeEdits := p.typeEdits ++ [e] }
  | some (.member e) => { p with memberEdits := p.memberEdits ++ [e] }
  | none => p

end Plan

def Sdl.Use.step? (u : Use) : Except OverlayError (Option Step) :=
  match Action.ofDirectiveName? u.directive.name with
  | some a => some <$> Plan.stepAt a u.site u.index
  | none => .ok none

namespace Plan

theorem recordMember_run (a : Action) (d : Definition) (kind : Kind) (name : Name) (c : Collection)
    (e : Entry) (p : Plan) :
    (recordMember a d kind name c e).run p =
      (memberStep a d kind name c e).map fun s => (⟨⟩, p.add (some s)) := by
  cases h : a.appliesToMembers <;> simp [recordMember, memberStep, h, add] <;> rfl

theorem recordAction_run (a : Action) (site : Site) (index : Nat) (p : Plan) :
    (recordAction a site index).run p =
      (stepAt a site index).map fun s => (⟨⟩, p.add (some s)) := by
  cases site with
  | definition d => cases d <;> rfl
  | argument d f v => cases d <;> rfl
  | field d f => cases d <;> first | exact recordMember_run .. | rfl
  | inputValue d v => cases d <;> first | exact recordMember_run .. | rfl
  | enumValue d v => cases d <;> first | exact recordMember_run .. | rfl

theorem recordUse_run (u : Use) (p : Plan) :
    (recordUse u).run p = u.step?.map fun s => (⟨⟩, p.add s) := by
  cases named : Action.ofDirectiveName? u.directive.name with
  | none =>
    simp only [recordUse, Use.step?, named]
    rfl
  | some a =>
    simp only [recordUse, Use.step?, named, recordAction_run]
    cases stepAt a u.site u.index <;> rfl

theorem recordUses_run (uses : List Use) (p : Plan) :
    (forM uses recordUse).run p =
      (uses.mapM Use.step?).map fun steps => (⟨⟩, steps.foldl add p) := by
  induction uses generalizing p with
  | nil => rfl
  | cons u rest ih =>
    rw [List.forM_cons, StateT.run_bind, recordUse_run, List.mapM_cons]
    cases u.step? with
    | error e => rfl
    | ok s =>
      simp only [Except.map, bind, Except.bind, ih]
      cases rest.mapM Use.step? <;> rfl

theorem ofDocument_eq_ok_iff {doc : Document} {p : Plan} :
    ofDocument doc = .ok p ↔
      ∃ steps, doc.uses.mapM Use.step? = .ok steps ∧ steps.foldl add empty = p ∧
        p.checkUnambiguous = .ok () := by
  rw [ofDocument, Document.walk_eq, recordUses_run]
  cases doc.uses.mapM Use.step? with
  | error e => simp [Except.map, bind, Except.bind]
  | ok steps =>
    simp only [Except.map, bind, Except.bind, pure, Except.pure, Except.ok.injEq,
      exists_eq_left']
    cases h : (steps.foldl add empty).checkUnambiguous with
    | error e =>
      constructor
      · intro ended
        simp at ended
      · rintro ⟨rfl, passed⟩
        simp [h] at passed
    | ok u =>
      constructor
      · intro ended
        cases ended
        exact ⟨rfl, h⟩
      · rintro ⟨rfl, passed⟩
        rfl

end Plan

structure TypeEdit.WellFormed (e : TypeEdit) : Prop where
  kind : e.definition.kind? = some e.kind
  name : e.definition.name? = some e.name
  form : e.kind ≠ .directive

structure MemberEdit.WellFormed (e : MemberEdit) : Prop where
  action : e.action ∈ Action.memberPhases
  registry : e.registry ≠ .directives

def Step.WellFormed : Step → Prop
  | .type e => e.WellFormed
  | .member e => e.WellFormed

structure Plan.WellFormed (p : Plan) : Prop where
  typeEdits : ∀ e ∈ p.typeEdits, e.WellFormed
  memberEdits : ∀ e ∈ p.memberEdits, e.WellFormed

namespace Plan

theorem dropDirective_kind? (d : Definition) (index : Nat) :
    (dropDirective d index).kind? = d.kind? := by
  cases d <;> rfl

theorem dropDirective_name? (d : Definition) (index : Nat) :
    (dropDirective d index).name? = d.name? := by
  cases d <;> rfl

theorem name?_of_typeNode? {d : Definition} {node : TypeNode} (typed : typeNode? d = some node) :
    d.name? = some node.name := by
  cases d <;> simp_all [typeNode?, Definition.name?]

theorem kind_ne_directive {d : Definition} {node : TypeNode} {kind : Kind}
    (typed : typeNode? d = some node) (known : d.kind? = some kind) : kind ≠ .directive := by
  cases d <;> simp_all [typeNode?, Definition.kind?] <;> simp [← known]

theorem registry_ne_directives {kind : Kind} (typed : kind ≠ .directive) :
    kind.registry ≠ .directives := by
  cases kind <;> simp_all [Kind.registry]

theorem memberStep_wellFormed {a : Action} {d : Definition} {kind : Kind} {name : Name}
    {c : Collection} {e : Entry} {s : Step} (typed : kind ≠ .directive)
    (asked : memberStep a d kind name c e = .ok s) : s.WellFormed := by
  unfold memberStep at asked
  split at asked
  · rename_i member
    cases asked
    exact ⟨by simpa [Action.appliesToMembers] using member, registry_ne_directives typed⟩
  · cases asked

theorem stepAt_wellFormed {a : Action} {site : Site} {index : Nat} {s : Step}
    (asked : stepAt a site index = .ok s) : s.WellFormed := by
  unfold stepAt at asked
  split at asked
  · rename_i node kind typed known
    have form := kind_ne_directive typed known
    split at asked
    · rename_i d
      cases asked
      exact ⟨(dropDirective_kind? d index).trans known,
        (dropDirective_name? d index).trans (name?_of_typeNode? typed), form⟩
    · exact memberStep_wellFormed form asked
    · cases asked
  · cases asked

theorem step?_wellFormed {u : Use} {s : Step} (asked : u.step? = .ok (some s)) :
    s.WellFormed := by
  unfold Use.step? at asked
  split at asked
  · rename_i a named
    cases found : stepAt a u.site u.index with
    | error e => simp [found, Functor.map, Except.map] at asked
    | ok t =>
      simp only [found, Functor.map, Except.map, Except.ok.injEq, Option.some.injEq] at asked
      exact asked ▸ stepAt_wellFormed found
  · cases asked

theorem WellFormed.add {p : Plan} (wf : p.WellFormed) {u : Use} {s : Option Step}
    (asked : u.step? = .ok s) : (p.add s).WellFormed := by
  match s with
  | none => exact wf
  | some (.type e) =>
    refine ⟨fun t member => ?_, wf.memberEdits⟩
    rcases List.mem_append.mp member with old | new
    · exact wf.typeEdits t old
    · exact List.mem_singleton.mp new ▸ step?_wellFormed asked
  | some (.member e) =>
    refine ⟨wf.typeEdits, fun t member => ?_⟩
    rcases List.mem_append.mp member with old | new
    · exact wf.memberEdits t old
    · exact List.mem_singleton.mp new ▸ step?_wellFormed asked

theorem WellFormed.addAll {uses : List Use} {steps : List (Option Step)} {p : Plan}
    (wf : p.WellFormed) (asked : uses.mapM Use.step? = .ok steps) :
    (steps.foldl Plan.add p).WellFormed := by
  induction uses generalizing steps p with
  | nil =>
    cases asked
    exact wf
  | cons u rest ih =>
    rw [List.mapM_cons] at asked
    cases first : u.step? with
    | error e => simp [first, bind, Except.bind] at asked
    | ok s =>
      cases later : rest.mapM Use.step? with
      | error e => simp [first, later, bind, Except.bind] at asked
      | ok ss =>
        simp only [first, later, bind, Except.bind, pure, Except.pure, Except.ok.injEq] at asked
        rw [← asked, List.foldl_cons]
        exact ih (wf.add first) later

theorem ofDocument_wellFormed {doc : Document} {p : Plan} (planned : ofDocument doc = .ok p) :
    p.WellFormed := by
  obtain ⟨steps, asked, rfl, _⟩ := ofDocument_eq_ok_iff.mp planned
  have start : empty.WellFormed := ⟨by simp [empty], by simp [empty]⟩
  exact start.addAll asked

end Plan

end SchemaOverlay
