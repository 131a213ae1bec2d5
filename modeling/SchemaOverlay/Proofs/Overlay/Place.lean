import SchemaOverlay.Proofs.Edit.Catalog
import SchemaOverlay.Proofs.Edit.Draft
import SchemaOverlay.Proofs.Overlay.Schedule

/-!
Every step works at one place of a catalog, a registry and a name: it reads what is held there and
puts or clears what is held there. `Step.onPlace` is the step as a function of what its place holds,
and `Step.perform_eq` says that there is nothing more to it.
-/
namespace SchemaOverlay

open Sdl

theorem Catalog.draftFor_eq {d : Definition} {kind : Kind} {name : Name}
    (known : d.kind? = some kind) (named : d.name? = some name) :
    draftFor kind.registry d = .ok (Draft.opened kind name d) := by
  simp [draftFor, Draft.ofDefinition_eq known named, Draft.registry, Draft.opened, bind,
    Except.bind, pure, Except.pure]

def TypeEdit.incoming (e : TypeEdit) : Draft := .opened e.kind e.name e.definition

/-- What an edit of a type leaves at its place. -/
def TypeEdit.onPlace (e : TypeEdit) (held : Option Draft) : Except EditError (Option Draft) :=
  match e.action, held with
  | .create, none | .upsert, _ | .replace, some _ => .ok (some e.incoming)
  | .create, some _ => .error (.alreadyExists e.name e.registry)
  | .delete, _ | .remove, some _ => .ok none
  | .extend, some draft => some <$> draft.extendWith e.incoming
  | .exclude, some draft => some <$> draft.excludeWith e.incoming
  | .replace, none | .remove, none | .extend, none | .exclude, none =>
    .error (.notFound e.name e.registry)

def MemberEdit.onPlace (e : MemberEdit) : Option Draft → Except OverlayError (Option Draft)
  | some draft => some <$> e.onDraft draft
  | none => .error (.edit (.notFound e.typeName e.registry))

namespace Step

def registry : Step → Registry
  | .type e => e.registry
  | .member e => e.registry

def name : Step → Name
  | .type e => e.name
  | .member e => e.typeName

def isAt (s : Step) (r : Registry) (n : Name) : Bool := s.registry = r ∧ s.name = n

def onPlace : Step → Option Draft → Except OverlayError (Option Draft)
  | .type e, held => (e.onPlace held).mapError .edit
  | .member e, held => e.onPlace held

end Step

theorem TypeEdit.perform_eq {e : TypeEdit} (wf : e.WellFormed) (cat : Catalog) :
    e.perform cat =
      (e.onPlace (cat.get? e.registry e.name)).map (cat.store e.registry e.name) := by
  have made : Catalog.draftFor e.registry e.definition = .ok e.incoming :=
    Catalog.draftFor_eq wf.kind wf.name
  have name : e.incoming.name = e.name := rfl
  cases act : e.action <;> cases held : cat.get? e.registry e.name <;>
    simp only [perform, onPlace, act, held, name, Catalog.create_eq made, Catalog.replace_eq made,
      Catalog.upsert_eq made, Catalog.remove_eq, Catalog.extend_eq made,
      Catalog.exclude_eq made] <;>
    first | rfl | skip
  case exclude.some old => cases old.excludeWith e.incoming <;> rfl
  case extend.some old => cases old.extendWith e.incoming <;> rfl

theorem MemberEdit.perform_eq (e : MemberEdit) (cat : Catalog) :
    e.perform cat =
      (e.onPlace (cat.get? e.registry e.typeName)).map (cat.store e.registry e.typeName) := by
  cases held : cat.get? e.registry e.typeName with
  | none => simp [perform, Catalog.existing, onPlace, held, Except.mapError, Except.map, bind,
      Except.bind]
  | some draft =>
    simp only [perform, Catalog.existing, onPlace, held, Except.mapError, bind, Except.bind]
    cases e.onDraft draft <;> rfl

theorem Step.perform_eq {s : Step} (wf : s.WellFormed) (cat : Catalog) :
    s.perform cat = (s.onPlace (cat.get? s.registry s.name)).map (cat.store s.registry s.name) := by
  cases s with
  | type e =>
    simp only [perform, TypeEdit.perform_eq wf, onPlace, registry, name]
    cases e.onPlace (cat.get? e.registry e.name) <;> rfl
  | member e => exact MemberEdit.perform_eq e cat

theorem Step.perform_eq_ok_iff {s : Step} (wf : s.WellFormed) {cat cat' : Catalog} :
    s.perform cat = .ok cat' ↔
      ∃ held, s.onPlace (cat.get? s.registry s.name) = .ok held ∧
        cat' = cat.store s.registry s.name held := by
  rw [perform_eq wf]
  cases s.onPlace (cat.get? s.registry s.name) <;> simp [Except.map, eq_comm]

theorem performAll_induction {steps : List Step} (wf : ∀ s ∈ steps, s.WellFormed)
    {P : Catalog → Prop} {cat cat' : Catalog} (start : P cat)
    (stored : ∀ s ∈ steps, ∀ mid held, P mid →
      s.onPlace (mid.get? s.registry s.name) = .ok held → P (mid.store s.registry s.name held))
    (ran : performAll steps cat = .ok cat') : P cat' := by
  induction steps generalizing cat with
  | nil =>
    cases ran
    exact start
  | cons s rest ih =>
    obtain ⟨mid, first, later⟩ := performAll_cons_ok.mp ran
    obtain ⟨held, made, rfl⟩ := (Step.perform_eq_ok_iff (wf s (by simp))).mp first
    exact ih (fun t member => wf t (by simp [member])) (stored s (by simp) cat held start made)
      (fun t member => stored t (by simp [member])) later

/-- The steps at one place, as a run on what is held there. -/
def onPlaceAll (steps : List Step) (held : Option Draft) : Except OverlayError (Option Draft) :=
  steps.foldlM (fun held s => s.onPlace held) held

theorem onPlaceAll_cons (s : Step) (rest : List Step) (held : Option Draft) :
    onPlaceAll (s :: rest) held = s.onPlace held >>= onPlaceAll rest :=
  List.foldlM_cons

theorem onPlaceAll_cons_ok {s : Step} {rest : List Step} {held last : Option Draft} :
    onPlaceAll (s :: rest) held = .ok last ↔
      ∃ mid, s.onPlace held = .ok mid ∧ onPlaceAll rest mid = .ok last := by
  rw [onPlaceAll_cons]
  cases s.onPlace held <;> simp [bind, Except.bind]

theorem Step.isAt_iff {s : Step} {r : Registry} {n : Name} :
    s.isAt r n = true ↔ s.registry = r ∧ s.name = n := by
  simp [isAt]

def stepsAt (r : Registry) (n : Name) (steps : List Step) : List Step :=
  steps.filter (·.isAt r n)

theorem stepsAt_cons_self (s : Step) (rest : List Step) :
    stepsAt s.registry s.name (s :: rest) = s :: stepsAt s.registry s.name rest := by
  simp [stepsAt, Step.isAt]

theorem stepsAt_cons_of_ne {s : Step} {r : Registry} {n : Name}
    (other : (s.registry, s.name) ≠ (r, n)) (rest : List Step) :
    stepsAt r n (s :: rest) = stepsAt r n rest := by
  have away : s.isAt r n = false := by
    simpa [Step.isAt, Prod.ext_iff] using other
  simp [stepsAt, away]

theorem stepsAt_stepsAt (r : Registry) (n : Name) (steps : List Step) :
    stepsAt r n (stepsAt r n steps) = stepsAt r n steps := by
  simp [stepsAt]

theorem stepsAt_of_ne {r s : Registry} {n m : Name} (other : (r, n) ≠ (s, m))
    (steps : List Step) : stepsAt s m (stepsAt r n steps) = [] := by
  simp only [stepsAt, List.filter_eq_nil_iff]
  intro t member there
  obtain ⟨rfl, rfl⟩ := Step.isAt_iff.mp (List.mem_filter.mp member).2
  obtain ⟨rfl, rfl⟩ := Step.isAt_iff.mp there
  exact other rfl

/-- A run leaves at each place what the steps at that place make of it. -/
theorem performAll_place {steps : List Step} (wf : ∀ s ∈ steps, s.WellFormed)
    {cat cat' : Catalog} (ran : performAll steps cat = .ok cat') (r : Registry) (n : Name) :
    onPlaceAll (stepsAt r n steps) (cat.get? r n) = .ok (cat'.get? r n) := by
  induction steps generalizing cat with
  | nil =>
    cases ran
    rfl
  | cons s rest ih =>
    obtain ⟨mid, first, later⟩ := performAll_cons_ok.mp ran
    obtain ⟨held, made, rfl⟩ := (Step.perform_eq_ok_iff (wf s (by simp))).mp first
    have tail := ih (fun t member => wf t (by simp [member])) later
    by_cases here : (s.registry, s.name) = (r, n)
    · cases here
      rw [Catalog.get?_store_self] at tail
      rw [stepsAt_cons_self]
      exact onPlaceAll_cons_ok.mpr ⟨held, made, tail⟩
    · rw [Catalog.get?_store_of_ne cat held here] at tail
      rwa [stepsAt_cons_of_ne here]

theorem performAll_of_places {steps : List Step} (wf : ∀ s ∈ steps, s.WellFormed) (cat : Catalog)
    (places : ∀ r n, ∃ last, onPlaceAll (stepsAt r n steps) (cat.get? r n) = .ok last) :
    ∃ cat', performAll steps cat = .ok cat' := by
  induction steps generalizing cat with
  | nil => exact ⟨cat, rfl⟩
  | cons s rest ih =>
    obtain ⟨last, here⟩ := places s.registry s.name
    rw [stepsAt_cons_self] at here
    obtain ⟨held, made, after⟩ := onPlaceAll_cons_ok.mp here
    have first := (Step.perform_eq_ok_iff (wf s (by simp))).mpr ⟨held, made, rfl⟩
    have others : ∀ r n, ∃ last, onPlaceAll (stepsAt r n rest)
        ((cat.store s.registry s.name held).get? r n) = .ok last := by
      intro r n
      by_cases same : (s.registry, s.name) = (r, n)
      · cases same
        rw [Catalog.get?_store_self]
        exact ⟨last, after⟩
      · obtain ⟨final, there⟩ := places r n
        rw [stepsAt_cons_of_ne same] at there
        rw [Catalog.get?_store_of_ne cat held same]
        exact ⟨final, there⟩
    obtain ⟨cat', later⟩ := ih (fun t member => wf t (by simp [member])) _ others
    exact ⟨cat', performAll_cons_ok.mpr ⟨_, first, later⟩⟩

/-- Steps at one place alone see nothing of a catalog but that place. -/
theorem performAll_stepsAt_iff {steps : List Step} (wf : ∀ s ∈ steps, s.WellFormed)
    {cat : Catalog} {r : Registry} {n : Name} {held : Option Draft} :
    onPlaceAll (stepsAt r n steps) (cat.get? r n) = .ok held ↔
      ∃ part, performAll (stepsAt r n steps) cat = .ok part ∧ part.get? r n = held := by
  have partWf : ∀ s ∈ stepsAt r n steps, s.WellFormed :=
    fun s member => wf s (List.mem_filter.mp member).1
  constructor
  · intro here
    obtain ⟨part, ran⟩ := performAll_of_places partWf cat (by
      intro s m
      by_cases same : (r, n) = (s, m)
      · cases same
        rw [stepsAt_stepsAt]
        exact ⟨held, here⟩
      · rw [stepsAt_of_ne same]
        exact ⟨_, rfl⟩)
    have there := performAll_place partWf ran r n
    rw [stepsAt_stepsAt, here] at there
    cases there
    exact ⟨part, ran, rfl⟩
  · rintro ⟨part, ran, rfl⟩
    have there := performAll_place partWf ran r n
    rwa [stepsAt_stepsAt] at there

end SchemaOverlay
