import SchemaOverlay.Proofs.Overlay.Place

/-!
Edits of different definitions do not interfere. A plan succeeds on a catalog exactly when, for each
registry and name, the edits of that definition alone succeed on a catalog that holds nothing else,
and what it leaves there is what they leave. What no edit is about stays as it was, in its order.
-/
namespace SchemaOverlay

open Sdl

/-- The catalog with nothing but what it holds at one place. -/
def Catalog.onlyAt (cat : Catalog) (r : Registry) (n : Name) : Catalog :=
  Catalog.empty.store r n (cat.get? r n)

theorem Catalog.get?_onlyAt (cat : Catalog) (r : Registry) (n : Name) :
    (cat.onlyAt r n).get? r n = cat.get? r n :=
  get?_store_self ..

namespace Plan

/-- The plan with nothing but the edits of one definition and of its members. -/
def onlyAt (p : Plan) (r : Registry) (n : Name) : Plan where
  typeEdits := p.typeEdits.filter fun e => e.registry = r ∧ e.name = n
  memberEdits := p.memberEdits.filter fun e => e.registry = r ∧ e.typeName = n

def targets (p : Plan) (r : Registry) (n : Name) : Bool :=
  (p.typeEdits.any fun e => e.registry = r ∧ e.name = n) ||
    p.memberEdits.any fun e => e.registry = r ∧ e.typeName = n

theorem WellFormed.onlyAt {p : Plan} (wf : p.WellFormed) (r : Registry) (n : Name) :
    (p.onlyAt r n).WellFormed :=
  ⟨fun e member => wf.typeEdits e (List.mem_filter.mp member).1,
    fun e member => wf.memberEdits e (List.mem_filter.mp member).1⟩

theorem mem_schedule_iff {p : Plan} {s : Step} :
    s ∈ p.schedule ↔
      (∃ e ∈ p.typeEdits, Step.type e = s) ∨ ∃ e ∈ p.memberEdits, Step.member e = s := by
  rw [p.schedule_perm.mem_iff]
  simp

theorem WellFormed.step {p : Plan} (wf : p.WellFormed) : ∀ s ∈ p.schedule, s.WellFormed := by
  intro s member
  rcases mem_schedule_iff.mp member with ⟨e, listed, rfl⟩ | ⟨e, listed, rfl⟩
  · exact wf.typeEdits e listed
  · exact wf.memberEdits e listed

theorem targets_of_mem_schedule {p : Plan} {s : Step} (member : s ∈ p.schedule) :
    p.targets s.registry s.name = true := by
  simp only [targets, Bool.or_eq_true, List.any_eq_true, decide_eq_true_eq]
  rcases mem_schedule_iff.mp member with ⟨e, listed, rfl⟩ | ⟨e, listed, rfl⟩
  · exact Or.inl ⟨e, listed, rfl, rfl⟩
  · exact Or.inr ⟨e, listed, rfl, rfl⟩

theorem byPhase_filter {α : Type} (phases : List Action) (action : α → Action) (keep : α → Bool)
    (l : List α) :
    byPhase phases action (l.filter keep) = (byPhase phases action l).filter keep := by
  simp only [byPhase, List.filter_flatMap, List.filter_filter, Bool.and_comm]

theorem schedule_onlyAt {p : Plan} (wf : p.WellFormed) (r : Registry) (n : Name) :
    (p.onlyAt r n).schedule = stepsAt r n p.schedule := by
  rw [schedule_eq (wf.onlyAt r n), schedule_eq wf, onlyAt, byPhase_filter, byPhase_filter, stepsAt,
    List.filter_append, List.filter_map, List.filter_map]
  rfl

theorem outcome_onlyAt_iff {p : Plan} (wf : p.WellFormed) {cat part : Catalog} {r : Registry}
    {n : Name} : (p.onlyAt r n).outcome cat = .ok part ↔
      performAll (stepsAt r n p.schedule) cat = .ok part := by
  rw [outcome_eq (wf.onlyAt r n), schedule_onlyAt wf]

theorem outcome_place {p : Plan} (wf : p.WellFormed) {cat cat' : Catalog}
    (ran : p.outcome cat = .ok cat') (r : Registry) (n : Name) :
    onPlaceAll (stepsAt r n p.schedule) (cat.get? r n) = .ok (cat'.get? r n) :=
  performAll_place wf.step ((outcome_eq wf cat).symm.trans ran) r n

/-- The steps at a place do there what the plan restricted to it does on the restricted catalog. -/
theorem onPlaceAll_iff_onlyAt {p : Plan} (wf : p.WellFormed) {cat : Catalog} {r : Registry}
    {n : Name} {held : Option Draft} :
    onPlaceAll (stepsAt r n p.schedule) (cat.get? r n) = .ok held ↔
      ∃ part, (p.onlyAt r n).outcome (cat.onlyAt r n) = .ok part ∧ part.get? r n = held := by
  simp only [outcome_onlyAt_iff wf]
  rw [← Catalog.get?_onlyAt cat r n]
  exact performAll_stepsAt_iff wf.step

theorem filter_pairs_outcome {p : Plan} (wf : p.WellFormed) {cat cat' : Catalog}
    (ran : p.outcome cat = .ok cat') (r : Registry) (keep : Name → Bool)
    (untouched : ∀ n, p.targets r n = true → keep n = false) :
    (cat'.registry r).pairs.filter (fun q => keep q.1) =
      (cat.registry r).pairs.filter (fun q => keep q.1) := by
  rw [outcome_eq wf] at ran
  apply performAll_induction wf.step (P := fun mid =>
    (mid.registry r).pairs.filter (fun q => keep q.1) =
      (cat.registry r).pairs.filter (fun q => keep q.1)) rfl ?_ ran
  intro s member mid held same _
  rw [← same]
  apply Catalog.filter_pairs_store
  rintro rfl
  exact untouched s.name (targets_of_mem_schedule member)

theorem not_targets_directives {p : Plan} (wf : p.WellFormed) (n : Name) :
    p.targets .directives n = false := by
  rw [← Bool.not_eq_true]
  intro target
  simp only [targets, Bool.or_eq_true, List.any_eq_true, decide_eq_true_eq] at target
  rcases target with ⟨e, listed, there, _⟩ | ⟨e, listed, there, _⟩
  · exact registry_ne_directives (wf.typeEdits e listed).form there
  · exact (wf.memberEdits e listed).registry there

theorem directives_outcome {p : Plan} (wf : p.WellFormed) {cat cat' : Catalog}
    (ran : p.outcome cat = .ok cat') : cat'.directives = cat.directives := by
  have same := filter_pairs_outcome wf ran .directives (fun _ => true) (by
    intro n target
    rw [not_targets_directives wf] at target
    cases target)
  simp only [List.filter_true] at same
  exact Keyed.eq_of_pairs same

/-- A plan succeeds exactly when its edits of each definition succeed alone, and leaves what they
leave there. Definitions that no edit is about, and all directive definitions, are as they were and
in the order they had. What becomes of a definition hangs on the edits of it and on what it was
before. -/
theorem outcome_of_places {overrides : Document} {p : Plan}
    (planned : ofDocument overrides = .ok p) (cat : Catalog) :
    ((∃ cat', p.outcome cat = .ok cat') ↔
      ∀ r n, ∃ part, (p.onlyAt r n).outcome (cat.onlyAt r n) = .ok part) ∧
    ∀ cat', p.outcome cat = .ok cat' →
      (∀ r n part, (p.onlyAt r n).outcome (cat.onlyAt r n) = .ok part →
        cat'.get? r n = part.get? r n) ∧
      (∀ r, (cat'.registry r).pairs.filter (fun q => !p.targets r q.1) =
        (cat.registry r).pairs.filter (fun q => !p.targets r q.1)) ∧
      cat'.directives = cat.directives ∧
      ∀ others q other other', ofDocument others = .ok q → q.outcome other = .ok other' →
        ∀ r n, q.onlyAt r n = p.onlyAt r n → other.get? r n = cat.get? r n →
          other'.get? r n = cat'.get? r n := by
  have wf := ofDocument_wellFormed planned
  refine ⟨⟨?_, ?_⟩, fun cat' ran => ⟨?_, ?_, directives_outcome wf ran, ?_⟩⟩
  · rintro ⟨cat', ran⟩ r n
    obtain ⟨part, made, _⟩ := (onPlaceAll_iff_onlyAt wf).mp (outcome_place wf ran r n)
    exact ⟨part, made⟩
  · intro parts
    have places : ∀ r n, ∃ last, onPlaceAll (stepsAt r n p.schedule) (cat.get? r n) = .ok last := by
      intro r n
      obtain ⟨part, made⟩ := parts r n
      exact ⟨_, (onPlaceAll_iff_onlyAt wf).mpr ⟨part, made, rfl⟩⟩
    obtain ⟨cat', ran⟩ := performAll_of_places wf.step cat places
    exact ⟨cat', (outcome_eq wf cat).trans ran⟩
  · intro r n part made
    have there := outcome_place wf ran r n
    rw [(onPlaceAll_iff_onlyAt wf).mpr ⟨part, made, rfl⟩] at there
    exact (Except.ok.inj there).symm
  · intro r
    exact filter_pairs_outcome wf ran r (fun n => !p.targets r n) (by
      intro n target
      simp [target])
  · intro others q other other' replanned reran r n edits held
    have qwf := ofDocument_wellFormed replanned
    have there := outcome_place qwf reran r n
    rw [← schedule_onlyAt qwf, edits, schedule_onlyAt wf, held, outcome_place wf ran r n] at there
    exact (Except.ok.inj there).symm

end Plan

def Catalog.ofObjects (names : List Name) : Catalog where
  directives := .empty
  definitions := .ofList (names.map fun n =>
    (n, .opened (.type .object) n (objectOf n [] [("id", []), ("name", [])])))
  extensions := .empty

namespace Plan

def namelessUser (others : List Definition) : Document :=
  ⟨others ++ [objectOf "User" [] [("name", ["delete"])]]⟩

def namelessPlan (others : List TypeEdit) : Plan :=
  ⟨others, [⟨.delete, .field (stringField "name" []), .definitions, .fields, "User", false⟩]⟩

theorem outcome_of_places_namelessUser :
    ofDocument (namelessUser [objectOf "Page" ["delete"] []]) =
      .ok (namelessPlan [⟨.delete, objectOf "Page" [] [], .type .object, "Page"⟩]) ∧
    ofDocument (namelessUser []) = .ok (namelessPlan []) ∧
    ∃ cat' other',
      (namelessPlan [⟨.delete, objectOf "Page" [] [], .type .object, "Page"⟩]).outcome
        (.ofObjects ["Page", "User"]) = .ok cat' ∧
      (namelessPlan []).outcome (.ofObjects ["User"]) = .ok other' ∧
      other'.get? .definitions "User" = cat'.get? .definitions "User" := by
  have first : ofDocument (namelessUser [objectOf "Page" ["delete"] []]) =
      .ok (namelessPlan [⟨.delete, objectOf "Page" [] [], .type .object, "Page"⟩]) := rfl
  have second : ofDocument (namelessUser []) = .ok (namelessPlan []) := rfl
  have ran : (namelessPlan [⟨.delete, objectOf "Page" [] [], .type .object, "Page"⟩]).outcome
      (.ofObjects ["Page", "User"]) = .ok _ := rfl
  have reran : (namelessPlan []).outcome (.ofObjects ["User"]) = .ok _ := rfl
  obtain ⟨_, _, _, same⟩ := (outcome_of_places first _).2 _ ran
  exact ⟨first, second, _, _, ran, reran, same _ _ _ _ second reran _ _ rfl rfl⟩

end Plan

end SchemaOverlay
