import SchemaOverlay.Proofs.Overlay.Interference

/-!
The names of a registry after a run, and their order. Creating and upserting add a name at the end
if it is new, deleting and removing drop it, and no other edit changes the names; so the phases
leave first the names that were there and then those that came, without the dropped ones.
-/
namespace SchemaOverlay

open Sdl

def addName (names : List Name) (n : Name) : List Name :=
  if n ∈ names then names else names ++ [n]

theorem foldl_addName (l names : List Name) :
    l.foldl addName names = names ++ l.eraseDups.filter (fun n => decide (n ∉ names)) := by
  induction l generalizing names with
  | nil => simp
  | cons n rest ih =>
    rw [List.foldl_cons, ih, List.eraseDups_cons, eraseDups_filter]
    by_cases present : n ∈ names
    · have same : addName names n = names := if_pos present
      rw [same, List.filter_cons_of_neg (by simp [present]), List.filter_filter]
      congr 1
      apply List.filter_congr
      intro m _
      by_cases equal : m = n
      · simp [equal, present]
      · simp [equal]
    · have grown : addName names n = names ++ [n] := if_neg present
      rw [grown, List.filter_cons_of_pos (by simp [present]), List.filter_filter, List.append_assoc,
        List.singleton_append]
      congr 2
      apply List.filter_congr
      intro m _
      by_cases equal : m = n
      · simp [equal]
      · simp [equal]

def Step.onNames (r : Registry) (names : List Name) : Step → List Name
  | .type e =>
    if e.registry = r then
      match e.action with
      | .create | .upsert => addName names e.name
      | .delete | .remove => names.filter (· ≠ e.name)
      | .exclude | .extend | .replace => names
    else names
  | .member _ => names

theorem Catalog.names_store_of_ne (cat : Catalog) {r s : Registry} (n : Name)
    (held : Option Draft) (other : r ≠ s) : (cat.store r n held).names s = cat.names s := by
  rw [names, registry_store_of_ne cat n held other]
  rfl

theorem Catalog.names_store_of_mem (cat : Catalog) {r : Registry} {n : Name} (draft : Draft)
    (present : n ∈ cat.names r) : (cat.store r n (some draft)).names r = cat.names r := by
  rw [names_store_some, if_pos present]

theorem TypeEdit.names_store {e : TypeEdit} {cat : Catalog} {held : Option Draft}
    (made : e.onPlace (cat.get? e.registry e.name) = .ok held) :
    (cat.store e.registry e.name held).names e.registry =
      (Step.type e).onNames e.registry (cat.names e.registry) := by
  cases was : cat.get? e.registry e.name with
  | none =>
    rw [was] at made
    cases act : e.action <;> simp only [onPlace, act] at made <;> cases made <;>
      simp only [Step.onNames, act, ↓reduceIte]
    · exact Catalog.names_store_some ..
    · exact Catalog.names_store_none ..
    · exact Catalog.names_store_some ..
  | some old =>
    have present := Catalog.mem_names_of_get? was
    rw [was] at made
    cases act : e.action <;> simp only [onPlace, act] at made <;>
      simp only [Step.onNames, act, ↓reduceIte]
    · cases made
    · cases made
      exact Catalog.names_store_none ..
    · cases merged : old.excludeWith e.incoming <;> rw [merged] at made <;> cases made
      exact Catalog.names_store_of_mem cat _ present
    · cases merged : old.extendWith e.incoming <;> rw [merged] at made <;> cases made
      exact Catalog.names_store_of_mem cat _ present
    · cases made
      exact Catalog.names_store_none ..
    · cases made
      exact Catalog.names_store_of_mem cat _ present
    · cases made
      exact Catalog.names_store_some ..

theorem Step.names_perform {s : Step} (wf : s.WellFormed) {cat cat' : Catalog}
    (ran : s.perform cat = .ok cat') (r : Registry) :
    cat'.names r = s.onNames r (cat.names r) := by
  obtain ⟨held, made, rfl⟩ := (perform_eq_ok_iff wf).mp ran
  by_cases here : s.registry = r
  · subst here
    cases s with
    | type e =>
      cases left : e.onPlace (cat.get? e.registry e.name) with
      | error f => simp [onPlace, registry, name, left, Except.mapError] at made
      | ok kept =>
        simp only [onPlace, registry, name, left, Except.mapError, Except.ok.injEq] at made
        exact made ▸ TypeEdit.names_store left
    | member e =>
      cases was : cat.get? e.registry e.typeName with
      | none => simp [onPlace, registry, name, MemberEdit.onPlace, was] at made
      | some old =>
        cases edited : e.onDraft old with
        | error f => simp [onPlace, registry, name, MemberEdit.onPlace, was, edited] at made
        | ok draft =>
          simp only [onPlace, registry, name, MemberEdit.onPlace, was, edited, Functor.map,
            Except.map, Except.ok.injEq] at made
          rw [← made]
          exact Catalog.names_store_of_mem cat draft (Catalog.mem_names_of_get? was)
  · rw [Catalog.names_store_of_ne cat _ held here]
    cases s with
    | type e => exact (if_neg here).symm
    | member e => rfl

theorem names_performAll {steps : List Step} (wf : ∀ s ∈ steps, s.WellFormed)
    {cat cat' : Catalog} (ran : performAll steps cat = .ok cat') (r : Registry) :
    cat'.names r = steps.foldl (Step.onNames r) (cat.names r) := by
  induction steps generalizing cat with
  | nil =>
    cases ran
    rfl
  | cons s rest ih =>
    obtain ⟨mid, first, later⟩ := performAll_cons_ok.mp ran
    rw [List.foldl_cons, ← Step.names_perform (wf s (by simp)) first]
    exact ih (fun t member => wf t (by simp [member])) later

section Phases

variable (r : Registry) (names : List Name)

def namesIn (edits : List TypeEdit) : List Name :=
  (edits.filter (·.registry = r)).map (·.name)

theorem foldl_onNames_members (edits : List MemberEdit) :
    (edits.map Step.member).foldl (Step.onNames r) names = names := by
  induction edits with
  | nil => rfl
  | cons e rest ih => exact ih

variable (edits : List TypeEdit)

theorem foldl_onNames_add (adds : ∀ e ∈ edits, e.action = .create ∨ e.action = .upsert) :
    (edits.map Step.type).foldl (Step.onNames r) names =
      (namesIn r edits).foldl addName names := by
  induction edits generalizing names with
  | nil => rfl
  | cons e rest ih =>
    rw [List.map_cons, List.foldl_cons, ih _ fun t member => adds t (by simp [member])]
    by_cases here : e.registry = r
    · rcases adds e (by simp) with act | act <;> simp [namesIn, Step.onNames, here, act]
    · simp [namesIn, Step.onNames, here]

theorem foldl_onNames_drop (drops : ∀ e ∈ edits, e.action = .delete ∨ e.action = .remove) :
    (edits.map Step.type).foldl (Step.onNames r) names =
      names.filter (fun n => decide (n ∉ namesIn r edits)) := by
  induction edits generalizing names with
  | nil => simp [namesIn]
  | cons e rest ih =>
    rw [List.map_cons, List.foldl_cons, ih _ fun t member => drops t (by simp [member])]
    by_cases here : e.registry = r
    · have dropped : (Step.type e).onNames r names = names.filter (· ≠ e.name) := by
        rcases drops e (by simp) with act | act <;> simp [Step.onNames, here, act]
      rw [dropped, List.filter_filter]
      apply List.filter_congr
      intro n _
      by_cases same : n = e.name <;> simp [namesIn, here, same]
    · simp [namesIn, Step.onNames, here]

theorem foldl_onNames_keep
    (keeps : ∀ e ∈ edits, e.action = .replace ∨ e.action = .extend ∨ e.action = .exclude) :
    (edits.map Step.type).foldl (Step.onNames r) names = names := by
  induction edits generalizing names with
  | nil => rfl
  | cons e rest ih =>
    rw [List.map_cons, List.foldl_cons, ih _ fun t member => keeps t (by simp [member])]
    by_cases here : e.registry = r
    · rcases keeps e (by simp) with act | act | act <;> simp [Step.onNames, here, act]
    · simp [Step.onNames, here]

end Phases

namespace Plan

def ofAction (p : Plan) (a : Action) : List TypeEdit := p.typeEdits.filter (·.action = a)

/-- The names that a plan brings into a registry, in the order in which they come. -/
def introduced (p : Plan) (r : Registry) : List Name :=
  namesIn r (p.ofAction .create) ++ namesIn r (p.ofAction .upsert)

def dropped (p : Plan) (r : Registry) : List Name :=
  namesIn r (p.ofAction .delete) ++ namesIn r (p.ofAction .remove)

theorem action_of_mem {p : Plan} {a : Action} {e : TypeEdit} (member : e ∈ p.ofAction a) :
    e.action = a := by
  simpa using (List.mem_filter.mp member).2

theorem ofAction_eq_self {p : Plan} {a : Action} (same : ∀ e ∈ p.typeEdits, e.action = a) :
    p.ofAction a = p.typeEdits :=
  List.filter_eq_self.mpr fun e member => decide_eq_true (same e member)

theorem ofAction_eq_nil {p : Plan} {a : Action} (other : ∀ e ∈ p.typeEdits, e.action ≠ a) :
    p.ofAction a = [] :=
  List.filter_eq_nil_iff.mpr fun e member => by simpa using other e member

theorem byPhase_typeEdits (p : Plan) :
    byPhase Action.typePhases TypeEdit.action p.typeEdits =
      p.ofAction .create ++ (p.ofAction .replace ++ (p.ofAction .upsert ++ (p.ofAction .delete ++
        (p.ofAction .remove ++ (p.ofAction .extend ++ p.ofAction .exclude))))) := by
  simp [byPhase, Action.typePhases, ofAction]

/-- The names after a run: what was there and was not dropped, and then what came and was not
dropped. -/
theorem names_outcome {p : Plan} (wf : p.WellFormed) {cat cat' : Catalog}
    (ran : p.outcome cat = .ok cat') (r : Registry) :
    cat'.names r =
      (cat.names r).filter (fun n => decide (n ∉ p.dropped r)) ++
        (p.introduced r).eraseDups.filter fun n =>
          decide (n ∉ cat.names r ∧ n ∉ p.dropped r) := by
  rw [outcome_eq wf] at ran
  rw [names_performAll wf.step ran r, schedule_eq wf, List.foldl_append, foldl_onNames_members,
    byPhase_typeEdits]
  simp only [List.map_append, List.foldl_append]
  rw [foldl_onNames_add r _ (p.ofAction .create) fun e member => .inl (action_of_mem member),
    foldl_onNames_keep r _ (p.ofAction .replace) fun e member => .inl (action_of_mem member),
    foldl_onNames_add r _ (p.ofAction .upsert) fun e member => .inr (action_of_mem member),
    foldl_onNames_drop r _ (p.ofAction .delete) fun e member => .inl (action_of_mem member),
    foldl_onNames_drop r _ (p.ofAction .remove) fun e member => .inr (action_of_mem member),
    foldl_onNames_keep r _ (p.ofAction .extend) fun e member => .inr (.inl (action_of_mem member)),
    foldl_onNames_keep r _ (p.ofAction .exclude) fun e member => .inr (.inr (action_of_mem member)),
    ← List.foldl_append, foldl_addName, List.filter_append, List.filter_append]
  simp only [List.filter_filter, introduced, dropped, List.mem_append, not_or, Bool.decide_and,
    Bool.and_comm, Bool.and_assoc]

end Plan

end SchemaOverlay
