import SchemaOverlay.Proofs.Overlay.Names
import Mathlib.Data.List.Induction

/-!
What a plan that succeeds leaves behind, read off the plan without running it: the names of each
registry, and the entry at each place that an edit of a member is about.
-/
namespace SchemaOverlay

open Sdl

/-- What an edit of a member leaves at the place of its entry. -/
def MemberEdit.written (e : MemberEdit) : Option Entry :=
  match e.action with
  | .delete | .remove => none
  | .create | .exclude | .extend | .replace | .upsert => some e.entry

def MemberEdit.isAbout (r : Registry) (typeName : Name) (c : Collection) (n : Name)
    (e : MemberEdit) : Bool :=
  e.registry = r ∧ e.typeName = typeName ∧ e.collection = c ∧ e.entry.name = n

theorem MemberEdit.isAbout_iff {r : Registry} {typeName : Name} {c : Collection} {n : Name}
    {e : MemberEdit} : e.isAbout r typeName c n = true ↔
      e.registry = r ∧ e.typeName = typeName ∧ e.collection = c ∧ e.entry.name = n := by
  simp [isAbout]

theorem ok_of_mapError {x : Except EditError Draft} {d : Draft}
    (result : x.mapError OverlayError.edit = .ok d) : x = .ok d := by
  cases x <;> simp_all [Except.mapError]

theorem MemberEdit.onDraft_ok {e : MemberEdit} {d d' : Draft} (made : e.onDraft d = .ok d') :
    d' = d.store e.collection e.entry.name e.written := by
  cases act : e.action <;> simp only [onDraft, act] at made <;> simp only [written, act]
  · exact (Draft.create_eq_ok_iff.mp (ok_of_mapError made)).2.2
  · exact (Draft.delete_eq_ok_iff.mp (ok_of_mapError made)).2
  · cases made
  · cases made
  · exact (Draft.remove_eq_ok_iff.mp (ok_of_mapError made)).2.2
  · exact (Draft.replace_eq_ok_iff.mp (ok_of_mapError made)).2.2
  · exact (Draft.upsert_eq_ok_iff.mp (ok_of_mapError made)).2

theorem MemberEdit.perform_ok {e : MemberEdit} {cat cat' : Catalog}
    (ran : (Step.member e).perform cat = .ok cat') :
    ∃ d d', cat.get? e.registry e.typeName = some d ∧ e.onDraft d = .ok d' ∧
      cat' = cat.store e.registry e.typeName (some d') := by
  rw [Step.perform, MemberEdit.perform_eq] at ran
  cases was : cat.get? e.registry e.typeName with
  | none => simp [was, onPlace, Except.map] at ran
  | some d =>
    cases edited : e.onDraft d with
    | error f => simp [was, onPlace, edited, Except.map, Functor.map] at ran
    | ok d' =>
      simp only [was, onPlace, edited, Except.map, Functor.map, Except.ok.injEq] at ran
      exact ⟨d, d', rfl, edited, ran.symm⟩

section Members

variable {r : Registry} {typeName : Name} {c : Collection} {n : Name}

theorem performAll_members_concat {init : List MemberEdit} {t : MemberEdit} {cat cat' : Catalog}
    (ran : performAll ((init ++ [t]).map Step.member) cat = .ok cat') :
    ∃ mid d d', performAll (init.map Step.member) cat = .ok mid ∧
      mid.get? t.registry t.typeName = some d ∧ t.onDraft d = .ok d' ∧
      cat' = mid.store t.registry t.typeName (some d') := by
  rw [List.map_append, performAll_append_ok] at ran
  obtain ⟨mid, before, now⟩ := ran
  obtain ⟨last, now, finished⟩ := performAll_cons_ok.mp now
  cases finished
  obtain ⟨d, d', was, made, stored⟩ := MemberEdit.perform_ok now
  exact ⟨mid, d, d', before, was, made, stored⟩

/-- Of the edits about one entry the last one settles what is there. -/
theorem entry_performAll {edits : List MemberEdit} {cat cat' : Catalog} {e : MemberEdit}
    (ran : performAll (edits.map Step.member) cat = .ok cat')
    (last : (edits.filter (·.isAbout r typeName c n)).getLast? = some e) :
    ∃ d, cat'.get? r typeName = some d ∧ d.get? c n = .ok e.written := by
  induction edits using List.reverseRecOn generalizing cat' with
  | nil => simp at last
  | append_singleton init t ih =>
    obtain ⟨mid, d, d', before, was, made, rfl⟩ := performAll_members_concat ran
    have stored := MemberEdit.onDraft_ok made
    by_cases about : t.isAbout r typeName c n = true
    · have same : t = e := by
        simpa [List.filter_append, List.filter_cons_of_pos about] using last
      subst same
      obtain ⟨rfl, rfl, rfl, rfl⟩ := MemberEdit.isAbout_iff.mp about
      exact ⟨d', Catalog.get?_store_self .., stored ▸ Draft.get?_store_self ..⟩
    · have earlier : (init.filter (·.isAbout r typeName c n)).getLast? = some e := by
        simpa [List.filter_append, List.filter_cons_of_neg about] using last
      obtain ⟨f, found, inside⟩ := ih before earlier
      by_cases here : (t.registry, t.typeName) = (r, typeName)
      · cases here
        have same : d = f := Option.some.inj (was.symm.trans found)
        subst same
        have other : (t.collection, t.entry.name) ≠ (c, n) := by
          intro equal
          cases equal
          exact about (MemberEdit.isAbout_iff.mpr ⟨rfl, rfl, rfl, rfl⟩)
        exact ⟨d', Catalog.get?_store_self ..,
          stored ▸ Draft.get?_store_of_ne t.written other inside⟩
      · exact ⟨f, (Catalog.get?_store_of_ne mid _ here).trans found, inside⟩

theorem creations_le_one {edits : List MemberEdit} {cat cat' : Catalog}
    (creates : ∀ e ∈ edits, e.action = .create)
    (ran : performAll (edits.map Step.member) cat = .ok cat') :
    (edits.filter (·.isAbout r typeName c n)).length ≤ 1 := by
  induction edits using List.reverseRecOn generalizing cat' with
  | nil => simp
  | append_singleton init t ih =>
    obtain ⟨mid, d, d', before, was, made, rfl⟩ := performAll_members_concat ran
    by_cases about : t.isAbout r typeName c n = true
    · -- A creation before this one would have left an entry for this one to meet.
      have first : init.filter (·.isAbout r typeName c n) = [] := by
        rw [← List.getLast?_eq_none_iff, Option.eq_none_iff_forall_ne_some]
        intro e earlier
        obtain ⟨f, found, inside⟩ := entry_performAll before earlier
        obtain ⟨rfl, rfl, rfl, rfl⟩ := MemberEdit.isAbout_iff.mp about
        have same : d = f := Option.some.inj (was.symm.trans found)
        subst same
        have listed := (List.mem_filter.mp (List.mem_of_getLast? earlier)).1
        simp only [MemberEdit.onDraft, creates t (by simp)] at made
        have vacant := (Draft.create_eq_ok_iff.mp (ok_of_mapError made)).2.1
        rw [Draft.has_of_get? inside] at vacant
        simp [MemberEdit.written, creates e (by simp [listed])] at vacant
      simp [List.filter_append, first, List.filter_cons_of_pos about]
    · have few := ih (fun e member => creates e (by simp [member])) before
      simpa [List.filter_append, List.filter_cons_of_neg about] using few

end Members

def asking (a : Action) (edits : List MemberEdit) : List MemberEdit :=
  edits.filter (·.action = a)

/-- Whether an edit settles an entry that no edit drops: the last one to upsert it, else the last
one to replace it, else the one that creates it. -/
def Settles (edits : List MemberEdit) (e : MemberEdit) : Prop :=
  (asking .upsert edits).getLast? = some e ∨
    (asking .upsert edits = [] ∧ (asking .replace edits).getLast? = some e) ∨
    (asking .upsert edits = [] ∧ asking .replace edits = [] ∧ asking .create edits = [e])

def MemberEdit.Drops (e : MemberEdit) : Prop := e.action = .delete ∨ e.action = .remove

theorem byPhase_members (edits : List MemberEdit) :
    byPhase Action.memberPhases MemberEdit.action edits =
      (asking .create edits ++ (asking .replace edits ++ asking .upsert edits)) ++
        (asking .delete edits ++ asking .remove edits) := by
  simp [byPhase, Action.memberPhases, asking]

theorem asking_filter (a : Action) (keep : MemberEdit → Bool) (edits : List MemberEdit) :
    asking a (edits.filter keep) = (asking a edits).filter keep := by
  simp only [asking, List.filter_filter, Bool.and_comm]

theorem action_of_asking {a : Action} {edits : List MemberEdit} {e : MemberEdit}
    (member : e ∈ asking a edits) : e.action = a := by
  simpa using (List.mem_filter.mp member).2

theorem mem_dropping_iff {edits : List MemberEdit} {e : MemberEdit} :
    e ∈ asking .delete edits ++ asking .remove edits ↔ e ∈ edits ∧ e.Drops := by
  simp [asking, MemberEdit.Drops, and_or_left]

theorem written_of_drops {e : MemberEdit} (drops : e.Drops) : e.written = none := by
  rcases drops with act | act <;> simp [MemberEdit.written, act]

theorem written_of_not_drops {e : MemberEdit} (keeps : ¬ e.Drops) : e.written = some e.entry := by
  unfold MemberEdit.written
  split
  · rename_i act
    exact absurd (Or.inl act) keeps
  · rename_i act
    exact absurd (Or.inr act) keeps
  all_goals rfl

theorem settles_of_last {edits : List MemberEdit} {e : MemberEdit}
    (once : (asking .create edits).length ≤ 1) (keeps : ∀ e ∈ edits, ¬ e.Drops)
    (last : (byPhase Action.memberPhases MemberEdit.action edits).getLast? = some e) :
    Settles edits e := by
  have nothing : asking .delete edits ++ asking .remove edits = [] := by
    rw [List.eq_nil_iff_forall_not_mem]
    intro t member
    obtain ⟨listed, drops⟩ := mem_dropping_iff.mp member
    exact keeps t listed drops
  rw [byPhase_members, nothing, List.append_nil, List.getLast?_append, List.getLast?_append] at last
  cases upserts : (asking .upsert edits).getLast? with
  | some t =>
    rw [upserts] at last
    exact Or.inl (upserts.trans last)
  | none =>
    rw [upserts, Option.none_or] at last
    have no_upsert := List.getLast?_eq_none_iff.mp upserts
    cases replaces : (asking .replace edits).getLast? with
    | some t =>
      rw [replaces] at last
      exact Or.inr (Or.inl ⟨no_upsert, replaces.trans last⟩)
    | none =>
      rw [replaces, Option.none_or] at last
      have no_replace := List.getLast?_eq_none_iff.mp replaces
      refine Or.inr (Or.inr ⟨no_upsert, no_replace, ?_⟩)
      obtain ⟨init, split⟩ := List.getLast?_eq_some_iff.mp last
      have alone : init = [] := by
        rw [split, List.length_append] at once
        exact List.eq_nil_of_length_eq_zero (by simpa using once)
      rw [split, alone, List.nil_append]

theorem drops_of_last {edits : List MemberEdit} {e : MemberEdit}
    (dropped : ∃ t ∈ edits, t.Drops)
    (last : (byPhase Action.memberPhases MemberEdit.action edits).getLast? = some e) : e.Drops := by
  obtain ⟨t, listed, drops⟩ := dropped
  have member := mem_dropping_iff.mpr ⟨listed, drops⟩
  rw [byPhase_members, List.getLast?_append] at last
  cases final : (asking .delete edits ++ asking .remove edits).getLast? with
  | none =>
    rw [List.getLast?_eq_none_iff.mp final] at member
    cases member
  | some f =>
    rw [final] at last
    cases last
    exact (mem_dropping_iff.mp (List.mem_of_getLast? final)).2

namespace Plan

def editsAbout (p : Plan) (r : Registry) (typeName : Name) (c : Collection) (n : Name) :
    List MemberEdit :=
  p.memberEdits.filter (·.isAbout r typeName c n)

theorem members_outcome {p : Plan} (wf : p.WellFormed) {cat cat' : Catalog}
    (ran : p.outcome cat = .ok cat') :
    ∃ mid, performAll ((byPhase Action.memberPhases MemberEdit.action p.memberEdits).map
      Step.member) mid = .ok cat' := by
  rw [outcome_eq wf, schedule_eq wf, performAll_append_ok] at ran
  obtain ⟨mid, _, members⟩ := ran
  exact ⟨mid, members⟩

theorem entry_outcome {p : Plan} (wf : p.WellFormed) {cat cat' : Catalog}
    (ran : p.outcome cat = .ok cat') {r : Registry} {typeName : Name} {c : Collection} {n : Name}
    (edited : p.editsAbout r typeName c n ≠ []) :
    ∃ d, cat'.get? r typeName = some d ∧
      ((∃ e ∈ p.editsAbout r typeName c n, e.Drops) → d.get? c n = .ok none) ∧
      ((∀ e ∈ p.editsAbout r typeName c n, ¬ e.Drops) →
        ∃ e, Settles (p.editsAbout r typeName c n) e ∧ d.get? c n = .ok (some e.entry)) := by
  obtain ⟨mid, members⟩ := members_outcome wf ran
  have picked := byPhase_filter Action.memberPhases MemberEdit.action
    (·.isAbout r typeName c n) p.memberEdits
  have phases : ∀ e ∈ p.editsAbout r typeName c n, e.action ∈ Action.memberPhases :=
    fun e member => (wf.memberEdits e (List.mem_filter.mp member).1).action
  have sorted := byPhase_eq Action.memberPhases MemberEdit.action (by decide) _ phases
  cases last : (byPhase Action.memberPhases MemberEdit.action
      (p.editsAbout r typeName c n)).getLast? with
  | none =>
    rw [List.getLast?_eq_none_iff, sorted] at last
    have same : (p.editsAbout r typeName c n).Perm [] := last ▸ (List.mergeSort_perm _ _).symm
    exact absurd same.eq_nil edited
  | some e =>
    obtain ⟨d, found, inside⟩ := entry_performAll members (picked ▸ last)
    refine ⟨d, found, fun dropped => ?_, fun keeps => ⟨e, ?_, ?_⟩⟩
    · rw [inside, written_of_drops (drops_of_last dropped last)]
    · rw [byPhase_members, List.append_assoc, List.map_append, performAll_append_ok] at members
      obtain ⟨next, creations, _⟩ := members
      -- A second creation would have failed on the first.
      have once : ((asking .create p.memberEdits).filter (·.isAbout r typeName c n)).length ≤ 1 :=
        creations_le_one (fun e member => action_of_asking member) creations
      rw [← asking_filter] at once
      exact settles_of_last once keeps last
    · have listed : e ∈ p.editsAbout r typeName c n := by
        have member := List.mem_of_getLast? last
        rw [sorted] at member
        exact List.mem_mergeSort.mp member
      rw [inside, written_of_not_drops (keeps e listed)]

/-- What a run that succeeds leaves. In each registry: the names that were there, without the
dropped ones, and then the new names that were created or upserted and not dropped, each where it
came first. At each entry that an edit is about: nothing if an edit drops it, and otherwise the
entry of the edit that settles it. -/
theorem outcome_settled {overrides : Document} {p : Plan} (planned : ofDocument overrides = .ok p)
    {cat cat' : Catalog} (ran : p.outcome cat = .ok cat') :
    (∀ r, cat'.names r =
      (cat.names r).filter (fun n => decide (n ∉ p.dropped r)) ++
        (p.introduced r).eraseDups.filter fun n =>
          decide (n ∉ cat.names r ∧ n ∉ p.dropped r)) ∧
    ∀ r typeName c n, p.editsAbout r typeName c n ≠ [] →
      ∃ d, cat'.get? r typeName = some d ∧
        ((∃ e ∈ p.editsAbout r typeName c n, e.Drops) → d.get? c n = .ok none) ∧
        ((∀ e ∈ p.editsAbout r typeName c n, ¬ e.Drops) →
          ∃ e, Settles (p.editsAbout r typeName c n) e ∧ d.get? c n = .ok (some e.entry)) := by
  have wf := ofDocument_wellFormed planned
  exact ⟨names_outcome wf ran, fun _ _ _ _ => entry_outcome wf ran⟩

def rework : Document := ⟨[
  objectOf "Tag" ["upsert"] [("id", [])],
  objectOf "Page" ["remove"] [],
  objectOf "User" [] [("id", ["delete"]), ("name", ["upsert"])],
  objectOf "Post" ["create"] [("id", [])]]⟩

def reworkPlan : Plan where
  typeEdits := [
    ⟨.upsert, objectOf "Tag" [] [("id", [])], .type .object, "Tag"⟩,
    ⟨.remove, objectOf "Page" [] [], .type .object, "Page"⟩,
    ⟨.create, objectOf "Post" [] [("id", [])], .type .object, "Post"⟩]
  memberEdits := [
    ⟨.delete, .field (stringField "id" []), .definitions, .fields, "User", false⟩,
    ⟨.upsert, .field (stringField "name" []), .definitions, .fields, "User", false⟩]

theorem outcome_settled_rework :
    ofDocument rework = .ok reworkPlan ∧
    ∃ cat', reworkPlan.outcome (Catalog.ofObjects ["User", "Page"]) = .ok cat' ∧
      cat'.names .definitions = ["User", "Post", "Tag"] ∧
      ∃ d, cat'.get? .definitions "User" = some d ∧ d.get? .fields "id" = .ok none := by
  have planned : ofDocument rework = .ok reworkPlan := rfl
  have ran : reworkPlan.outcome (Catalog.ofObjects ["User", "Page"]) = .ok _ := rfl
  obtain ⟨names, entries⟩ := outcome_settled planned ran
  have edited : reworkPlan.editsAbout .definitions "User" .fields "id" ≠ [] := by
    simp [editsAbout, reworkPlan, MemberEdit.isAbout, stringField, Entry.name]
  obtain ⟨d, found, absent, _⟩ := entries .definitions "User" .fields "id" edited
  refine ⟨planned, _, ran, (names .definitions).trans ?_, d, found, absent ?_⟩
  · decide
  · exact ⟨_, List.mem_cons_self, Or.inl rfl⟩

end Plan

end SchemaOverlay
