import SchemaOverlay.Proofs.Edit.Loading
import SchemaOverlay.Proofs.Edit.Merging

/-!
Loading any document. Definitions of one name in one registry are gathered into the first of them,
in the order of the document; the first definition that is of no kind, or of another kind than the
first one in its place, ends the loading. Definitions in different places have nothing to do with
each other.
-/
namespace SchemaOverlay

open Sdl

namespace Sdl.Definition

def place? (d : Definition) : Option (Registry × Name) :=
  match d.kind?, d.name? with
  | some kind, some name => some (kind.registry, name)
  | _, _ => none

/-- Why a definition cannot be filed among the definitions of its document: it is of no kind, or not
of the kind of the first one in its place. -/
def faultAmong (ds : List Definition) (d : Definition) : Option EditError :=
  match d.kind?, d.name? with
  | some kind, some name =>
    match (ds.find? (·.place? = d.place?)).bind kind? with
    | some first => if first = kind then none else some (.kindMismatch name first kind)
    | none => none
  | _, _ => some .unsupportedKind

def nameIn? (r : Registry) (d : Definition) : Option Name :=
  d.place?.bind fun place => if place.1 = r then some place.2 else none

def inPlace (ds : List Definition) (r : Registry) (n : Name) : List Definition :=
  ds.filter (·.place? = some (r, n))

end Sdl.Definition

open Sdl.Definition (place? faultAmong nameIn? inPlace)

namespace Draft

theorem WellFormed.ofDefinition {node : Definition} {d : Draft}
    (made : ofDefinition node = .ok d) : d.WellFormed := by
  obtain ⟨kind, name, known, named, rfl⟩ := ofDefinition_eq_ok_iff.mp made
  exact wellFormed_opened known named

theorem place?_of_ofDefinition {node : Definition} {d : Draft}
    (made : ofDefinition node = .ok d) : node.place? = some d.place := by
  obtain ⟨kind, name, known, named, rfl⟩ := ofDefinition_eq_ok_iff.mp made
  rw [Definition.place?, known, named]
  rfl

/-- What is filed where the given definitions belong: nothing where there is none, and otherwise the
first of them with the others merged into it. -/
inductive Collects : List Definition → Option Draft → Prop
  | none : Collects [] none
  | some {first : Definition} {later : List Definition} {draft merged : Draft}
      {others : List Draft} (made : ofDefinition first = .ok draft)
      (opened : later.map ofDefinition = others.map .ok)
      (done : others.foldlM extendWith draft = .ok merged) :
      Collects (first :: later) (some merged)

theorem Collects.vacant {node : Definition} {d : Draft} (made : ofDefinition node = .ok d)
    {ds : List Definition} (so : Collects ds .none) : Collects (ds ++ [node]) (.some d) := by
  cases so
  exact @Collects.some node [] d d [] made rfl rfl

theorem Collects.extendWith {node : Definition} {d held merged : Draft}
    (made : ofDefinition node = .ok d) (done : held.extendWith d = .ok merged)
    {ds : List Definition} (so : Collects ds (.some held)) :
    Collects (ds ++ [node]) (.some merged) := by
  cases so with
  | @some first later draft _ others opens opened before =>
    refine @Collects.some first (later ++ [node]) draft merged (others ++ [d]) opens ?_ ?_
    · rw [List.map_append, List.map_append, opened, List.map_singleton, made, List.map_singleton]
    · rw [List.foldlM_append, before]
      exact (congrArg (· >>= pure) done).trans rfl

theorem Collects.unique {ds : List Definition} {held held' : Option Draft}
    (so : Collects ds held) (so' : Collects ds held') : held = held' := by
  cases so with
  | none =>
    cases so'
    rfl
  | some made opened done =>
    cases so' with
    | some made' opened' done' =>
      obtain rfl := Except.ok.inj (made.symm.trans made')
      obtain rfl := (List.map_injective_iff.mpr fun _ _ => Except.ok.inj)
        (opened.symm.trans opened')
      exact congrArg _ (Except.ok.inj (done.symm.trans done'))

/-- What several definitions of one place are gathered into, in terms of the definitions. -/
structure GathersNodes (first : Definition) (later : List Definition) (merged : Draft) : Prop where
  kind : first.kind? = some merged.kind
  names : ∀ c, (merged.held c).keys =
    ((first :: later).flatMap fun d => (d.entries c).map Entry.name).eraseDups
  earliest : ∀ c n, (merged.held c).get? n =
    (first :: later).findSome? fun d => ((d.entries c).filter (·.name = n)).getLast?
  description : merged.description? =
    (later.filterMap Definition.wording?).getLast?.or first.description?
  unfiled : merged.toDefinition.unfiled = first.unfiled

theorem held_opened {kind : Kind} {name : Name} {node : Definition}
    (known : node.kind? = some kind) (named : node.name? = some name) (c : Collection) :
    (opened kind name node).held c = fileEntries (node.entries c) := by
  have formed := wellFormed_opened known named
  by_cases supported : c ∈ kind.collections
  · refine held_of_get? (Keyed.get?_of_mem formed.distinct ?_)
    rw [collections_opened]
    exact List.mem_map_of_mem supported
  · have absent : (opened kind name node).collections.get? c = none := by
      rw [Keyed.get?_eq_none_iff, formed.collections]
      exact supported
    rw [Definition.entries_of_unsupported known supported, held, absent]
    rfl

section Opened

variable {node : Definition} {d : Draft} (made : ofDefinition node = .ok d)

include made

theorem keys_of_opened (c : Collection) :
    (d.held c).keys = ((node.entries c).map Entry.name).eraseDups := by
  obtain ⟨kind, name, known, named, rfl⟩ := ofDefinition_eq_ok_iff.mp made
  rw [held_opened known named, fileEntries, Keyed.keys_ofList, List.map_map]
  rfl

theorem get?_of_opened (c : Collection) (n : Name) :
    (d.held c).get? n = ((node.entries c).filter (·.name = n)).getLast? := by
  obtain ⟨kind, name, known, named, rfl⟩ := ofDefinition_eq_ok_iff.mp made
  rw [held_opened known named, fileEntries, Keyed.get?_ofList, List.filter_map, List.getLast?_map,
    Option.map_map]
  exact Option.map_id_apply

theorem skeleton_of_opened :
    d.skeleton.description? = node.description? ∧ d.skeleton.unfiled = node.unfiled := by
  obtain ⟨kind, name, _, _, rfl⟩ := ofDefinition_eq_ok_iff.mp made
  exact ⟨Definition.description?_refill node _ fun _ => [],
    Definition.unfiled_refill node _ fun _ => []⟩

end Opened

theorem map_of_opened {α : Type} {f : Definition → α} {g : Draft → α}
    (same : ∀ node d, ofDefinition node = .ok d → g d = f node) {nodes : List Definition}
    {ds : List Draft} (opened : nodes.map ofDefinition = ds.map .ok) : ds.map g = nodes.map f := by
  induction nodes generalizing ds with
  | nil =>
    obtain rfl := List.map_eq_nil_iff.mp opened.symm
    rfl
  | cons node rest ih =>
    obtain ⟨d, later, rfl, made, others⟩ := List.map_eq_cons_iff.mp opened.symm
    rw [List.map_cons, List.map_cons, same node d made.symm, ih others.symm]

theorem wellFormed_of_opened {nodes : List Definition} {ds : List Draft}
    (opened : nodes.map ofDefinition = ds.map .ok) : ∀ d ∈ ds, d.WellFormed := by
  intro d member
  have made : Except.ok d ∈ nodes.map ofDefinition := opened ▸ List.mem_map_of_mem member
  obtain ⟨node, _, made⟩ := List.mem_map.mp made
  exact .ofDefinition made

theorem eraseDups_flatMap {α β : Type} [DecidableEq β] (f : α → List β) (l : List α) :
    (l.flatMap fun a => (f a).eraseDups).eraseDups = (l.flatMap f).eraseDups := by
  induction l with
  | nil => rfl
  | cons a rest ih =>
    exact eraseDups_append_congr (eraseDups_eraseDups (f a)) ih

theorem Collects.gathers {first : Definition} {later : List Definition} {merged : Draft}
    (so : Collects (first :: later) (.some merged)) : GathersNodes first later merged := by
  cases so with
  | @some _ _ draft _ others made opened done =>
    have all : (first :: later).map ofDefinition = (draft :: others).map .ok := by
      rw [List.map_cons, List.map_cons, made, opened]
    have own := WellFormed.ofDefinition made
    have gathers := gathers_of_foldlM own (wellFormed_of_opened opened) done
    obtain ⟨description, unfiled⟩ := skeleton_of_opened made
    refine ⟨?_, fun c => ?_, fun c n => ?_, ?_, ?_⟩
    · obtain ⟨kind, name, known, _, rfl⟩ := ofDefinition_eq_ok_iff.mp made
      rw [known, gathers.kinds merged List.mem_cons_self]
      rfl
    · rw [gathers.names, List.flatMap_def,
        map_of_opened (fun _ _ made => keys_of_opened made c) all,
        ← List.flatMap_def, eraseDups_flatMap]
    · have same := map_of_opened (fun _ _ made => get?_of_opened made c n) all
      have found := congrArg (List.findSome? id) same
      rw [List.findSome?_map, List.findSome?_map] at found
      exact (gathers.earliest c n).trans found
    · have wording : others.map (·.skeleton.wording?) = later.map Definition.wording? :=
        map_of_opened (fun _ _ made => by
          rw [Definition.wording?, (skeleton_of_opened made).1, Definition.wording?]) opened
      have same := congrArg (List.filterMap id) wording
      rw [List.filterMap_map, List.filterMap_map] at same
      rw [Draft.description?, gathers.description, description]
      exact congrArg (fun said => (List.getLast? said).or first.description?) same
    · rw [toDefinition_eq gathers.formed, Definition.unfiled_refill, gathers.unfiled, unfiled]

end Draft

namespace Catalog

variable {ds : List Definition} {d : Definition} {cat cat' : Catalog}

def namesIn (ds : List Definition) (r : Registry) : List Name :=
  (ds.filterMap (nameIn? r)).eraseDups

structure Loads (ds : List Definition) (cat : Catalog) : Prop where
  known : ∀ d ∈ ds, ∃ draft, Draft.ofDefinition d = .ok draft
  names : ∀ r, cat.names r = namesIn ds r
  collects : ∀ r n, Draft.Collects (inPlace ds r n) (cat.get? r n)

theorem inPlace_concat (ds : List Definition) (d : Definition) (r : Registry) (n : Name) :
    inPlace (ds ++ [d]) r n =
      if d.place? = some (r, n) then inPlace ds r n ++ [d] else inPlace ds r n := by
  rw [inPlace, List.filter_append, inPlace]
  split <;> simp_all

theorem namesIn_concat {r s : Registry} {n : Name} (place : d.place? = some (s, n)) :
    namesIn (ds ++ [d]) r =
      if s = r ∧ n ∉ namesIn ds r then namesIn ds r ++ [n] else namesIn ds r := by
  unfold namesIn
  rw [List.filterMap_append]
  by_cases here : s = r
  · have named : [d].filterMap (nameIn? r) = [n] := by simp [nameIn?, place, here]
    rw [named, eraseDups_concat]
    by_cases present : n ∈ ds.filterMap (nameIn? r) <;> simp [here, present, List.mem_eraseDups]
  · have elsewhere : [d].filterMap (nameIn? r) = [] := by simp [nameIn?, place, here]
    rw [elsewhere, List.append_nil, if_neg fun both => here both.1]

theorem Loads.store {draft merged : Draft} (loads : Loads ds cat)
    (made : Draft.ofDefinition d = .ok draft)
    (collects : Draft.Collects (inPlace ds draft.registry draft.name ++ [d]) (some merged)) :
    Loads (ds ++ [d]) (cat.store draft.registry draft.name (some merged)) where
  known := by
    intro e member
    rcases List.mem_append.mp member with earlier | now
    · exact loads.known e earlier
    · rw [List.mem_singleton.mp now]
      exact ⟨draft, made⟩
  names := by
    intro r
    rw [namesIn_concat (Draft.place?_of_ofDefinition made)]
    by_cases here : draft.registry = r
    · subst here
      rw [names_store_some, ← loads.names]
      by_cases present : draft.name ∈ cat.names draft.registry <;> simp [present]
    · rw [if_neg fun both => here both.1, Catalog.names, registry_store_of_ne _ _ _ here]
      exact loads.names r
  collects := by
    intro r n
    rw [inPlace_concat, Draft.place?_of_ofDefinition made, get?_store]
    by_cases here : draft.registry = r ∧ draft.name = n
    · obtain ⟨rfl, rfl⟩ := here
      have place : some draft.place = some (draft.registry, draft.name) := rfl
      rw [if_pos place, if_pos ⟨rfl, rfl⟩]
      exact collects
    · rw [if_neg here, if_neg]
      · exact loads.collects r n
      · intro same
        cases same
        exact here ⟨rfl, rfl⟩

theorem Loads.add (loads : Loads ds cat) (ran : cat.add d = .ok cat') :
    Loads (ds ++ [d]) cat' := by
  cases made : Draft.ofDefinition d with
  | error e => simp [Catalog.add, made, bind, Except.bind] at ran
  | ok draft =>
    have collects := loads.collects draft.registry draft.name
    rw [add_eq made] at ran
    split at ran
    · rename_i first found
      obtain ⟨merged, done, rfl⟩ := exists_of_map_eq_ok ran
      rw [found] at collects
      exact loads.store made (collects.extendWith made done)
    · rename_i vacant
      cases ran
      rw [vacant] at collects
      exact loads.store made (collects.vacant made)

theorem loads_of_ofDocument (loaded : ofDocument ⟨ds⟩ = .ok cat) : Loads ds cat := by
  induction ds using List.reverseRecOn generalizing cat with
  | nil =>
    cases loaded
    refine ⟨by simp, fun r => ?_, fun r n => ?_⟩
    · cases r <;> rfl
    · cases r <;> exact .none
  | append_singleton ds d ih =>
    rw [ofDocument_concat] at loaded
    obtain ⟨mid, before, ran⟩ := exists_of_bind_eq_ok loaded
    exact (ih before).add ran

theorem find?_place_eq_head? (ds : List Definition) {r : Registry} {n : Name}
    (place : d.place? = some (r, n)) :
    ds.find? (·.place? = d.place?) = (inPlace ds r n).head? := by
  rw [inPlace, List.head?_filter, place]

theorem faultAmong_append (later : List Definition) {e : Definition} (member : e ∈ ds) :
    faultAmong (ds ++ later) e = faultAmong ds e := by
  have found : (ds.find? (·.place? = e.place?)).isSome = true :=
    List.find?_isSome.mpr ⟨e, member, decide_eq_true rfl⟩
  obtain ⟨first, found⟩ := Option.isSome_iff_exists.mp found
  rw [faultAmong, faultAmong, List.find?_append, found]
  rfl

theorem findSome?_fault_concat (ds : List Definition) (d : Definition) :
    (ds ++ [d]).findSome? (faultAmong (ds ++ [d])) =
      (ds.findSome? (faultAmong ds)).or (faultAmong (ds ++ [d]) d) := by
  have earlier : ds.filterMap (faultAmong (ds ++ [d])) = ds.filterMap (faultAmong ds) :=
    List.filterMap_congr fun e member => faultAmong_append [d] member
  rw [← List.head?_filterMap, ← List.head?_filterMap, List.filterMap_append, earlier,
    List.head?_append]
  congr 1
  cases fault : faultAmong (ds ++ [d]) d <;> simp [fault]

theorem faultAmong_of_unopened {e : EditError} (failed : Draft.ofDefinition d = .error e) :
    faultAmong ds d = some e := by
  cases known : d.kind? with
  | none =>
    simp only [Draft.ofDefinition, known] at failed
    cases failed
    simp only [faultAmong, known]
  | some kind =>
    cases named : d.name? with
    | none =>
      simp only [Draft.ofDefinition, known, named] at failed
      cases failed
      simp only [faultAmong, known, named]
    | some name =>
      simp only [Draft.ofDefinition, known, named] at failed
      cases failed

theorem faultAmong_of_opened {draft : Draft} (made : Draft.ofDefinition d = .ok draft) :
    faultAmong (ds ++ [d]) d =
      match (inPlace ds draft.registry draft.name).head?.bind Definition.kind? with
      | some first =>
        if first = draft.kind then none else some (.kindMismatch draft.name first draft.kind)
      | none => none := by
  obtain ⟨kind, name, known, named, rfl⟩ := Draft.ofDefinition_eq_ok_iff.mp made
  have place : d.place? = some (kind.registry, name) := Draft.place?_of_ofDefinition made
  have leader : (ds ++ [d]).find? (·.place? = d.place?) =
      (inPlace ds kind.registry name).head?.or (some d) := by
    rw [List.find?_append, find?_place_eq_head? ds place]
    simp
  rw [faultAmong, known, named]
  dsimp only
  rw [leader]
  cases head : (inPlace ds kind.registry name).head? with
  | none => simp [head, known, Draft.opened, Draft.registry]
  | some first =>
    simp only [head, Draft.opened, Draft.registry, Option.or_some, Option.bind_some]
    rfl

theorem Loads.fault_add (loads : Loads ds cat) (filed : cat.Filed) {e : EditError} :
    cat.add d = .error e ↔ faultAmong (ds ++ [d]) d = some e := by
  cases made : Draft.ofDefinition d with
  | error f =>
    rw [faultAmong_of_unopened made, Catalog.add, made]
    simp [bind, Except.bind]
  | ok draft =>
    rw [add_eq made, faultAmong_of_opened made]
    have collects := loads.collects draft.registry draft.name
    cases held : cat.get? draft.registry draft.name with
    | none =>
      rw [held] at collects
      cases within : inPlace ds draft.registry draft.name with
      | nil => simp
      | cons first later => rw [within] at collects; cases collects
    | some merged =>
      rw [held] at collects
      cases within : inPlace ds draft.registry draft.name with
      | nil => rw [within] at collects; cases collects
      | cons first later =>
        rw [within] at collects
        have kind := collects.gathers.kind
        have name := (filed.get? held).name
        by_cases same : merged.kind = draft.kind
        · simp [kind, Draft.extendWith, Draft.checkSameKind, same, bind, Except.bind, pure,
            Except.pure, Except.map]
        · simp [kind, Draft.extendWith, Draft.checkSameKind, same, bind, Except.bind, Except.map,
            name]

theorem ofDocument_eq_error_iff {e : EditError} :
    ofDocument ⟨ds⟩ = .error e ↔ ds.findSome? (faultAmong ds) = some e := by
  induction ds using List.reverseRecOn generalizing e with
  | nil => simp [ofDocument, pure, Except.pure]
  | append_singleton ds d ih =>
    rw [ofDocument_concat, findSome?_fault_concat]
    cases before : ofDocument ⟨ds⟩ with
    | error f =>
      rw [ih.mp before]
      simp [bind, Except.bind]
    | ok mid =>
      have sound : ds.findSome? (faultAmong ds) = none := by
        rw [Option.eq_none_iff_forall_ne_some]
        intro f fault
        exact absurd (ih.mpr fault) (by simp [before])
      rw [sound, Option.none_or]
      exact (loads_of_ofDocument before).fault_add (.ofDocument before)

/-- What is filed in a place depends on the definitions of that place only. -/
theorem Loads.get?_eq {ds' : List Definition} (loads : Loads ds cat) (loads' : Loads ds' cat')
    {r : Registry} {n : Name} (same : inPlace ds' r n = inPlace ds r n) :
    cat'.get? r n = cat.get? r n :=
  (same ▸ loads'.collects r n).unique (loads.collects r n)

end Catalog

end SchemaOverlay
