import SchemaOverlay.Proofs.Edit.Filing
import Mathlib.Data.List.Induction
import Mathlib.Data.List.Nodup

/-!
Loading definitions of which no two have one name in one registry: each is filed anew, and every
registry keeps their order. What a catalog exports is such a list, so loading the export gives the
catalog again.
-/
namespace SchemaOverlay

open Sdl

def Draft.place (d : Draft) : Registry × Name := (d.registry, d.name)

namespace Catalog

theorem eq_of_registries {cat cat' : Catalog} (same : ∀ r, cat.registry r = cat'.registry r) :
    cat = cat' := by
  cases cat
  cases cat'
  have directives := same .directives
  have definitions := same .definitions
  have extensions := same .extensions
  simp only [registry] at directives definitions extensions
  rw [directives, definitions, extensions]

def fileAll (ds : List Draft) : Catalog := ds.foldl (fun cat d => cat.file d.registry d) empty

theorem fileAll_concat (ds : List Draft) (d : Draft) :
    fileAll (ds ++ [d]) = (fileAll ds).store d.registry d.name (some d) := by
  simp [fileAll, file, store]

theorem ofDocument_concat (defs : List Definition) (d : Definition) :
    ofDocument ⟨defs ++ [d]⟩ = ofDocument ⟨defs⟩ >>= fun cat => cat.add d := by
  simp only [ofDocument, List.foldlM_append]
  congr 1
  funext cat
  simp

section Apart

variable {defs : List Definition} {ds : List Draft}

theorem pairs_fileAll (apart : (ds.map Draft.place).Nodup) (r : Registry) :
    ((fileAll ds).registry r).pairs = (ds.filter (·.registry = r)).map fun d => (d.name, d) := by
  induction ds using List.reverseRecOn with
  | nil => cases r <;> rfl
  | append_singleton ds d ih =>
    rw [List.map_append, List.nodup_append] at apart
    obtain ⟨earlier, _, other⟩ := apart
    have before := ih earlier
    rw [fileAll_concat, List.filter_append]
    by_cases here : d.registry = r
    · subst here
      have new : d.name ∉ ((fileAll ds).registry d.registry).keys := by
        intro member
        simp only [Keyed.keys, before, List.map_map, List.mem_map, List.mem_filter,
          decide_eq_true_eq, Function.comp_apply] at member
        obtain ⟨first, ⟨inside, home⟩, name⟩ := member
        have same : first.place = d.place := by simp [Draft.place, home, name]
        exact other _ (List.mem_map_of_mem inside) _ (by simp) same
      simp only [store, put, registry_setRegistry, ↓reduceIte,
        Keyed.pairs_insert_of_not_mem d new, before]
      simp
    · rw [registry_store_of_ne _ d.name (some d) here, before]
      simp [here]

theorem get?_fileAll_of_new {d : Draft} (apart : ((ds ++ [d]).map Draft.place).Nodup) :
    (fileAll ds).get? d.registry d.name = none := by
  rw [List.map_append, List.nodup_append] at apart
  obtain ⟨earlier, _, other⟩ := apart
  rw [Option.eq_none_iff_forall_ne_some]
  intro first found
  have member := Keyed.mem_of_get? found
  rw [pairs_fileAll earlier] at member
  obtain ⟨held, inside, same⟩ := List.mem_map.mp member
  obtain ⟨name, rfl⟩ := Prod.mk.inj same
  obtain ⟨listed, home⟩ := List.mem_filter.mp inside
  have place : held.place = d.place := by
    rw [Draft.place, Draft.place, name, of_decide_eq_true home]
  exact other _ (List.mem_map_of_mem listed) _ (by simp) place

theorem ofDocument_of_apart (opened : defs.map Draft.ofDefinition = ds.map .ok)
    (apart : (ds.map Draft.place).Nodup) : ofDocument ⟨defs⟩ = .ok (fileAll ds) := by
  induction ds using List.reverseRecOn generalizing defs with
  | nil =>
    obtain rfl := List.map_eq_nil_iff.mp opened
    rfl
  | append_singleton ds d ih =>
    rw [List.map_append] at opened
    obtain ⟨before, last, rfl, earlier, now⟩ := List.map_eq_append_iff.mp opened
    obtain ⟨node, rfl, made⟩ := List.map_eq_singleton_iff.mp now
    have new := get?_fileAll_of_new apart
    rw [List.map_append, List.nodup_append] at apart
    rw [ofDocument_concat, ih earlier apart.1, fileAll_concat]
    simp only [bind, Except.bind, add_eq made, new]

theorem ofDocument_vacant (opened : defs.map Draft.ofDefinition = ds.map .ok)
    (apart : (ds.map Draft.place).Nodup) {before after : List Definition} {d : Definition}
    (split : defs = before ++ d :: after) :
    ∃ mid draft, ofDocument ⟨before⟩ = .ok mid ∧ Draft.ofDefinition d = .ok draft ∧
      mid.get? draft.registry draft.name = none := by
  subst split
  rw [List.map_append, List.map_cons] at opened
  obtain ⟨done, rest, rfl, earlier, now⟩ := List.map_eq_append_iff.mp opened.symm
  obtain ⟨draft, later, rfl, made, _⟩ := List.map_eq_cons_iff.mp now
  have upTo : ((done ++ [draft]).map Draft.place).Nodup := by
    refine apart.sublist (List.Sublist.map _ ?_)
    simp
  have start := upTo.sublist (List.Sublist.map _ (List.sublist_append_left done [draft]))
  exact ⟨fileAll done, draft, ofDocument_of_apart earlier.symm start, made.symm,
    get?_fileAll_of_new upTo⟩

end Apart

def drafts (cat : Catalog) : List Draft := Registry.all.flatMap fun r => (cat.registry r).values

theorem definitions_toDocument (cat : Catalog) :
    cat.toDocument.definitions = cat.drafts.map Draft.toDefinition := by
  rw [drafts, List.map_flatMap]
  rfl

namespace Filed

variable {cat : Catalog} (filed : cat.Filed)

include filed

theorem mem_values {r : Registry} {d : Draft} (member : d ∈ (cat.registry r).values) :
    Files r d.name d := by
  obtain ⟨⟨n, held⟩, inside, rfl⟩ := List.mem_map.mp member
  have files := filed.files r n held inside
  exact ⟨rfl, files.registry, files.reached⟩

theorem mem_drafts {d : Draft} (member : d ∈ cat.drafts) : ∃ r, Files r d.name d := by
  obtain ⟨r, _, inside⟩ := List.mem_flatMap.mp member
  exact ⟨r, filed.mem_values inside⟩

theorem filter_drafts (r : Registry) :
    cat.drafts.filter (·.registry = r) = (cat.registry r).values := by
  have own : ∀ s, (cat.registry s).values.filter (·.registry = r) =
      if s = r then (cat.registry r).values else [] := by
    intro s
    split
    · rename_i same
      subst same
      refine List.filter_eq_self.mpr fun d member => ?_
      simpa using (filed.mem_values member).registry
    · rename_i other
      refine List.filter_eq_nil_iff.mpr fun d member => ?_
      rw [decide_eq_true_eq, (filed.mem_values member).registry]
      exact other
  simp only [drafts, List.filter_flatMap, own]
  cases r <;> simp [Registry.all]

theorem map_values (r : Registry) :
    ((cat.registry r).values.map fun d => (d.name, d)) = (cat.registry r).pairs := by
  rw [Keyed.values, List.map_map]
  conv_rhs => rw [← List.map_id (cat.registry r).pairs]
  refine List.map_congr_left fun p member => ?_
  obtain ⟨n, d⟩ := p
  simp [(filed.files r n d member).name]

theorem drafts_apart : (cat.drafts.map Draft.place).Nodup := by
  rw [drafts, List.map_flatMap, List.nodup_flatMap]
  constructor
  · intro r _
    have places : (cat.registry r).values.map Draft.place =
        (cat.registry r).keys.map fun n => (r, n) := by
      rw [Keyed.keys, ← filed.map_values r, List.map_map, List.map_map]
      refine List.map_congr_left fun d member => ?_
      simp [Draft.place, (filed.mem_values member).registry]
    rw [places]
    exact (filed.distinct r).map fun n m same => (Prod.mk.inj same).2
  · have distinct : Registry.all.Nodup := by decide
    refine distinct.imp fun {r s} other => ?_
    intro p first second
    obtain ⟨d, inside, rfl⟩ := List.mem_map.mp first
    obtain ⟨e, within, same⟩ := List.mem_map.mp second
    have registries := congrArg Prod.fst same
    simp only [Draft.place, (filed.mem_values inside).registry,
      (filed.mem_values within).registry] at registries
    exact other registries.symm

theorem fileAll_drafts : fileAll cat.drafts = cat := by
  refine eq_of_registries fun r => Keyed.eq_of_pairs ?_
  rw [pairs_fileAll filed.drafts_apart, filed.filter_drafts, filed.map_values]

theorem map_ofDefinition_drafts :
    (cat.drafts.map Draft.toDefinition).map Draft.ofDefinition = cat.drafts.map .ok := by
  rw [List.map_map]
  refine List.map_congr_left fun d member => ?_
  obtain ⟨r, files⟩ := filed.mem_drafts member
  exact Draft.ofDefinition_toDefinition files.formed

theorem kind?_toDocument {d : Definition} (member : d ∈ cat.toDocument.definitions) :
    ∃ kind, d.kind? = some kind := by
  rw [definitions_toDocument] at member
  obtain ⟨draft, listed, rfl⟩ := List.mem_map.mp member
  obtain ⟨r, files⟩ := filed.mem_drafts listed
  exact ⟨draft.kind, Draft.kind?_toDefinition files.formed⟩

theorem ofDocument_toDocument : Catalog.ofDocument cat.toDocument = .ok cat := by
  have loaded := ofDocument_of_apart filed.map_ofDefinition_drafts filed.drafts_apart
  rw [← definitions_toDocument, filed.fileAll_drafts] at loaded
  exact loaded

end Filed

end Catalog

end SchemaOverlay
