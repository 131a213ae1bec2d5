import SchemaOverlay.Proofs.Edit.Representation

/-!
A definition that was opened, edited by any calls and turned back into a definition: every entry the
draft holds is exported, and opening the export gives the draft again. A definition that was not
edited comes out as it was, unless a collection of it repeats a name.
-/
namespace SchemaOverlay.Draft

open Sdl

section RoundTrip

variable {d : Draft} {c : Collection} {es : Entries}

theorem toDefinition_eq (formed : d.WellFormed) :
    d.toDefinition = d.skeleton.refill d.kind.collections fun c => (d.held c).values := by
  unfold toDefinition Definition.refill
  rw [Keyed.pairs_eq_map_keys formed.distinct .empty, formed.collections, List.foldl_map]
  rfl

theorem kind?_toDefinition (formed : d.WellFormed) : d.toDefinition.kind? = some d.kind := by
  rw [toDefinition_eq formed, Definition.kind?_refill, formed.kind]

theorem name?_toDefinition (formed : d.WellFormed) : d.toDefinition.name? = some d.name := by
  rw [toDefinition_eq formed, Definition.name?_refill, formed.name]

/-- No entry is dropped: each has a shape that its collection keeps. -/
theorem entries_toDefinition (formed : d.WellFormed) (supported : c ∈ d.kind.collections) :
    d.toDefinition.entries c = (d.held c).values := by
  have fits : ∀ k ∈ d.kind.collections, Fits d.kind k (d.held k) :=
    fun k member => formed.held (List.contains_iff_mem.mpr member)
  rw [toDefinition_eq formed]
  exact Definition.entries_refill formed.kind d.kind.collections_nodup (fun _ member => member)
    (fun k member => (fits k member).admitted_values) supported

theorem ofDefinition_toDefinition (formed : d.WellFormed) :
    ofDefinition d.toDefinition = .ok d := by
  have skeleton : (d.toDefinition.refill d.kind.collections fun _ => []) = d.skeleton := by
    rw [toDefinition_eq formed, Definition.refill_refill _ d.kind.collections_nodup]
    exact Definition.refill_entries fun c _ => (formed.bare c).symm
  have filed : (opened d.kind d.name d.toDefinition).collections = d.collections := by
    apply Keyed.eq_of_pairs
    rw [collections_opened, Keyed.pairs_eq_map_keys formed.distinct .empty, formed.collections]
    refine List.map_congr_left fun c supported => ?_
    have fits := formed.held (List.contains_iff_mem.mpr supported)
    rw [entries_toDefinition formed supported, fileEntries_values fits]
    rfl
  rw [ofDefinition_eq (kind?_toDefinition formed) (name?_toDefinition formed)]
  congr 1
  calc opened d.kind d.name d.toDefinition
      = ⟨d.kind, d.name, d.toDefinition.refill d.kind.collections fun _ => [],
          (opened d.kind d.name d.toDefinition).collections⟩ := rfl
    _ = d := by rw [skeleton, filed]

/-- What opening and exporting make of a definition: each collection as it was filed. -/
theorem toDefinition_opened_eq {kind : Kind} {name : Name} {node : Definition}
    (known : node.kind? = some kind) (named : node.name? = some name) :
    (opened kind name node).toDefinition =
      node.refill kind.collections fun c => (fileEntries (node.entries c)).values := by
  have formed := wellFormed_opened known named
  have held : ∀ c ∈ kind.collections,
      ((opened kind name node).held c).values = (fileEntries (node.entries c)).values := by
    intro c supported
    have filed : (opened kind name node).collections.get? c =
        some (fileEntries (node.entries c)) := by
      refine Keyed.get?_of_mem formed.distinct ?_
      rw [collections_opened]
      exact List.mem_map_of_mem supported
    rw [held_of_get? filed]
  calc (opened kind name node).toDefinition
      = (node.refill kind.collections fun _ => []).refill kind.collections
          fun c => ((opened kind name node).held c).values := toDefinition_eq formed
    _ = node.refill kind.collections fun c => ((opened kind name node).held c).values :=
      Definition.refill_refill node kind.collections_nodup
    _ = node.refill kind.collections fun c => (fileEntries (node.entries c)).values :=
      Definition.refill_congr node held

theorem toDefinition_opened {kind : Kind} {name : Name} {node : Definition}
    (known : node.kind? = some kind) (named : node.name? = some name)
    (distinct : ∀ c, ((node.entries c).map Entry.name).Nodup) :
    (opened kind name node).toDefinition = node := by
  rw [toDefinition_opened_eq known named]
  exact Definition.refill_entries fun c _ => values_fileEntries (distinct c)

end RoundTrip

def settle (d : Draft) : Except EditError Draft → Draft
  | .ok d' => d'
  | .error _ => d

/-- The drafts that calls, accepted or refused, lead to from the one a definition is opened as. -/
inductive ReachedFrom : Definition → Draft → Prop
  | opened {node : Definition} {d : Draft} (made : ofDefinition node = .ok d) :
      ReachedFrom node d
  | create {node : Definition} {d : Draft} (c : Collection) (e : Entry)
      (reached : ReachedFrom node d) : ReachedFrom node (d.settle (d.create c e))
  | replace {node : Definition} {d : Draft} (c : Collection) (e : Entry)
      (reached : ReachedFrom node d) : ReachedFrom node (d.settle (d.replace c e))
  | upsert {node : Definition} {d : Draft} (c : Collection) (e : Entry)
      (reached : ReachedFrom node d) : ReachedFrom node (d.settle (d.upsert c e))
  | delete {node : Definition} {d : Draft} (c : Collection) (n : Name)
      (reached : ReachedFrom node d) : ReachedFrom node (d.settle (d.delete c n))
  | remove {node : Definition} {d : Draft} (c : Collection) (n : Name)
      (reached : ReachedFrom node d) : ReachedFrom node (d.settle (d.remove c n))
  /-- A removal that is refused still looks its collection up, and that files an empty collection
  where there is none. -/
  | lookUp {node : Definition} {d : Draft} (c : Collection) (supported : d.supports c = true)
      (reached : ReachedFrom node d) : ReachedFrom node (d.setHeld c (d.held c))
  | extendWith {node source : Definition} {d other : Draft} (reached : ReachedFrom node d)
      (otherReached : ReachedFrom source other) :
      ReachedFrom node (d.settle (d.extendWith other))
  | excludeWith {node source : Definition} {d other : Draft} (reached : ReachedFrom node d)
      (otherReached : ReachedFrom source other) :
      ReachedFrom node (d.settle (d.excludeWith other))

namespace IsOf

variable {node : Definition} {d : Draft} {c : Collection}

theorem settle (isOf : d.IsOf node) {result : Except EditError Draft}
    (done : ∀ d', result = .ok d' → d'.IsOf node) : (d.settle result).IsOf node := by
  cases result with
  | error f => exact isOf
  | ok d' => exact done d' rfl

theorem lookUp (isOf : d.IsOf node) (supported : d.supports c = true) :
    (d.setHeld c (d.held c)).IsOf node := by
  rw [isOf.formed.setHeld_held supported]
  exact isOf

end IsOf

theorem ReachedFrom.isOf {node : Definition} {d : Draft} (reached : ReachedFrom node d) :
    d.IsOf node := by
  induction reached with
  | opened made =>
    obtain ⟨kind, name, known, named, rfl⟩ := ofDefinition_eq_ok_iff.mp made
    exact ⟨wellFormed_opened known named, known, named⟩
  | create c e _ ih =>
    refine ih.settle fun d' done => ?_
    obtain ⟨checked, _, rfl⟩ := create_eq_ok_iff.mp done
    exact ih.put checked
  | replace c e _ ih =>
    refine ih.settle fun d' done => ?_
    obtain ⟨checked, _, rfl⟩ := replace_eq_ok_iff.mp done
    exact ih.put checked
  | upsert c e _ ih =>
    refine ih.settle fun d' done => ?_
    obtain ⟨checked, rfl⟩ := upsert_eq_ok_iff.mp done
    exact ih.put checked
  | delete c n _ ih =>
    refine ih.settle fun d' done => ?_
    obtain ⟨supported, rfl⟩ := delete_eq_ok_iff.mp done
    exact ih.clear supported
  | remove c n _ ih =>
    refine ih.settle fun d' done => ?_
    obtain ⟨supported, _, rfl⟩ := remove_eq_ok_iff.mp done
    exact ih.clear supported
  | lookUp c supported _ ih => exact ih.lookUp supported
  | extendWith _ _ ih otherIh => exact ih.settle fun d' done => ih.extendWith otherIh done
  | excludeWith _ _ ih _ => exact ih.settle fun d' done => ih.excludeWith done

/-- Whatever the calls, a draft represents a definition of the kind and the name it was opened
with: exporting it keeps every entry it holds, in order, and opening the export gives the same
draft. Opening and exporting alone changes nothing, unless a collection repeats a name. -/
theorem export_faithful :
    (∀ node d, ReachedFrom node d →
      d.WellFormed ∧ node.kind? = some d.kind ∧ node.name? = some d.name ∧
      (∀ c es, (c, es) ∈ d.collections.pairs → d.toDefinition.entries c = es.values) ∧
      ofDefinition d.toDefinition = .ok d) ∧
    ∀ node kind, node.kind? = some kind →
      ∃ d, ofDefinition node = .ok d ∧
        ((∀ c, ((node.entries c).map Entry.name).Nodup) → d.toDefinition = node) := by
  constructor
  · intro node d reached
    obtain ⟨formed, kind, name⟩ := reached.isOf
    refine ⟨formed, kind, name, ?_, ofDefinition_toDefinition formed⟩
    intro c es member
    have supported : c ∈ d.kind.collections := by
      rw [← formed.collections]
      exact List.mem_map_of_mem member
    have found := Keyed.get?_of_mem formed.distinct member
    rw [entries_toDefinition formed supported, held_of_get? found]
  · intro node kind known
    obtain ⟨name, named⟩ : ∃ name, node.name? = some name := by
      cases node with
      | schema s => cases known
      | _ => exact ⟨_, rfl⟩
    exact ⟨opened kind name node, ofDefinition_eq known named, toDefinition_opened known named⟩

def unionOf (members : List Name) : Definition := .type none ⟨"Result", [], .union members⟩

def mergedUnion : Draft :=
  let d := opened (.type .union) "Result" (unionOf ["Page", "User"])
  let other := opened (.type .union) "Result" (unionOf ["User", "Post"])
  let extended := d.settle (d.extendWith other)
  extended.settle (extended.remove .types "Page")

theorem export_faithful_mergedUnion :
    ReachedFrom (unionOf ["Page", "User"]) mergedUnion ∧
    mergedUnion.toDefinition.entries .types = [.namedType "User", .namedType "Post"] ∧
    ofDefinition mergedUnion.toDefinition = .ok mergedUnion ∧
    ∃ d, ofDefinition (unionOf ["Page", "User"]) = .ok d ∧
      d.toDefinition = unionOf ["Page", "User"] := by
  have opens : ∀ members,
      ReachedFrom (unionOf members) (opened (.type .union) "Result" (unionOf members)) :=
    fun _ => .opened rfl
  have extended := (opens ["Page", "User"]).extendWith (opens ["User", "Post"])
  have reached : ReachedFrom (unionOf ["Page", "User"]) mergedUnion := extended.remove .types "Page"
  obtain ⟨_, _, _, kept, back⟩ := export_faithful.1 _ _ reached
  obtain ⟨d, made, same⟩ := export_faithful.2 (unionOf ["Page", "User"]) _ rfl
  have distinct : ∀ c, (((unionOf ["Page", "User"]).entries c).map Entry.name).Nodup := by
    intro c
    cases c <;> decide
  exact ⟨reached, kept .types _ (.tail _ (.head _)), back, d, made, same distinct⟩

end SchemaOverlay.Draft
