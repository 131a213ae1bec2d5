import SchemaOverlay.Proofs.Edit.Export
import SchemaOverlay.Proofs.Traversal

/-!
What a draft holds after others of its kind were merged into it, one after another: in each
collection the entries of all of them, the earliest of those with one name, and the last description
that says anything. What no collection holds is left as it was.
-/
namespace SchemaOverlay

open Sdl

namespace Sdl

def Definition.wording? (d : Definition) : Option String := d.description?.filter (!·.isEmpty)

def TypeBody.implements : TypeBody → List Name
  | .interface implements _ => implements
  | _ => []

/-- What a definition holds besides its name, its description and its entries: the locations of a
directive, whether it is repeatable, and what an interface implements. -/
def Definition.unfiled : Definition → List Location × Bool × List Name
  | .schema _ => ([], false, [])
  | .type _ node | .extension node => ([], false, node.body.implements)
  | .directive d => (d.locations, d.repeatable, [])

namespace Definition

theorem unfiled_withEntries (d : Definition) (c : Collection) (es : List Entry) :
    (d.withEntries c es).unfiled = d.unfiled := by
  have body : ∀ b : TypeBody, (b.withEntries c es).implements = b.implements := by
    intro b
    cases b <;> cases c <;> rfl
  cases d with
  | schema s => rfl
  | type description node => cases c <;> simp [withEntries, TypeNode.withEntries, unfiled, body]
  | extension node => cases c <;> simp [withEntries, TypeNode.withEntries, unfiled, body]
  | directive definition => cases c <;> rfl

theorem unfiled_describe (text : String) (d : Definition) :
    (d.describe text).unfiled = d.unfiled := by
  cases d <;> rfl

theorem description?_withEntries (d : Definition) (c : Collection) (es : List Entry) :
    (d.withEntries c es).description? = d.description? := by
  cases d with
  | directive definition => cases c <;> rfl
  | _ => rfl

theorem unfiled_refill (d : Definition) (cs : List Collection) (f : Collection → List Entry) :
    (d.refill cs f).unfiled = d.unfiled := by
  induction cs generalizing d with
  | nil => rfl
  | cons c rest ih => rw [refill_cons, ih, unfiled_withEntries]

theorem description?_refill (d : Definition) (cs : List Collection)
    (f : Collection → List Entry) : (d.refill cs f).description? = d.description? := by
  induction cs generalizing d with
  | nil => rfl
  | cons c rest ih => rw [refill_cons, ih, description?_withEntries]

end Definition

end Sdl

namespace Draft

theorem pairs_addMissing (es : Entries) {incoming : Entries} (distinct : incoming.Distinct) :
    (addMissing es incoming).pairs =
      es.pairs ++ incoming.pairs.filter fun p => !es.contains p.1 := by
  unfold Keyed.Distinct Keyed.keys at distinct
  unfold addMissing
  generalize incoming.pairs = pairs at distinct ⊢
  induction pairs generalizing es with
  | nil => simp
  | cons p rest ih =>
    obtain ⟨n, e⟩ := p
    obtain ⟨first, later⟩ := List.nodup_cons.mp distinct
    rw [List.foldl_cons, ih _ later]
    dsimp only
    by_cases there : es.contains n = true
    · have kept : es.insertNew n e = es := if_pos there
      rw [kept, List.filter_cons_of_neg (by simp [there])]
    · have new : n ∉ es.keys := mt Keyed.contains_iff_mem_keys.mpr there
      have filed : es.insertNew n e = es.insert n e := if_neg there
      -- The name that was just filed is none of those still to come.
      have others : rest.filter (fun q => !(es.insert n e).contains q.1) =
          rest.filter fun q => !es.contains q.1 := by
        refine List.filter_congr fun q member => ?_
        have other : n ≠ q.1 := by
          rintro rfl
          exact first (List.mem_map.mpr ⟨q, member, rfl⟩)
        rw [Keyed.contains, Keyed.get?_insert, if_neg other, Keyed.contains]
      rw [filed, others, Keyed.pairs_insert_of_not_mem _ new,
        List.filter_cons_of_pos (by simp [there]), List.append_assoc, List.singleton_append]

theorem keys_addMissing {es incoming : Entries} (own : es.Distinct)
    (distinct : incoming.Distinct) :
    (addMissing es incoming).keys = (es.keys ++ incoming.keys).eraseDups := by
  have new : incoming.keys.removeAll es.keys =
      (incoming.pairs.filter fun p => !es.contains p.1).map (·.1) := by
    rw [List.removeAll, Keyed.keys.eq_def incoming, List.filter_map]
    congr 1
    refine List.filter_congr fun p _ => ?_
    simp [Keyed.contains_eq_elem]
  have apart : (incoming.keys.removeAll es.keys).Nodup := distinct.sublist List.filter_sublist
  rw [List.eraseDups_append, eraseDups_of_nodup own, eraseDups_of_nodup apart, new, Keyed.keys,
    pairs_addMissing es distinct, List.map_append]
  rfl

theorem get?_addMissing (es : Entries) {incoming : Entries} (distinct : incoming.Distinct)
    (n : Name) : (addMissing es incoming).get? n = (es.get? n).or (incoming.get? n) := by
  rw [Keyed.get?, pairs_addMissing es distinct, Keyed.lookup_append,
    Keyed.lookup_filter n fun k => !es.contains k]
  change (es.get? n).or _ = _
  cases found : es.get? n with
  | some e => rfl
  | none =>
    have absent : es.contains n = false := by rw [Keyed.contains, found]; rfl
    rw [absent]
    rfl

theorem held_setHeld (d : Draft) (c k : Collection) (es : Entries) :
    (d.setHeld c es).held k = if c = k then es else d.held k := by
  unfold held
  rw [get?_collections_setHeld]
  split <;> rfl

theorem held_absorb (d : Draft) {incoming : List (Collection × Entries)}
    (distinct : (incoming.map (·.1)).Nodup) (c : Collection) :
    (d.absorb incoming).held c = addMissing (d.held c) ((Keyed.lookup c incoming).getD .empty) := by
  induction incoming generalizing d with
  | nil => rfl
  | cons p rest ih =>
    obtain ⟨k, es⟩ := p
    rw [List.map_cons, List.nodup_cons] at distinct
    have step : d.absorb ((k, es) :: rest) = (d.setHeld k (addMissing (d.held k) es)).absorb rest :=
      rfl
    rw [step, ih _ distinct.2, held_setHeld, Keyed.lookup]
    by_cases here : k = c
    · subst here
      have later : Keyed.lookup k rest = none :=
        (Keyed.get?_eq_none_iff (m := ⟨rest⟩)).mpr distinct.1
      rw [later, if_pos rfl, if_pos rfl]
      rfl
    · rw [if_neg here, if_neg here]

theorem kind_absorb (d : Draft) (incoming : List (Collection × Entries)) :
    (d.absorb incoming).kind = d.kind := by
  induction incoming generalizing d with
  | nil => rfl
  | cons p rest ih => exact ih _

theorem skeleton_absorb (d : Draft) (incoming : List (Collection × Entries)) :
    (d.absorb incoming).skeleton = d.skeleton := by
  induction incoming generalizing d with
  | nil => rfl
  | cons p rest ih => exact ih _

theorem description?_takeDescription {skeleton node : Definition}
    (same : skeleton.kind? = node.kind?) :
    (takeDescription skeleton node.description?).description? =
      node.wording?.or skeleton.description? := by
  unfold takeDescription Definition.wording?
  cases given : node.description? with
  | none => rfl
  | some text =>
    cases blank : text.isEmpty with
    | true => simp [Option.filter, blank]
    | false =>
      -- A node with a description is no extension, and then the skeleton is none either.
      cases node <;> cases skeleton <;> simp_all [Definition.description?, Definition.kind?,
        Definition.describe, Option.filter]

theorem unfiled_takeDescription (skeleton : Definition) (text : Option String) :
    (takeDescription skeleton text).unfiled = skeleton.unfiled := by
  unfold takeDescription
  split
  · split
    · rfl
    · exact Definition.unfiled_describe _ _
  · rfl

theorem WellFormed.distinct_held {d : Draft} (formed : d.WellFormed) (c : Collection) :
    (d.held c).Distinct := by
  cases found : d.collections.get? c with
  | none =>
    have vacant : d.held c = .empty := by rw [Draft.held, found]; rfl
    rw [vacant]
    exact List.nodup_nil
  | some es =>
    rw [held_of_get? found]
    exact (formed.fits c es (Keyed.mem_of_get? found)).distinct

section ExtendWith

variable {d other merged : Draft} (done : d.extendWith other = .ok merged)

include done

theorem kind_extendWith : other.kind = d.kind ∧ merged.kind = d.kind := by
  obtain ⟨same, rfl⟩ := extendWith_eq_ok_iff.mp done
  exact ⟨same.symm, kind_absorb d _⟩

theorem skeleton_extendWith :
    merged.skeleton = takeDescription d.skeleton other.skeleton.description? := by
  obtain ⟨_, rfl⟩ := extendWith_eq_ok_iff.mp done
  rw [← skeleton_absorb d other.collections.pairs]
  rfl

theorem held_extendWith (formed : other.WellFormed) (c : Collection) :
    merged.held c = addMissing (d.held c) (other.held c) := by
  obtain ⟨_, rfl⟩ := extendWith_eq_ok_iff.mp done
  exact held_absorb d formed.distinct c

theorem wellFormed_extendWith (own : d.WellFormed) (formed : other.WellFormed) :
    merged.WellFormed :=
  have isOf : d.IsOf d.skeleton := ⟨own, own.kind, own.name⟩
  (isOf.extendWith ⟨formed, formed.kind, formed.name⟩ done).formed

end ExtendWith

/-- What merging drafts into the first of them, one after another, makes of it. -/
structure Gathers (first : Draft) (others : List Draft) (merged : Draft) : Prop where
  formed : merged.WellFormed
  kinds : ∀ d ∈ merged :: others, d.kind = first.kind
  names : ∀ c, (merged.held c).keys =
    ((first :: others).flatMap fun d => (d.held c).keys).eraseDups
  earliest : ∀ c n, (merged.held c).get? n =
    (first :: others).findSome? fun d => (d.held c).get? n
  description : merged.skeleton.description? =
    (others.filterMap (·.skeleton.wording?)).getLast?.or first.skeleton.description?
  unfiled : merged.skeleton.unfiled = first.skeleton.unfiled

theorem gathers_of_foldlM {first merged : Draft} {others : List Draft}
    (own : first.WellFormed) (formed : ∀ d ∈ others, d.WellFormed)
    (done : others.foldlM extendWith first = .ok merged) : first.Gathers others merged := by
  -- The node merged last finds the draft that all earlier ones made.
  induction others using List.reverseRecOn generalizing merged with
  | nil =>
    cases done
    refine ⟨own, by simp, fun c => ?_, fun c n => ?_, rfl, rfl⟩
    · simp [eraseDups_of_nodup (own.distinct_held c)]
    · simp
  | append_singleton others d ih =>
    rw [List.foldlM_append] at done
    obtain ⟨mid, before, done⟩ := exists_of_bind_eq_ok done
    have last : mid.extendWith d = .ok merged := by simpa using done
    have new : d.WellFormed := formed d (by simp)
    have so := ih (fun e member => formed e (List.mem_append_left _ member)) before
    obtain ⟨kind, kept⟩ := kind_extendWith last
    have same : mid.kind = first.kind := so.kinds mid List.mem_cons_self
    refine ⟨wellFormed_extendWith last so.formed new, ?_, fun c => ?_, fun c n => ?_, ?_, ?_⟩
    · intro e member
      rcases List.mem_cons.mp member with rfl | listed
      · rw [kept, same]
      · rcases List.mem_append.mp listed with earlier | now
        · exact so.kinds e (List.mem_cons_of_mem _ earlier)
        · rw [List.mem_singleton.mp now, kind, same]
    · rw [held_extendWith last new, keys_addMissing (so.formed.distinct_held c)
        (new.distinct_held c), so.names c, eraseDups_append_congr (eraseDups_eraseDups _) rfl,
        ← List.cons_append,
        List.flatMap_append, List.flatMap_singleton]
    · rw [held_extendWith last new, get?_addMissing _ (new.distinct_held c), so.earliest c n,
        ← List.cons_append, List.findSome?_append]
      cases found : (d.held c).get? n <;> simp [found]
    · have kinds : mid.skeleton.kind? = d.skeleton.kind? := by
        rw [so.formed.kind, new.kind, kind]
      rw [skeleton_extendWith last, description?_takeDescription kinds, so.description,
        List.filterMap_append]
      cases said : d.skeleton.wording? <;> simp [said]
    · rw [skeleton_extendWith last, unfiled_takeDescription, so.unfiled]

end Draft

end SchemaOverlay
