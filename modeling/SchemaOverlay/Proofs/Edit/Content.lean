import SchemaOverlay.Proofs.Edit.Loading

/-!
Where the entries of a catalog come from. No call makes an entry up or alters one: a draft holds
entries it was opened with, was given or took over from another draft. So what is so of every entry
that came in is so of every entry that is exported.
-/
namespace SchemaOverlay

open Sdl

variable {P : Entry → Prop}

def Draft.Holds (P : Entry → Prop) (d : Draft) : Prop := d.collections.All (Keyed.All P)

def Sdl.Definition.Holds (P : Entry → Prop) (d : Definition) : Prop := ∀ c, ∀ e ∈ d.entries c, P e

namespace Draft

theorem all_addMissing {es incoming : Entries} (all : es.All P) (more : incoming.All P) :
    (addMissing es incoming).All P := by
  unfold addMissing
  have each : ∀ n e, (n, e) ∈ incoming.pairs → P e := more
  generalize incoming.pairs = pairs at each
  induction pairs generalizing es with
  | nil => exact all
  | cons p rest ih =>
    obtain ⟨n, e⟩ := p
    have next : (es.insertNew n e).All P := by
      unfold Keyed.insertNew
      split
      · exact all
      · exact all.insert n (each n e (by simp))
    exact ih next fun m f member => each m f (List.mem_cons_of_mem _ member)

theorem all_dropListed {es : Entries} (all : es.All P) (listed : Entries) :
    (dropListed es listed).All P := by
  unfold dropListed
  induction listed.keys generalizing es with
  | nil => exact all
  | cons n rest ih => exact ih (all.erase n)

namespace Holds

variable {d d' other : Draft} {c : Collection} {es : Entries} {node : Definition}

theorem held (holds : d.Holds P) (c : Collection) : (d.held c).All P := by
  unfold Draft.held
  cases found : d.collections.get? c with
  | none => exact Keyed.All.empty
  | some es => exact Keyed.All.get? holds found

theorem setHeld (holds : d.Holds P) (c : Collection) (all : es.All P) : (d.setHeld c es).Holds P :=
  Keyed.All.insert holds c all

theorem store (holds : d.Holds P) (c : Collection) (n : Name) {written : Option Entry}
    (new : ∀ e, written = some e → P e) : (d.store c n written).Holds P := by
  cases written with
  | none => exact holds.setHeld c ((holds.held c).erase n)
  | some e => exact holds.setHeld c ((holds.held c).insert n (new e rfl))

theorem opened {kind : Kind} {name : Name} (each : node.Holds P) :
    (opened kind name node).Holds P := by
  rw [Draft.Holds, collections_opened]
  intro c es member
  obtain ⟨k, _, same⟩ := List.mem_map.mp member
  cases same
  refine Keyed.All.ofList fun n e filed => ?_
  obtain ⟨f, inside, same⟩ := List.mem_map.mp filed
  cases same
  exact each c _ inside

theorem ofDefinition (each : node.Holds P) (made : ofDefinition node = .ok d) : d.Holds P := by
  obtain ⟨kind, name, _, _, rfl⟩ := ofDefinition_eq_ok_iff.mp made
  exact .opened each

theorem absorb (holds : d.Holds P) {incoming : List (Collection × Entries)}
    (more : ∀ c es, (c, es) ∈ incoming → es.All P) : (d.absorb incoming).Holds P := by
  induction incoming generalizing d with
  | nil => exact holds
  | cons p rest ih =>
    obtain ⟨c, es⟩ := p
    have next := holds.setHeld c (all_addMissing (holds.held c) (more c es (by simp)))
    exact ih next fun k fs member => more k fs (List.mem_cons_of_mem _ member)

theorem shed (holds : d.Holds P) (listed : List (Collection × Entries)) :
    (d.shed listed).Holds P := by
  induction listed generalizing d with
  | nil => exact holds
  | cons p rest ih =>
    obtain ⟨c, names⟩ := p
    refine ih ?_
    dsimp only
    split
    · rename_i es found
      exact holds.setHeld c (all_dropListed (Keyed.All.get? holds found) names)
    · exact holds

theorem extendWith (holds : d.Holds P) (more : other.Holds P)
    (done : d.extendWith other = .ok d') : d'.Holds P := by
  obtain ⟨_, rfl⟩ := extendWith_eq_ok_iff.mp done
  have absorbed : (d.absorb other.collections.pairs).Holds P := holds.absorb more
  exact absorbed

theorem excludeWith (holds : d.Holds P) (done : d.excludeWith other = .ok d') : d'.Holds P := by
  obtain ⟨_, rfl⟩ := excludeWith_eq_ok_iff.mp done
  exact holds.shed _

theorem becomes {held : Option Draft} (before : ∀ first, held = some first → first.Holds P)
    (incoming : other.Holds P) (became : other.Becomes held d) : d.Holds P := by
  cases became with
  | whole held => exact incoming
  | extended done => exact (before _ rfl).extendWith incoming done
  | excluded done => exact (before _ rfl).excludeWith done

theorem toDefinition (holds : d.Holds P) (formed : d.WellFormed) : d.toDefinition.Holds P := by
  intro c e member
  by_cases supported : c ∈ d.kind.collections
  · rw [entries_toDefinition formed supported] at member
    exact (holds.held c).of_mem_values member
  · rw [Definition.entries_of_unsupported (kind?_toDefinition formed) supported] at member
    cases member

end Holds

end Draft

namespace Catalog

def Holds (P : Entry → Prop) (cat : Catalog) : Prop :=
  ∀ r, (cat.registry r).All (Draft.Holds P)

namespace Holds

variable {cat cat' : Catalog} {r : Registry} {n : Name}

theorem empty : Catalog.empty.Holds P := by
  intro r
  cases r <;> exact Keyed.All.empty

theorem get? (holds : cat.Holds P) {d : Draft} (found : cat.get? r n = some d) : d.Holds P :=
  (holds r).get? found

theorem store (holds : cat.Holds P) (r : Registry) (n : Name) {held : Option Draft}
    (new : ∀ d, held = some d → d.Holds P) : (cat.store r n held).Holds P := by
  intro s m d member
  rcases mem_pairs_store member with ⟨_, _, now⟩ | before
  · exact new d now
  · exact holds s m d before

theorem stores (holds : cat.Holds P) {d : Definition} (each : d.Holds P)
    (ran : cat.Stores r d cat') : cat'.Holds P := by
  obtain ⟨incoming, draft, made, became, rfl⟩ := ran
  refine holds.store r _ fun held same => ?_
  cases same
  have opened := Draft.Holds.ofDefinition each (draftFor_eq_ok_iff.mp made).1
  exact .becomes (fun first found => holds.get? found) opened became

theorem ofDocument {doc : Document} (each : ∀ d ∈ doc.definitions, d.Holds P)
    (loaded : ofDocument doc = .ok cat) : cat.Holds P :=
  addAll_induction (P := Catalog.Holds P) .empty
    (fun d listed _ _ _ holds ran => holds.stores (each d listed) ran) loaded

theorem toDocument (holds : cat.Holds P) (filed : cat.Filed) :
    ∀ d ∈ cat.toDocument.definitions, d.Holds P := by
  rw [definitions_toDocument]
  intro d member
  obtain ⟨draft, listed, rfl⟩ := List.mem_map.mp member
  obtain ⟨r, _, inside⟩ := List.mem_flatMap.mp listed
  exact ((holds r).of_mem_values inside).toDefinition (filed.mem_values inside).formed

end Holds

end Catalog

end SchemaOverlay
