import SchemaOverlay.Proofs.Edit.Draft
import SchemaOverlay.Proofs.Sdl.Entry

/-!
How a draft represents a definition. The invariant that no type enforces: the draft has the
collections of its kind, each files entries it admits under their own names, and the skeleton is
left without entries. Opening a definition establishes it and every operation keeps it, so a draft
can be turned back into a definition without losing anything.
-/
namespace SchemaOverlay

open Sdl

structure Fits (kind : Kind) (c : Collection) (es : Entries) : Prop where
  distinct : es.Distinct
  named : ∀ n e, (n, e) ∈ es.pairs → n = e.name
  admitted : ∀ n e, (n, e) ∈ es.pairs → kind.admits c e = true

namespace Fits

variable {kind : Kind} {c : Collection} {es : Entries}

theorem insert (fits : Fits kind c es) {n : Name} {e : Entry} (named : n = e.name)
    (admitted : kind.admits c e = true) : Fits kind c (es.insert n e) where
  distinct := fits.distinct.insert n e
  named := by
    intro m f member
    rcases Keyed.mem_pairs_insert member with new | old
    · cases new
      exact named
    · exact fits.named m f old
  admitted := by
    intro m f member
    rcases Keyed.mem_pairs_insert member with new | old
    · cases new
      exact admitted
    · exact fits.admitted m f old

theorem insertNew (fits : Fits kind c es) {n : Name} {e : Entry} (named : n = e.name)
    (admitted : kind.admits c e = true) : Fits kind c (es.insertNew n e) := by
  unfold Keyed.insertNew
  split
  · exact fits
  · exact fits.insert named admitted

theorem erase (fits : Fits kind c es) (n : Name) : Fits kind c (es.erase n) where
  distinct := fits.distinct.erase n
  named := fun m e member => fits.named m e (Keyed.mem_pairs_erase member)
  admitted := fun m e member => fits.admitted m e (Keyed.mem_pairs_erase member)

theorem addMissing (fits : Fits kind c es) {incoming : Entries} (other : Fits kind c incoming) :
    Fits kind c (Draft.addMissing es incoming) := by
  obtain ⟨_, named, admitted⟩ := other
  unfold Draft.addMissing
  generalize incoming.pairs = pairs at named admitted
  induction pairs generalizing es with
  | nil => exact fits
  | cons p rest ih =>
    obtain ⟨n, e⟩ := p
    have next := fits.insertNew (named n e (by simp)) (admitted n e (by simp))
    exact ih next (fun m f member => named m f (List.mem_cons_of_mem _ member))
      (fun m f member => admitted m f (List.mem_cons_of_mem _ member))

theorem dropListed (fits : Fits kind c es) (listed : Entries) :
    Fits kind c (Draft.dropListed es listed) := by
  unfold Draft.dropListed
  induction listed.keys generalizing es with
  | nil => exact fits
  | cons n rest ih => exact ih (fits.erase n)

theorem admitted_values (fits : Fits kind c es) :
    ∀ e ∈ es.values, kind.admits c e = true := by
  intro e member
  obtain ⟨⟨n, f⟩, inside, rfl⟩ := List.mem_map.mp member
  exact fits.admitted n f inside

theorem fileEntries {entries : List Entry}
    (admitted : ∀ e ∈ entries, kind.admits c e = true) :
    Fits kind c (fileEntries entries) where
  distinct := Keyed.Distinct.ofList _
  named := by
    intro n e member
    obtain ⟨f, _, filed⟩ := List.mem_map.mp (Keyed.mem_pairs_ofList member)
    cases filed
    rfl
  admitted := by
    intro n e member
    obtain ⟨f, inside, filed⟩ := List.mem_map.mp (Keyed.mem_pairs_ofList member)
    cases filed
    exact admitted _ inside

end Fits

theorem values_fileEntries {es : List Entry} (distinct : (es.map Entry.name).Nodup) :
    (fileEntries es).values = es := by
  have keys : ((es.map fun e => (e.name, e)).map (·.1)).Nodup := by
    simpa [Function.comp_def] using distinct
  rw [fileEntries, Keyed.ofList_pairs _ keys]
  simp [Keyed.values, Function.comp_def]

theorem fileEntries_values {kind : Kind} {c : Collection} {es : Entries}
    (fits : Fits kind c es) : fileEntries es.values = es := by
  have same : es.values.map (fun e => (e.name, e)) = es.pairs := by
    rw [Keyed.values, List.map_map]
    conv_rhs => rw [← List.map_id es.pairs]
    refine List.map_congr_left fun p member => ?_
    obtain ⟨n, e⟩ := p
    simp [fits.named n e member]
  rw [fileEntries, same, Keyed.ofList_pairs es.pairs fits.distinct]

namespace Draft

structure WellFormed (d : Draft) : Prop where
  collections : d.collections.keys = d.kind.collections
  fits : ∀ c es, (c, es) ∈ d.collections.pairs → Fits d.kind c es
  kind : d.skeleton.kind? = some d.kind
  name : d.skeleton.name? = some d.name
  bare : ∀ c, d.skeleton.entries c = []

theorem collections_opened (kind : Kind) (name : Name) (node : Definition) :
    (opened kind name node).collections =
      ⟨kind.collections.map fun c => (c, fileEntries (node.entries c))⟩ :=
  Keyed.ofList_pairs _ (by simpa [Function.comp_def] using kind.collections_nodup)

theorem wellFormed_opened {kind : Kind} {name : Name} {node : Definition}
    (known : node.kind? = some kind) (named : node.name? = some name) :
    (opened kind name node).WellFormed := by
  refine ⟨?_, ?_, ?_, ?_, ?_⟩
  · rw [collections_opened, Keyed.keys, List.map_map]
    exact List.map_id kind.collections
  · intro c es member
    rw [collections_opened] at member
    obtain ⟨k, _, same⟩ := List.mem_map.mp member
    cases same
    exact Fits.fileEntries fun e inside => Definition.admits_of_mem_entries known inside
  · exact (Definition.kind?_refill node _ fun _ => []).trans known
  · exact (Definition.name?_refill node _ fun _ => []).trans named
  · intro c
    change (node.refill kind.collections fun _ => []).entries c = []
    by_cases supported : c ∈ kind.collections
    · exact Definition.entries_refill known kind.collections_nodup (fun _ member => member)
        (fun _ _ _ member => absurd member List.not_mem_nil) supported
    · rw [Definition.entries_refill_of_not_mem _ _ supported]
      exact Definition.entries_of_unsupported known supported

namespace WellFormed

variable {d d' other : Draft} {c : Collection} {es : Entries}

theorem distinct (formed : d.WellFormed) : d.collections.Distinct := by
  unfold Keyed.Distinct
  rw [formed.collections]
  exact d.kind.collections_nodup

theorem supports_iff (formed : d.WellFormed) :
    d.supports c = true ↔ c ∈ d.collections.keys := by
  rw [formed.collections]
  exact List.contains_iff_mem

theorem get?_held (formed : d.WellFormed) (supported : d.supports c = true) :
    d.collections.get? c = some (d.held c) := by
  have key := formed.supports_iff.mp supported
  obtain ⟨es, found⟩ := Option.isSome_iff_exists.mp (Keyed.get?_isSome_iff.mpr key)
  rw [found, held_of_get? found]

theorem held (formed : d.WellFormed) (supported : d.supports c = true) :
    Fits d.kind c (d.held c) :=
  formed.fits c _ (Keyed.mem_of_get? (formed.get?_held supported))

theorem setHeld_held (formed : d.WellFormed) (supported : d.supports c = true) :
    d.setHeld c (d.held c) = d := by
  simp only [setHeld, Keyed.insert_get? (formed.get?_held supported)]

theorem setHeld (formed : d.WellFormed) (supported : d.supports c = true)
    (fits : Fits d.kind c es) : (d.setHeld c es).WellFormed where
  collections :=
    (Keyed.keys_insert_of_mem es (formed.supports_iff.mp supported)).trans formed.collections
  fits := by
    intro k fs member
    rcases Keyed.mem_pairs_insert member with new | old
    · cases new
      exact fits
    · exact formed.fits k fs old
  kind := formed.kind
  name := formed.name
  bare := formed.bare

theorem takeDescription (formed : d.WellFormed) (text : Option String) :
    { d with skeleton := Draft.takeDescription d.skeleton text }.WellFormed := by
  unfold Draft.takeDescription
  split
  · split
    · exact formed
    · rename_i text _
      exact {
        collections := formed.collections
        fits := formed.fits
        kind := (Definition.kind?_describe text d.skeleton).trans formed.kind
        name := (Definition.name?_describe text d.skeleton).trans formed.name
        bare := fun c => (Definition.entries_describe text d.skeleton c).trans (formed.bare c) }
  · exact formed

end WellFormed

structure IsOf (d : Draft) (node : Definition) : Prop where
  formed : d.WellFormed
  kind : node.kind? = some d.kind
  name : node.name? = some d.name

namespace IsOf

variable {node source : Definition} {d d' other : Draft} {c : Collection} {es : Entries}
  {e : Entry} {n : Name}

theorem setHeld (isOf : d.IsOf node) (supported : d.supports c = true)
    (fits : Fits d.kind c es) : (d.setHeld c es).IsOf node :=
  ⟨isOf.formed.setHeld supported fits, isOf.kind, isOf.name⟩

theorem put (isOf : d.IsOf node) (checked : d.check c e = .ok ()) :
    (d.store c e.name (some e)).IsOf node := by
  obtain ⟨supported, admitted⟩ := check_eq_ok_iff.mp checked
  exact isOf.setHeld supported ((isOf.formed.held supported).insert rfl admitted)

theorem clear (isOf : d.IsOf node) (supported : d.supports c = true) :
    (d.store c n none).IsOf node :=
  isOf.setHeld supported ((isOf.formed.held supported).erase n)

theorem absorb (isOf : d.IsOf node) {incoming : List (Collection × Entries)}
    (others : ∀ c es, (c, es) ∈ incoming → d.supports c = true ∧ Fits d.kind c es) :
    (d.absorb incoming).IsOf node := by
  induction incoming generalizing d with
  | nil => exact isOf
  | cons p rest ih =>
    obtain ⟨c, es⟩ := p
    obtain ⟨supported, fits⟩ := others c es (by simp)
    have next := isOf.setHeld supported ((isOf.formed.held supported).addMissing fits)
    exact ih next fun k fs member => others k fs (List.mem_cons_of_mem _ member)

theorem shed (isOf : d.IsOf node) (listed : List (Collection × Entries)) :
    (d.shed listed).IsOf node := by
  induction listed generalizing d with
  | nil => exact isOf
  | cons p rest ih =>
    obtain ⟨c, names⟩ := p
    refine ih ?_
    dsimp only
    split
    · rename_i es found
      have supported := isOf.formed.supports_iff.mpr (Keyed.mem_keys_of_get? found)
      have fits := isOf.formed.fits c es (Keyed.mem_of_get? found)
      exact isOf.setHeld supported (fits.dropListed names)
    · exact isOf

theorem extendWith (isOf : d.IsOf node) (otherIsOf : other.IsOf source)
    (done : d.extendWith other = .ok d') : d'.IsOf node := by
  obtain ⟨same, rfl⟩ := extendWith_eq_ok_iff.mp done
  have absorbed : (d.absorb other.collections.pairs).IsOf node := by
    refine isOf.absorb fun c es member => ?_
    have supported := otherIsOf.formed.supports_iff.mpr (List.mem_map_of_mem member)
    rw [supports, same]
    exact ⟨supported, otherIsOf.formed.fits c es member⟩
  exact ⟨absorbed.formed.takeDescription other.description?, absorbed.kind, absorbed.name⟩

theorem excludeWith (isOf : d.IsOf node) (done : d.excludeWith other = .ok d') :
    d'.IsOf node := by
  obtain ⟨_, rfl⟩ := excludeWith_eq_ok_iff.mp done
  exact isOf.shed _

end IsOf

end Draft

end SchemaOverlay
