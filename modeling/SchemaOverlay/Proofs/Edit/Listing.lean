import SchemaOverlay.Proofs.Edit.Merging

/-!
A collection of a draft as a plain list of entries, no two of one name. An accepted call does to the
list what one does to a list of named things, reading reports the list, and what a call is not about
is left alone. So any run of calls can be followed on the lists alone.
-/
namespace SchemaOverlay

open Sdl

namespace Keyed

variable {κ α : Type} [DecidableEq κ]

theorem pairs_insert_of_mem {m : Keyed κ α} (distinct : m.Distinct) {k : κ} (a : α)
    (present : k ∈ m.keys) :
    (m.insert k a).pairs = m.pairs.map fun p => if p.1 = k then (k, a) else p := by
  obtain ⟨pairs⟩ := m
  simp only [Distinct, keys, insert] at distinct present ⊢
  induction pairs with
  | nil => simp at present
  | cons p rest ih =>
    obtain ⟨l, b⟩ := p
    obtain ⟨first, later⟩ := List.nodup_cons.mp distinct
    by_cases same : l = k
    · subst same
      have others : ∀ q ∈ rest, (if q.1 = l then (l, a) else q) = q := by
        intro q member
        refine if_neg ?_
        rintro rfl
        exact first (List.mem_map.mpr ⟨q, member, rfl⟩)
      simp [insertPair, List.map_congr_left others]
    · have below : k ∈ rest.map (·.1) := by simpa [Ne.symm same] using present
      simp [insertPair, same, ih later below]

theorem get?_eq_find? (m : Keyed κ α) (k : κ) :
    m.get? k = (m.pairs.find? (·.1 = k)).map (·.2) := by
  obtain ⟨pairs⟩ := m
  simp only [get?]
  induction pairs with
  | nil => rfl
  | cons p rest ih =>
    obtain ⟨l, a⟩ := p
    by_cases same : l = k <;> simp [lookup, same, ih]

end Keyed

def names (es : List Entry) : List Name := es.map Entry.name

inductive Edit
  | create (e : Entry)
  | replace (e : Entry)
  | upsert (e : Entry)
  | delete (n : Name)
  | remove (n : Name)

namespace Edit

def entry? : Edit → Option Entry
  | .create e | .replace e | .upsert e => some e
  | .delete _ | .remove _ => none

def overwrite (e : Entry) (es : List Entry) : List Entry :=
  es.map fun old => if old.name = e.name then e else old

def discard (n : Name) (es : List Entry) : List Entry := es.filter (·.name ≠ n)

def onList : Edit → List Entry → List Entry
  | .create e, es => es ++ [e]
  | .replace e, es => overwrite e es
  | .upsert e, es => if e.name ∈ names es then overwrite e es else es ++ [e]
  | .delete n, es | .remove n, es => discard n es

def suits : Edit → List Entry → Bool
  | .create e, es => e.name ∉ names es
  | .replace e, es => e.name ∈ names es
  | .remove n, es => n ∈ names es
  | .upsert _, _ | .delete _, _ => true

def accepted (edit : Edit) (kind : Kind) (c : Collection) (es : List Entry) : Bool :=
  kind.supports c && edit.entry?.all (kind.admits c) && edit.suits es

theorem names_overwrite (e : Entry) (es : List Entry) : names (overwrite e es) = names es := by
  rw [names, overwrite, List.map_map]
  refine List.map_congr_left fun old _ => ?_
  simp only [Function.comp_apply]
  split
  · rename_i same
    exact same.symm
  · rfl

theorem names_append_nodup {e : Entry} {es : List Entry} (distinct : (names es).Nodup)
    (new : e.name ∉ names es) : (names (es ++ [e])).Nodup := by
  rw [names, List.map_append, List.nodup_append]
  refine ⟨distinct, by simp, fun n member m last => ?_⟩
  rintro rfl
  exact new (List.mem_singleton.mp last ▸ member)

theorem names_discard_nodup {es : List Entry} (distinct : (names es).Nodup) (n : Name) :
    (names (discard n es)).Nodup :=
  distinct.sublist (List.filter_sublist.map Entry.name)

theorem names_onList_nodup {edit : Edit} {es : List Entry} (distinct : (names es).Nodup)
    (suits : edit.suits es = true) : (names (edit.onList es)).Nodup := by
  cases edit with
  | create e => exact names_append_nodup distinct (of_decide_eq_true suits)
  | replace e =>
    rw [onList, names_overwrite]
    exact distinct
  | upsert e =>
    rw [onList]
    split
    · rw [names_overwrite]
      exact distinct
    · rename_i new
      exact names_append_nodup distinct new
  | delete n => exact names_discard_nodup distinct n
  | remove n => exact names_discard_nodup distinct n

end Edit

namespace Fits

variable {kind : Kind} {c : Collection} {es : Entries}

theorem keys_eq (fits : Fits kind c es) : es.keys = names es.values := by
  rw [names, Keyed.values, List.map_map, Keyed.keys]
  exact List.map_congr_left fun p member => fits.named p.1 p.2 member

theorem get?_eq (fits : Fits kind c es) (n : Name) :
    es.get? n = es.values.find? (·.name = n) := by
  have same : es.pairs.filter (fun p => decide (p.1 = n)) =
      es.pairs.filter fun p => decide (p.2.name = n) :=
    List.filter_congr fun p member => by rw [fits.named p.1 p.2 member]
  rw [Keyed.get?_eq_find?, Keyed.values, List.find?_map, ← List.head?_filter, same,
    List.head?_filter]
  rfl

theorem values_insert (fits : Fits kind c es) (e : Entry) :
    (es.insert e.name e).values = (Edit.upsert e).onList es.values := by
  rw [Edit.onList, ← fits.keys_eq]
  split
  · rename_i present
    rw [Keyed.values, Keyed.pairs_insert_of_mem fits.distinct e present, Edit.overwrite,
      Keyed.values, List.map_map, List.map_map]
    refine List.map_congr_left fun p member => ?_
    simp only [Function.comp_apply, ← fits.named p.1 p.2 member]
    split <;> rfl
  · rename_i absent
    rw [Keyed.values, Keyed.pairs_insert_of_not_mem e absent, List.map_append]
    rfl

theorem values_filter (fits : Fits kind c es) (keep : Name → Bool) :
    (es.pairs.filter fun p => keep p.1).map (·.2) = es.values.filter fun e => keep e.name := by
  rw [Keyed.values, List.filter_map]
  congr 1
  refine List.filter_congr fun p member => ?_
  simp [fits.named p.1 p.2 member]

theorem values_erase (fits : Fits kind c es) (n : Name) :
    (es.erase n).values = Edit.discard n es.values :=
  fits.values_filter fun m => m ≠ n

end Fits

namespace Draft

variable {d d' other : Draft} {c : Collection}

def listed (d : Draft) (c : Collection) : List Entry := (d.held c).values

def edit (d : Draft) (c : Collection) : Edit → Except EditError Draft
  | .create e => d.create c e
  | .replace e => d.replace c e
  | .upsert e => d.upsert c e
  | .delete n => d.delete c n
  | .remove n => d.remove c n

theorem WellFormed.fits_held (formed : d.WellFormed) (c : Collection) :
    Fits d.kind c (d.held c) := by
  cases found : d.collections.get? c with
  | some es =>
    rw [held_of_get? found]
    exact formed.fits c es (Keyed.mem_of_get? found)
  | none =>
    have vacant : d.held c = .empty := by rw [Draft.held, found]; rfl
    rw [vacant]
    exact ⟨List.nodup_nil, fun _ _ member => absurd member List.not_mem_nil,
      fun _ _ member => absurd member List.not_mem_nil⟩

theorem keys_held (formed : d.WellFormed) (c : Collection) :
    (d.held c).keys = names (d.listed c) :=
  (formed.fits_held c).keys_eq

theorem names_listed_nodup (formed : d.WellFormed) (c : Collection) :
    (names (d.listed c)).Nodup := by
  rw [← keys_held formed]
  exact (formed.fits_held c).distinct

section Reading

variable (formed : d.WellFormed) (supported : d.supports c = true)

include formed supported

theorem entries_eq_listed : d.entries c = .ok (d.listed c) := by
  rw [entries, collection, formed.get?_held supported]
  rfl

theorem get?_eq_find?_listed (n : Name) :
    d.get? c n = .ok ((d.listed c).find? (·.name = n)) :=
  get?_eq_ok_iff.mpr ⟨_, formed.get?_held supported, (formed.held supported).get?_eq n⟩

theorem contains_held (n : Name) :
    (d.held c).contains n = decide (n ∈ names (d.listed c)) := by
  rw [Bool.eq_iff_iff, Keyed.contains_iff_mem_keys, (formed.held supported).keys_eq,
    decide_eq_true_iff]
  rfl

theorem has_eq_listed (n : Name) : d.has c n = .ok (decide (n ∈ names (d.listed c))) :=
  has_eq_ok_iff.mpr ⟨_, formed.get?_held supported, contains_held formed supported n⟩

theorem listed_toDefinition : d.toDefinition.entries c = d.listed c :=
  entries_toDefinition formed (List.contains_iff_mem.mp supported)

end Reading

theorem listed_setHeld (d : Draft) (c k : Collection) (es : Entries) :
    (d.setHeld c es).listed k = if c = k then es.values else d.listed k := by
  rw [listed, held_setHeld]
  split <;> rfl

theorem store_some_eq (formed : d.WellFormed) {e : Entry} (checked : d.check c e = .ok ()) :
    d.store c e.name (some e) =
      d.setHeld c (fileEntries ((Edit.upsert e).onList (d.listed c))) := by
  obtain ⟨supported, admitted⟩ := check_eq_ok_iff.mp checked
  have fits := formed.held supported
  rw [store, listed, ← fits.values_insert, fileEntries_values (fits.insert rfl admitted)]

theorem store_none_eq (formed : d.WellFormed) (supported : d.supports c = true) (n : Name) :
    d.store c n none = d.setHeld c (fileEntries (Edit.discard n (d.listed c))) := by
  have fits := formed.held supported
  rw [store, listed, ← fits.values_erase, fileEntries_values (fits.erase n)]

theorem edit_eq_ok_iff (formed : d.WellFormed) {edit : Edit} :
    d.edit c edit = .ok d' ↔ edit.accepted d.kind c (d.listed c) = true ∧
      d' = d.setHeld c (fileEntries (edit.onList (d.listed c))) := by
  have checks : ∀ e, d.check c e = .ok () ↔
      (d.kind.supports c && (some e).all (d.kind.admits c)) = true := by
    intro e
    rw [check_eq_ok_iff, Bool.and_eq_true]
    rfl
  have has : ∀ e b, d.check c e = .ok () →
      (d.has c e.name = .ok b ↔ decide (e.name ∈ names (d.listed c)) = b) := by
    intro e b checked
    rw [has_eq_listed formed (check_eq_ok_iff.mp checked).1, Except.ok.injEq]
  rw [Edit.accepted, Bool.and_eq_true, and_assoc]
  cases edit with
  | create e =>
    rw [Draft.edit, create_eq_ok_iff, Edit.entry?, ← checks]
    refine and_congr_right fun checked => ?_
    rw [store_some_eq formed checked, has e false checked, Edit.suits, decide_eq_false_iff_not,
      decide_eq_true_iff]
    refine and_congr_right fun new => ?_
    rw [Edit.onList, Edit.onList, if_neg new]
  | replace e =>
    rw [Draft.edit, replace_eq_ok_iff, Edit.entry?, ← checks]
    refine and_congr_right fun checked => ?_
    rw [store_some_eq formed checked, has e true checked, Edit.suits]
    refine and_congr_right fun present => ?_
    rw [Edit.onList, Edit.onList, if_pos (of_decide_eq_true present)]
  | upsert e =>
    rw [Draft.edit, upsert_eq_ok_iff, Edit.entry?, ← checks]
    refine and_congr_right fun checked => ?_
    rw [store_some_eq formed checked, Edit.suits]
    simp
  | delete n =>
    rw [Draft.edit, delete_eq_ok_iff, Edit.entry?, Option.all_none, Bool.and_true]
    refine and_congr_right fun supported => ?_
    rw [store_none_eq formed supported, Edit.suits]
    simp [Edit.onList]
  | remove n =>
    rw [Draft.edit, remove_eq_ok_iff, Edit.entry?, Option.all_none, Bool.and_true]
    refine and_congr_right fun supported => ?_
    rw [store_none_eq formed supported, contains_held formed supported, Edit.suits]
    rfl

theorem listed_edit (formed : d.WellFormed) {edit : Edit} (done : d.edit c edit = .ok d') :
    d'.listed c = edit.onList (d.listed c) := by
  obtain ⟨accepted, rfl⟩ := (edit_eq_ok_iff formed).mp done
  obtain ⟨⟨supported, _⟩, suits⟩ : (_ ∧ _) ∧ _ := by
    simpa only [Edit.accepted, Bool.and_eq_true] using accepted
  have distinct := names_listed_nodup formed c
  rw [listed_setHeld, if_pos rfl, values_fileEntries (Edit.names_onList_nodup distinct suits)]

structure SameBut (c : Collection) (d d' : Draft) : Prop where
  kind : d'.kind = d.kind ∧ d'.toDefinition.kind? = d.toDefinition.kind?
  name : d'.name = d.name ∧ d'.toDefinition.name? = d.toDefinition.name?
  description : d'.description? = d.description? ∧
    d'.toDefinition.description? = d.toDefinition.description?
  unfiled : d'.toDefinition.unfiled = d.toDefinition.unfiled
  others : ∀ k, k ≠ c → d'.entries k = d.entries k ∧
    d'.toDefinition.entries k = d.toDefinition.entries k

theorem description?_toDefinition (formed : d.WellFormed) :
    d.toDefinition.description? = d.description? := by
  rw [toDefinition_eq formed, Definition.description?_refill]
  rfl

theorem unfiled_toDefinition (formed : d.WellFormed) :
    d.toDefinition.unfiled = d.skeleton.unfiled := by
  rw [toDefinition_eq formed, Definition.unfiled_refill]

theorem entries_toDefinition_of_unsupported (formed : d.WellFormed)
    (unsupported : ¬ d.supports c = true) : d.toDefinition.entries c = [] :=
  Definition.entries_of_unsupported (kind?_toDefinition formed)
    (mt List.contains_iff_mem.mpr unsupported)

theorem sameBut_edit (formed : d.WellFormed) (formed' : d'.WellFormed) {edit : Edit}
    (done : d.edit c edit = .ok d') : d.SameBut c d' := by
  obtain ⟨_, same⟩ := (edit_eq_ok_iff formed).mp done
  have kind : d'.kind = d.kind := by rw [same]; rfl
  have name : d'.name = d.name := by rw [same]; rfl
  have skeleton : d'.skeleton = d.skeleton := by rw [same]; rfl
  refine ⟨⟨kind, ?_⟩, ⟨name, ?_⟩, ⟨?_, ?_⟩, ?_, fun k other => ⟨?_, ?_⟩⟩
  · rw [kind?_toDefinition formed, kind?_toDefinition formed', kind]
  · rw [name?_toDefinition formed, name?_toDefinition formed', name]
  · rw [description?, description?, skeleton]
  · rw [description?_toDefinition formed, description?_toDefinition formed', description?,
      description?, skeleton]
  · rw [unfiled_toDefinition formed, unfiled_toDefinition formed', skeleton]
  · have held : d'.collections.get? k = d.collections.get? k := by
      rw [same, get?_collections_setHeld, if_neg (Ne.symm other)]
    rw [entries, entries, collection, collection, held, notSupported, notSupported, name, kind]
  · have listed : d'.listed k = d.listed k := by
      rw [same, listed_setHeld, if_neg (Ne.symm other)]
    by_cases supported : d.supports k = true
    · have supported' : d'.supports k = true := by rwa [supports, kind]
      rw [listed_toDefinition formed supported, listed_toDefinition formed' supported', listed]
    · have unsupported' : ¬ d'.supports k = true := by rwa [supports, kind]
      rw [entries_toDefinition_of_unsupported formed supported,
        entries_toDefinition_of_unsupported formed' unsupported']

section Merging

theorem pairs_dropListed (es listed : Entries) :
    (dropListed es listed).pairs = es.pairs.filter fun p => p.1 ∉ listed.keys := by
  unfold dropListed
  generalize listed.keys = dropped
  induction dropped generalizing es with
  | nil => simp
  | cons n rest ih =>
    rw [List.foldl_cons, ih, Keyed.erase, List.filter_filter]
    refine List.filter_congr fun p _ => ?_
    simp [Bool.and_comm]

theorem shed_cons_of_held {d : Draft} {k : Collection} {es names : Entries}
    (rest : List (Collection × Entries)) (found : d.collections.get? k = some es) :
    d.shed ((k, names) :: rest) = (d.setHeld k (dropListed es names)).shed rest := by
  simp only [shed, List.foldl_cons, found]

theorem shed_cons_of_vacant {d : Draft} {k : Collection} (names : Entries)
    (rest : List (Collection × Entries)) (found : d.collections.get? k = none) :
    d.shed ((k, names) :: rest) = d.shed rest := by
  simp only [shed, List.foldl_cons, found]

theorem held_shed (d : Draft) {listed : List (Collection × Entries)}
    (distinct : (listed.map (·.1)).Nodup) (c : Collection) :
    (d.shed listed).held c = dropListed (d.held c) ((Keyed.lookup c listed).getD .empty) := by
  induction listed generalizing d with
  | nil => rfl
  | cons p rest ih =>
    obtain ⟨k, names⟩ := p
    obtain ⟨first, later⟩ := List.nodup_cons.mp distinct
    rw [Keyed.lookup]
    by_cases here : k = c
    · subst here
      have last : Keyed.lookup k rest = none :=
        (Keyed.get?_eq_none_iff (m := ⟨rest⟩)).mpr first
      rw [if_pos rfl]
      cases found : d.collections.get? k with
      | some es =>
        rw [shed_cons_of_held rest found, ih _ later, last, held_setHeld, if_pos rfl,
          held_of_get? found]
        rfl
      | none =>
        have vacant : d.held k = .empty := by rw [held, found]; rfl
        apply Keyed.eq_of_pairs
        rw [shed_cons_of_vacant names rest found, ih _ later, last, vacant, pairs_dropListed,
          pairs_dropListed]
        rfl
    · rw [if_neg here]
      cases found : d.collections.get? k with
      | some es =>
        rw [shed_cons_of_held rest found, ih _ later, held_setHeld, if_neg here]
      | none => rw [shed_cons_of_vacant names rest found, ih _ later]

theorem listed_extendWith (formed : d.WellFormed) (formed' : other.WellFormed)
    (done : d.extendWith other = .ok d') (c : Collection) :
    d'.listed c = d.listed c ++
      (other.listed c).filter fun e => e.name ∉ names (d.listed c) := by
  have own := formed.fits_held c
  have new : (other.held c).pairs.filter (fun p => !(d.held c).contains p.1) =
      (other.held c).pairs.filter fun p => decide (p.1 ∉ names (d.listed c)) := by
    refine List.filter_congr fun p _ => ?_
    simp [Keyed.contains_eq_elem, keys_held formed]
  rw [listed, held_extendWith done formed', Keyed.values,
    pairs_addMissing _ (formed'.distinct_held c), List.map_append, new,
    (formed'.fits_held c).values_filter fun n => decide (n ∉ names (d.listed c))]
  rfl

theorem listed_excludeWith (formed : d.WellFormed) (formed' : other.WellFormed)
    (done : d.excludeWith other = .ok d') (c : Collection) :
    d'.listed c = (d.listed c).filter fun e => e.name ∉ names (other.listed c) := by
  obtain ⟨_, rfl⟩ := excludeWith_eq_ok_iff.mp done
  have there : (Keyed.lookup c other.collections.pairs).getD .empty = other.held c := rfl
  rw [listed, held_shed d formed'.distinct, there, Keyed.values, pairs_dropListed,
    keys_held formed', (formed.fits_held c).values_filter fun n =>
      decide (n ∉ names (other.listed c))]
  rfl

end Merging

inductive Move
  | edit (c : Collection) (asked : Edit)
  | extend (other : Draft)
  | exclude (other : Draft)

def Move.Sound : Move → Prop
  | .edit _ _ => True
  | .extend other | .exclude other => ∃ source, ReachedFrom source other

def Move.onLists (kind : Kind) (lists : Collection → List Entry) (m : Move) (k : Collection) :
    List Entry :=
  match m with
  | .edit c asked =>
    if k = c ∧ asked.accepted kind c (lists c) then asked.onList (lists c) else lists k
  | .extend other =>
    if kind = other.kind then
      lists k ++ (other.listed k).filter fun e => e.name ∉ names (lists k)
    else lists k
  | .exclude other =>
    if kind = other.kind then (lists k).filter fun e => e.name ∉ names (other.listed k)
    else lists k

def move (d : Draft) : Move → Draft
  | .edit c asked => d.settle (d.edit c asked)
  | .extend other => d.settle (d.extendWith other)
  | .exclude other => d.settle (d.excludeWith other)

theorem ReachedFrom.edit {node : Definition} (reached : ReachedFrom node d) (c : Collection)
    (edit : Edit) : ReachedFrom node (d.settle (d.edit c edit)) := by
  cases edit with
  | create e => exact reached.create c e
  | replace e => exact reached.replace c e
  | upsert e => exact reached.upsert c e
  | delete n => exact reached.delete c n
  | remove n => exact reached.remove c n

theorem ReachedFrom.move {node : Definition} (reached : ReachedFrom node d) {m : Move}
    (sound : m.Sound) : ReachedFrom node (d.move m) := by
  cases m with
  | edit c asked => exact reached.edit c asked
  | extend other =>
    obtain ⟨source, otherReached⟩ := sound
    exact reached.extendWith otherReached
  | exclude other =>
    obtain ⟨source, otherReached⟩ := sound
    exact reached.excludeWith otherReached

theorem settle_eq_self {result : Except EditError Draft}
    (refused : ¬ ∃ d', result = .ok d') : d.settle result = d := by
  cases result with
  | ok d' => exact absurd ⟨d', rfl⟩ refused
  | error e => rfl

theorem listed_settle_edit (formed : d.WellFormed) (asked : Edit) (k : Collection) :
    (d.settle (d.edit c asked)).listed k = (Move.edit c asked).onLists d.kind d.listed k := by
  rw [Move.onLists]
  by_cases accepted : asked.accepted d.kind c (d.listed c) = true
  · have done := (edit_eq_ok_iff formed).mpr ⟨accepted, rfl⟩
    rw [done, settle]
    by_cases here : k = c
    · rw [if_pos ⟨here, accepted⟩, here]
      exact listed_edit formed done
    · rw [if_neg fun both => here both.1, listed_setHeld, if_neg (Ne.symm here)]
  · have refused : ¬ ∃ d', d.edit c asked = .ok d' := by
      rintro ⟨d', done⟩
      exact accepted ((edit_eq_ok_iff formed).mp done).1
    rw [if_neg fun both => accepted both.2, settle_eq_self refused]

theorem listed_move {node : Definition} (reached : ReachedFrom node d) {m : Move}
    (sound : m.Sound) : (d.move m).listed = m.onLists d.kind d.listed := by
  have formed := reached.isOf.formed
  funext k
  cases m with
  | edit c asked => exact listed_settle_edit formed asked k
  | extend other =>
    obtain ⟨source, otherReached⟩ := sound
    rw [move, Move.onLists]
    by_cases same : d.kind = other.kind
    · have done := extendWith_eq_ok_iff.mpr ⟨same, rfl⟩
      rw [if_pos same, done]
      exact listed_extendWith formed otherReached.isOf.formed done k
    · have refused : ¬ ∃ d', d.extendWith other = .ok d' := by
        rintro ⟨d', done⟩
        exact same (extendWith_eq_ok_iff.mp done).1
      rw [if_neg same, settle_eq_self refused]
  | exclude other =>
    obtain ⟨source, otherReached⟩ := sound
    rw [move, Move.onLists]
    by_cases same : d.kind = other.kind
    · have done := excludeWith_eq_ok_iff.mpr ⟨same, rfl⟩
      rw [if_pos same, done]
      exact listed_excludeWith formed otherReached.isOf.formed done k
    · have refused : ¬ ∃ d', d.excludeWith other = .ok d' := by
        rintro ⟨d', done⟩
        exact same (excludeWith_eq_ok_iff.mp done).1
      rw [if_neg same, settle_eq_self refused]

theorem ReachedFrom.same_kind {node : Definition} (reached : ReachedFrom node d)
    (reached' : ReachedFrom node d') : d'.kind = d.kind :=
  Option.some.inj (reached'.isOf.kind.symm.trans reached.isOf.kind)

theorem ReachedFrom.moves {node : Definition} (reached : ReachedFrom node d) {moves : List Move}
    (sound : ∀ m ∈ moves, m.Sound) : ReachedFrom node (moves.foldl Draft.move d) := by
  induction moves generalizing d with
  | nil => exact reached
  | cons m rest ih =>
    exact ih (reached.move (sound m List.mem_cons_self)) fun m' member =>
      sound m' (List.mem_cons_of_mem _ member)

theorem listed_moves {node : Definition} (reached : ReachedFrom node d) {moves : List Move}
    (sound : ∀ m ∈ moves, m.Sound) :
    (moves.foldl move d).listed = moves.foldl (Move.onLists d.kind) d.listed := by
  induction moves generalizing d with
  | nil => rfl
  | cons m rest ih =>
    have now : m.Sound := sound m List.mem_cons_self
    have next := reached.move now
    rw [List.foldl_cons, List.foldl_cons,
      ih next fun m' member => sound m' (List.mem_cons_of_mem _ member),
      reached.same_kind next, listed_move reached now]

/-- Each collection of a draft behaves as a list of entries with distinct names. Reading reports
the list, and the exported definition has it. A call about the collection is accepted if the kind
and the list admit it, does to the list what `Edit.onList` says, and leaves all else of the draft
and of its export alone. Any run of calls can be followed on the lists. -/
theorem listed_of_calls {node : Definition} {d : Draft} (reached : ReachedFrom node d) :
    (∀ c, d.supports c = true →
      (names (d.listed c)).Nodup ∧ d.entries c = .ok (d.listed c) ∧
      d.toDefinition.entries c = d.listed c ∧
      ∀ n, d.has c n = .ok (decide (n ∈ names (d.listed c))) ∧
        d.get? c n = .ok ((d.listed c).find? (·.name = n))) ∧
    (∀ c (asked : Edit),
      ((∃ d', d.edit c asked = .ok d') ↔ asked.accepted d.kind c (d.listed c) = true) ∧
      ∀ d', d.edit c asked = .ok d' →
        d'.listed c = asked.onList (d.listed c) ∧ d.SameBut c d') ∧
    ∀ moves : List Move, (∀ m ∈ moves, m.Sound) →
      ReachedFrom node (moves.foldl move d) ∧
      (moves.foldl move d).listed = moves.foldl (Move.onLists d.kind) d.listed := by
  have formed := reached.isOf.formed
  refine ⟨fun c supported => ?_, fun c asked => ⟨⟨?_, ?_⟩, fun d' done => ⟨?_, ?_⟩⟩,
    fun moves sound => ⟨reached.moves sound, listed_moves reached sound⟩⟩
  · exact ⟨names_listed_nodup formed c, entries_eq_listed formed supported,
      listed_toDefinition formed supported, fun n =>
        ⟨has_eq_listed formed supported n, get?_eq_find?_listed formed supported n⟩⟩
  · rintro ⟨d', done⟩
    exact ((edit_eq_ok_iff formed).mp done).1
  · intro accepted
    exact ⟨_, (edit_eq_ok_iff formed).mpr ⟨accepted, rfl⟩⟩
  · exact listed_edit formed done
  · have next : ReachedFrom node d' := by
      have settled := reached.edit c asked
      rwa [done] at settled
    exact sameBut_edit formed next.isOf.formed done

def markedScalar : Definition :=
  .type none ⟨"Url", [⟨"cost", [("n", .int 1)]⟩, ⟨"old", []⟩], .scalar⟩

def remark : List Move := [
  .edit .directives (.remove "old"),
  .edit .directives (.create (.directive ⟨"new", []⟩)),
  .edit .directives (.replace (.directive ⟨"old", []⟩)),
  .edit .directives (.upsert (.directive ⟨"cost", [("n", .int 2)]⟩))]

theorem listed_of_calls_remark :
    ReachedFrom markedScalar (opened (.type .scalar) "Url" markedScalar) ∧
    (∀ m ∈ remark, m.Sound) ∧
    ∃ d, ReachedFrom markedScalar d ∧
      d.entries .directives =
        .ok [.directive ⟨"cost", [("n", .int 2)]⟩, .directive ⟨"new", []⟩] := by
  have reached : ReachedFrom markedScalar (opened (.type .scalar) "Url" markedScalar) :=
    .opened rfl
  have sound : ∀ m ∈ remark, m.Sound := by
    intro m member
    simp only [remark, List.mem_cons, List.not_mem_nil, or_false] at member
    rcases member with rfl | rfl | rfl | rfl <;> exact trivial
  obtain ⟨next, lists⟩ := (listed_of_calls reached).2.2 remark sound
  obtain ⟨_, shown, _⟩ := (listed_of_calls next).1 .directives rfl
  refine ⟨reached, sound, _, next, ?_⟩
  rw [shown, lists]
  rfl

end Draft

end SchemaOverlay
