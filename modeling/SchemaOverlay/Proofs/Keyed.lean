import SchemaOverlay.Keyed
import Mathlib.Data.List.Basic
import Mathlib.Data.List.Induction

/-!
What a keyed table holds after values are filed and dropped: look-ups, the list of keys, and the
part of the table whose keys were left alone.
-/
namespace SchemaOverlay

section Repeats

variable {α : Type} [DecidableEq α]

theorem eraseDups_filter (keep : α → Bool) (names : List α) :
    (names.filter keep).eraseDups = names.eraseDups.filter keep := by
  induction h : names.length using Nat.strongRecOn generalizing names with
  | ind k ih =>
    cases names with
    | nil => rfl
    | cons n rest =>
      have shorter : (rest.filter fun m => !m == n).length < k := by
        have := List.length_filter_le (fun m => !m == n) rest
        simp only [List.length_cons] at h
        omega
      rw [List.eraseDups_cons, List.filter_cons, List.filter_cons]
      have tail := ih _ shorter (rest.filter fun m => !m == n) rfl
      rw [List.filter_filter] at tail
      split
      · rw [List.eraseDups_cons, List.filter_filter, ← tail]
        simp only [Bool.and_comm]
      · rename_i dropped
        rw [← tail]
        congr 1
        apply List.filter_congr
        intro m _
        by_cases same : m = n
        · simp [same, dropped]
        · simp [same]

theorem eraseDups_append_congr {l l' m m' : List α} (first : l.eraseDups = l'.eraseDups)
    (second : m.eraseDups = m'.eraseDups) : (l ++ m).eraseDups = (l' ++ m').eraseDups := by
  have member : ∀ a, a ∈ l ↔ a ∈ l' := fun a => by
    rw [← List.mem_eraseDups, first, List.mem_eraseDups]
  have drop : ∀ m : List α, m.removeAll l = m.removeAll l' := fun m =>
    List.filter_congr fun a _ => by
      rw [Bool.not_inj_iff, Bool.eq_iff_iff, List.elem_iff, List.elem_iff, member]
  rw [List.eraseDups_append, List.eraseDups_append, first, drop, List.removeAll, List.removeAll,
    eraseDups_filter, eraseDups_filter, second]

theorem eraseDups_of_nodup {l : List α} (distinct : l.Nodup) : l.eraseDups = l := by
  induction l with
  | nil => rfl
  | cons a rest ih =>
    obtain ⟨new, later⟩ := List.nodup_cons.mp distinct
    have others : rest.filter (fun b => !b == a) = rest :=
      List.filter_eq_self.mpr fun b member => by
        simpa using fun same : b = a => new (same ▸ member)
    rw [List.eraseDups_cons, others, ih later]

theorem eraseDups_concat (l : List α) (a : α) :
    (l ++ [a]).eraseDups = if a ∈ l then l.eraseDups else l.eraseDups ++ [a] := by
  rw [List.eraseDups_append]
  by_cases present : a ∈ l
  · have none : [a].removeAll l = [] := by
      rw [List.removeAll, List.filter_cons_of_neg (by simpa using present)]
      rfl
    rw [if_pos present, none, List.eraseDups_nil, List.append_nil]
  · have one : [a].removeAll l = [a] := by
      rw [List.removeAll, List.filter_cons_of_pos (by simpa using present)]
      rfl
    rw [if_neg present, one]
    rfl

end Repeats

namespace Keyed

variable {κ α : Type} [DecidableEq κ]

omit [DecidableEq κ] in
theorem eq_of_pairs {m m' : Keyed κ α} (same : m.pairs = m'.pairs) : m = m' := by
  cases m
  cases m'
  exact congrArg mk same

theorem mem_of_get? {m : Keyed κ α} {k : κ} {a : α} (found : m.get? k = some a) :
    (k, a) ∈ m.pairs := by
  obtain ⟨pairs⟩ := m
  simp only [get?] at found ⊢
  induction pairs with
  | nil => simp [lookup] at found
  | cons p rest ih =>
    obtain ⟨l, b⟩ := p
    simp only [lookup] at found
    split at found
    · rename_i same
      simp_all
    · exact List.mem_cons_of_mem _ (ih found)

theorem get?_of_mem {m : Keyed κ α} {k : κ} {a : α} (distinct : m.Distinct)
    (member : (k, a) ∈ m.pairs) : m.get? k = some a := by
  obtain ⟨pairs⟩ := m
  simp only [Distinct, keys, get?] at distinct member ⊢
  induction pairs with
  | nil => simp at member
  | cons p rest ih =>
    obtain ⟨l, b⟩ := p
    simp only [List.map_cons, List.nodup_cons] at distinct
    rcases List.mem_cons.mp member with first | later
    · cases first
      simp [lookup]
    · have other : l ≠ k := by
        intro same
        subst same
        exact distinct.1 (List.mem_map_of_mem later)
      simp [lookup, other, ih distinct.2 later]

theorem pairs_eq_map_keys {m : Keyed κ α} (distinct : m.Distinct) (absent : α) :
    m.pairs = m.keys.map fun k => (k, (m.get? k).getD absent) := by
  rw [keys, List.map_map]
  conv_lhs => rw [← List.map_id m.pairs]
  refine List.map_congr_left fun p member => ?_
  obtain ⟨k, a⟩ := p
  simp [get?_of_mem distinct member]

theorem get?_isSome_iff {m : Keyed κ α} {k : κ} : (m.get? k).isSome = true ↔ k ∈ m.keys :=
  contains_iff_mem_keys

theorem mem_keys_of_get? {m : Keyed κ α} {k : κ} {a : α} (found : m.get? k = some a) :
    k ∈ m.keys :=
  get?_isSome_iff.mp (by simp [found])

theorem mem_pairs_insert {m : Keyed κ α} {k : κ} {a : α} {p : κ × α}
    (member : p ∈ (m.insert k a).pairs) : p = (k, a) ∨ p ∈ m.pairs := by
  obtain ⟨pairs⟩ := m
  simp only [insert] at member ⊢
  induction pairs with
  | nil => simpa [insertPair] using member
  | cons q rest ih =>
    obtain ⟨l, b⟩ := q
    simp only [insertPair] at member
    split at member
    · rcases List.mem_cons.mp member with first | later
      · exact Or.inl first
      · exact Or.inr (List.mem_cons_of_mem _ later)
    · rcases List.mem_cons.mp member with first | later
      · exact Or.inr (by simp [first])
      · rcases ih later with new | old
        · exact Or.inl new
        · exact Or.inr (List.mem_cons_of_mem _ old)

theorem mem_pairs_erase {m : Keyed κ α} {k : κ} {p : κ × α}
    (member : p ∈ (m.erase k).pairs) : p ∈ m.pairs :=
  (List.mem_filter.mp member).1

theorem filter_pairs_insert (keep : κ → Bool) (m : Keyed κ α) {k : κ} (a : α)
    (dropped : keep k = false) :
    (m.insert k a).pairs.filter (fun p => keep p.1) = m.pairs.filter (fun p => keep p.1) := by
  obtain ⟨pairs⟩ := m
  simp only [insert]
  induction pairs with
  | nil => simp [insertPair, dropped]
  | cons q rest ih =>
    obtain ⟨l, b⟩ := q
    by_cases same : l = k
    · subst same
      simp [insertPair, dropped]
    · simp only [insertPair, same, ↓reduceIte, List.filter_cons, ih]

theorem filter_pairs_erase (keep : κ → Bool) (m : Keyed κ α) {k : κ} (dropped : keep k = false) :
    (m.erase k).pairs.filter (fun p => keep p.1) = m.pairs.filter (fun p => keep p.1) := by
  simp only [erase, List.filter_filter]
  apply List.filter_congr
  intro p _
  by_cases same : p.1 = k
  · simp [same, dropped]
  · simp [same]

theorem insert_of_not_mem {m : Keyed κ α} {k : κ} (a : α) (new : k ∉ m.keys) :
    m.insert k a = ⟨m.pairs ++ [(k, a)]⟩ := by
  rw [← pairs_insert_of_not_mem a new]

theorem insert_get? {m : Keyed κ α} {k : κ} {a : α} (found : m.get? k = some a) :
    m.insert k a = m := by
  obtain ⟨pairs⟩ := m
  simp only [get?, insert, mk.injEq] at found ⊢
  induction pairs with
  | nil => simp [lookup] at found
  | cons q rest ih =>
    obtain ⟨l, b⟩ := q
    simp only [lookup] at found
    split at found
    · simp_all [insertPair]
    · rename_i other
      simp [insertPair, other, ih found]

theorem ofList_pairs (pairs : List (κ × α)) (distinct : (pairs.map (·.1)).Nodup) :
    ofList pairs = ⟨pairs⟩ := by
  -- The table so far is a prefix, so every key still to come is new to it.
  have grow : ∀ (rest done : List (κ × α)), ((done ++ rest).map (·.1)).Nodup →
      rest.foldl (fun (m : Keyed κ α) (p : κ × α) => m.insert p.1 p.2) ⟨done⟩ =
        ⟨done ++ rest⟩ := by
    intro rest
    induction rest with
    | nil => simp
    | cons p rest ih =>
      intro done nodup
      have new : p.1 ∉ (⟨done⟩ : Keyed κ α).keys := by
        simp only [keys, List.map_append, List.map_cons] at nodup ⊢
        exact fun member => (List.nodup_append.mp nodup).2.2 _ member _ (by simp) rfl
      rw [List.foldl_cons, insert_of_not_mem _ new, ih]
      · simp
      · simpa using nodup
  simpa [ofList, empty] using grow pairs [] (by simpa using distinct)

theorem Distinct.ofList (pairs : List (κ × α)) : (ofList pairs).Distinct := by
  have keep : ∀ (pairs : List (κ × α)) (m : Keyed κ α), m.Distinct →
      (pairs.foldl (fun m (p : κ × α) => m.insert p.1 p.2) m).Distinct := by
    intro pairs
    induction pairs with
    | nil => exact fun _ distinct => distinct
    | cons p rest ih => exact fun m distinct => ih _ (distinct.insert p.1 p.2)
  exact keep pairs empty List.nodup_nil

theorem mem_pairs_ofList {pairs : List (κ × α)} {p : κ × α} (member : p ∈ (ofList pairs).pairs) :
    p ∈ pairs := by
  have come : ∀ (pairs : List (κ × α)) (m : Keyed κ α),
      p ∈ (pairs.foldl (fun m (q : κ × α) => m.insert q.1 q.2) m).pairs →
        p ∈ pairs ∨ p ∈ m.pairs := by
    intro pairs
    induction pairs with
    | nil => exact fun _ member => Or.inr member
    | cons q rest ih =>
      intro m member
      rcases ih _ member with later | earlier
      · exact Or.inl (List.mem_cons_of_mem _ later)
      · rcases mem_pairs_insert earlier with now | before
        · exact Or.inl (by simp [now])
        · exact Or.inr before
  rcases come pairs empty member with given | absent
  · exact given
  · simp [empty] at absent

section All

variable {P : α → Prop} {m : Keyed κ α} {k : κ} {a : α}

def All (P : α → Prop) (m : Keyed κ α) : Prop := ∀ k a, (k, a) ∈ m.pairs → P a

omit [DecidableEq κ] in
theorem All.empty : (empty : Keyed κ α).All P :=
  fun _ _ member => absurd member List.not_mem_nil

omit [DecidableEq κ] in
theorem All.of_mem_values (all : m.All P) (member : a ∈ m.values) : P a := by
  obtain ⟨⟨k, b⟩, inside, rfl⟩ := List.mem_map.mp member
  exact all k b inside

theorem All.get? (all : m.All P) (found : m.get? k = some a) : P a :=
  all k a (mem_of_get? found)

theorem All.insert (all : m.All P) (k : κ) (new : P a) : (m.insert k a).All P := by
  intro l b member
  rcases mem_pairs_insert member with now | before
  · cases now
    exact new
  · exact all l b before

theorem All.erase (all : m.All P) (k : κ) : (m.erase k).All P :=
  fun l b member => all l b (mem_pairs_erase member)

theorem All.ofList {pairs : List (κ × α)} (each : ∀ k a, (k, a) ∈ pairs → P a) :
    (ofList pairs).All P :=
  fun k a member => each k a (mem_pairs_ofList member)

end All

theorem ofList_concat (pairs : List (κ × α)) (p : κ × α) :
    ofList (pairs ++ [p]) = (ofList pairs).insert p.1 p.2 := by
  simp [ofList]

theorem keys_ofList (pairs : List (κ × α)) :
    (ofList pairs).keys = (pairs.map (·.1)).eraseDups := by
  induction pairs using List.reverseRecOn with
  | nil => rfl
  | append_singleton pairs p ih =>
    rw [ofList_concat, List.map_append, List.map_singleton, eraseDups_concat, ← ih]
    have known : p.1 ∈ (ofList pairs).keys ↔ p.1 ∈ pairs.map (·.1) := by
      rw [ih, List.mem_eraseDups]
    by_cases present : p.1 ∈ (ofList pairs).keys
    · rw [keys_insert_of_mem p.2 present, if_pos (known.mp present)]
    · rw [keys_insert_of_not_mem p.2 present, if_neg (mt known.mpr present)]

theorem get?_ofList (pairs : List (κ × α)) (k : κ) :
    (ofList pairs).get? k = ((pairs.filter (·.1 = k)).getLast?).map (·.2) := by
  induction pairs using List.reverseRecOn with
  | nil => rfl
  | append_singleton pairs p ih =>
    rw [ofList_concat, get?_insert, List.filter_append]
    by_cases same : p.1 = k
    · simp [same]
    · simp [same, ih]

theorem values_eq_filterMap {m : Keyed κ α} (distinct : m.Distinct) :
    m.values = m.keys.filterMap m.get? := by
  rw [keys, List.filterMap_map, values, ← List.filterMap_eq_map]
  refine (List.filterMap_congr fun p member => ?_).symm
  exact get?_of_mem distinct member

theorem contains_eq_elem (m : Keyed κ α) (k : κ) : m.contains k = m.keys.elem k := by
  rw [Bool.eq_iff_iff, contains_iff_mem_keys, List.elem_iff]

theorem get?_eq_none_iff {m : Keyed κ α} {k : κ} : m.get? k = none ↔ k ∉ m.keys := by
  rw [← get?_isSome_iff, Option.not_isSome_iff_eq_none]

theorem lookup_append (k : κ) (first second : List (κ × α)) :
    lookup k (first ++ second) = (lookup k first).or (lookup k second) := by
  induction first with
  | nil => rfl
  | cons p rest ih =>
    obtain ⟨l, a⟩ := p
    by_cases same : l = k <;> simp [lookup, same, ih]

theorem lookup_filter (k : κ) (keep : κ → Bool) (pairs : List (κ × α)) :
    lookup k (pairs.filter fun p => keep p.1) = if keep k then lookup k pairs else none := by
  induction pairs with
  | nil => simp [lookup]
  | cons p rest ih =>
    obtain ⟨l, a⟩ := p
    by_cases same : l = k
    · subst same
      by_cases kept : keep l = true <;> simp [lookup, kept, ih]
    · by_cases kept : keep l = true <;> simp [lookup, kept, same, ih]

end Keyed

theorem eraseDups_eraseDups {α : Type} [DecidableEq α] (l : List α) :
    l.eraseDups.eraseDups = l.eraseDups := by
  have distinct := Keyed.Distinct.ofList (l.map fun k => (k, k))
  rw [Keyed.Distinct, Keyed.keys_ofList, List.map_map,
    show Prod.fst ∘ (fun k : α => (k, k)) = id from rfl,
    List.map_id] at distinct
  exact eraseDups_of_nodup distinct

end SchemaOverlay
