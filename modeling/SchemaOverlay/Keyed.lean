/-!
Values filed under keys, in the order in which the keys came. Filing a value under a key that is
present overwrites the value and keeps the place of the key.
-/
namespace SchemaOverlay

structure Keyed (κ α : Type) where
  pairs : List (κ × α)
  deriving DecidableEq, Repr

namespace Keyed

variable {κ α : Type}

instance : Inhabited (Keyed κ α) := ⟨⟨[]⟩⟩

def empty : Keyed κ α := ⟨[]⟩

def keys (m : Keyed κ α) : List κ := m.pairs.map (·.1)

def values (m : Keyed κ α) : List α := m.pairs.map (·.2)

def size (m : Keyed κ α) : Nat := m.pairs.length

def isEmpty (m : Keyed κ α) : Bool := m.pairs.isEmpty

def Distinct (m : Keyed κ α) : Prop := m.keys.Nodup

variable [DecidableEq κ]

def lookup (k : κ) : List (κ × α) → Option α
  | [] => none
  | (l, a) :: rest => if l = k then some a else lookup k rest

def get? (m : Keyed κ α) (k : κ) : Option α := lookup k m.pairs

def contains (m : Keyed κ α) (k : κ) : Bool := (m.get? k).isSome

def insertPair (k : κ) (a : α) : List (κ × α) → List (κ × α)
  | [] => [(k, a)]
  | (l, b) :: rest => if l = k then (k, a) :: rest else (l, b) :: insertPair k a rest

def insert (m : Keyed κ α) (k : κ) (a : α) : Keyed κ α := ⟨insertPair k a m.pairs⟩

def insertNew (m : Keyed κ α) (k : κ) (a : α) : Keyed κ α :=
  if m.contains k then m else m.insert k a

def erase (m : Keyed κ α) (k : κ) : Keyed κ α := ⟨m.pairs.filter (·.1 ≠ k)⟩

/-- Files values one after another; of two under one key the later stays. -/
def ofList (pairs : List (κ × α)) : Keyed κ α :=
  pairs.foldl (fun m (k, a) => m.insert k a) empty

theorem contains_iff_mem_keys {m : Keyed κ α} {k : κ} : m.contains k = true ↔ k ∈ m.keys := by
  obtain ⟨pairs⟩ := m
  simp only [contains, get?, keys]
  induction pairs with
  | nil => simp [lookup]
  | cons p rest ih =>
    obtain ⟨l, a⟩ := p
    by_cases h : l = k
    · simp [lookup, h]
    · simp [lookup, h, ih, Ne.symm h]

theorem keys_insert_of_mem {m : Keyed κ α} {k : κ} (a : α) (h : k ∈ m.keys) :
    (m.insert k a).keys = m.keys := by
  obtain ⟨pairs⟩ := m
  simp only [insert, keys] at h ⊢
  induction pairs with
  | nil => simp at h
  | cons p rest ih =>
    obtain ⟨l, b⟩ := p
    by_cases hl : l = k
    · simp [insertPair, hl]
    · have : k ∈ rest.map (·.1) := by simpa [Ne.symm hl] using h
      simp [insertPair, hl, ih this]

theorem pairs_insert_of_not_mem {m : Keyed κ α} {k : κ} (a : α) (h : k ∉ m.keys) :
    (m.insert k a).pairs = m.pairs ++ [(k, a)] := by
  obtain ⟨pairs⟩ := m
  simp only [insert, keys] at h ⊢
  induction pairs with
  | nil => rfl
  | cons p rest ih =>
    obtain ⟨l, b⟩ := p
    simp only [List.map_cons, List.mem_cons, not_or] at h
    simp [insertPair, Ne.symm h.1, ih h.2]

theorem keys_insert_of_not_mem {m : Keyed κ α} {k : κ} (a : α) (h : k ∉ m.keys) :
    (m.insert k a).keys = m.keys ++ [k] := by
  simp [keys, pairs_insert_of_not_mem a h]

theorem Distinct.insert {m : Keyed κ α} (h : m.Distinct) (k : κ) (a : α) :
    (m.insert k a).Distinct := by
  unfold Distinct
  by_cases hk : k ∈ m.keys
  · rw [keys_insert_of_mem a hk]
    exact h
  · rw [keys_insert_of_not_mem a hk]
    exact List.nodup_append.2 ⟨h, by simp, fun x hx y hy => by
      rintro rfl
      exact hk (List.mem_singleton.1 hy ▸ hx)⟩

theorem get?_insert (m : Keyed κ α) (k l : κ) (a : α) :
    (m.insert k a).get? l = if k = l then some a else m.get? l := by
  obtain ⟨pairs⟩ := m
  simp only [insert, get?]
  induction pairs with
  | nil => rfl
  | cons p rest ih =>
    obtain ⟨j, b⟩ := p
    by_cases hj : j = k
    · subst hj
      by_cases hl : j = l <;> simp [insertPair, lookup, hl]
    · by_cases hl : j = l
      · subst hl
        simp [insertPair, lookup, hj, Ne.symm hj]
      · simp [insertPair, lookup, hj, hl, ih]

theorem keys_erase (m : Keyed κ α) (k : κ) : (m.erase k).keys = m.keys.filter (· ≠ k) := by
  simp [erase, keys, List.filter_map, Function.comp_def]

theorem Distinct.erase {m : Keyed κ α} (h : m.Distinct) (k : κ) : (m.erase k).Distinct := by
  unfold Distinct
  rw [keys_erase]
  exact List.Nodup.sublist List.filter_sublist h

theorem get?_erase (m : Keyed κ α) (k l : κ) :
    (m.erase k).get? l = if k = l then none else m.get? l := by
  obtain ⟨pairs⟩ := m
  simp only [erase, get?]
  induction pairs with
  | nil => simp [lookup]
  | cons p rest ih =>
    obtain ⟨j, b⟩ := p
    by_cases hj : j = k
    · subst hj
      by_cases hl : j = l <;> simp_all [lookup]
    · by_cases hl : j = l
      · subst hl
        simp [lookup, hj, Ne.symm hj]
      · simp_all [lookup]

end Keyed

end SchemaOverlay
