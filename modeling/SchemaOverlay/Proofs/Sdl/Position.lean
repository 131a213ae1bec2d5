import SchemaOverlay.Proofs.Sdl.Use
import Mathlib.Data.List.Basic
import Mathlib.Tactic.Choose

/-!
Where the uses of directives stand in a document. A position leads by indices to a definition, to a node
in it and to a directive of that node. The list of the uses holds what is found at the positions, each
position once and in order: the directives of a definition come before those of its members, and the
directives of a field's arguments before those of the field.
-/
namespace SchemaOverlay.Sdl

section Enumerates

variable {ι κ β : Type}

/-- A list holds what is found at places: one item for each place where something is found, in the
order of the places. -/
def Enumerates (before : ι → ι → Prop) (find? : ι → Option β) (found : List β) : Prop :=
  ∃ places : List ι, places.Pairwise before ∧ (∀ p, p ∈ places ↔ (find? p).isSome = true) ∧
    places.map find? = found.map some

theorem Enumerates.located {before : ι → ι → Prop} {find? : ι → Option β} {found : List β}
    (listed : Enumerates before find? found) :
    ∃ located : List (ι × β), located.Pairwise (fun x y => before x.1 y.1) ∧
      (∀ p b, (p, b) ∈ located ↔ find? p = some b) ∧ located.map Prod.snd = found := by
  obtain ⟨places, ordered, complete, there⟩ := listed
  refine ⟨places.filterMap fun p => (find? p).map (p, ·), ?_, fun p b => ?_, ?_⟩
  · refine ordered.filterMap _ fun p q earlier x here y next => ?_
    obtain ⟨_, _, rfl⟩ := Option.map_eq_some_iff.mp here
    obtain ⟨_, _, rfl⟩ := Option.map_eq_some_iff.mp next
    exact earlier
  · rw [List.mem_filterMap]
    constructor
    · rintro ⟨q, _, same⟩
      obtain ⟨_, here, same⟩ := Option.map_eq_some_iff.mp same
      cases same
      exact here
    · intro here
      exact ⟨p, (complete p).mpr (by rw [here, Option.isSome_some]), by rw [here, Option.map_some]⟩
  · calc (places.filterMap fun p => (find? p).map (p, ·)).map Prod.snd
        = (places.map find?).filterMap id := by
          rw [List.map_filterMap, List.filterMap_map]
          refine List.filterMap_congr fun p _ => ?_
          cases here : find? p <;> simp [here]
      _ = found := by rw [there, List.filterMap_map]; exact List.filterMap_some

theorem Enumerates.filterMap {before : ι → ι → Prop} {find? : ι → Option κ} {found : List κ}
    (listed : Enumerates before find? found) (f : κ → Option β) :
    Enumerates before (fun p => (find? p).bind f) (found.filterMap f) := by
  obtain ⟨places, ordered, complete, there⟩ := listed
  refine ⟨places.filter fun p => ((find? p).bind f).isSome, ordered.filter _, fun p => ?_, ?_⟩
  · rw [List.mem_filter, complete, and_iff_right_iff_imp]
    intro taken
    cases here : find? p with
    | none => simp [here] at taken
    | some a => rfl
  · calc (places.filter fun p => ((find? p).bind f).isSome).map (fun p => (find? p).bind f)
        = ((places.map find?).map (·.bind f)).filter Option.isSome := by
          rw [List.map_map, List.filter_map]
          rfl
      _ = (found.map f).filter Option.isSome := by
          rw [there, List.map_map]
          rfl
      _ = (found.filterMap f).map some := List.map_filterMap_some_eq_filter_map_isSome.symm

theorem enumerates_getElem? (l : List β) : Enumerates (· < ·) (fun i : Nat => l[i]?) l := by
  refine ⟨List.range l.length, List.pairwise_lt_range, by simp, ?_⟩
  apply List.ext_getElem
  · simp
  · intro i _ inside
    simp

theorem enumerates_single (b : β) : Enumerates (fun _ _ : Unit => False) (fun _ => some b) [b] :=
  ⟨[()], by simp, by simp, rfl⟩

/-- One list behind another, where the places of the first come before those of the second. -/
theorem Enumerates.append {ι' : Type} {before : ι → ι → Prop} {find? : ι → Option β}
    {before' : ι' → ι' → Prop} {find?' : ι' → Option β} {precedes : κ → κ → Prop}
    {look? : κ → Option β} {l l' : List β} (place : ι → κ) (place' : ι' → κ)
    (first : Enumerates before find? l) (second : Enumerates before' find?' l')
    (within : ∀ {p q}, before p q → precedes (place p) (place q))
    (within' : ∀ {p q}, before' p q → precedes (place' p) (place' q))
    (across : ∀ p q, precedes (place p) (place' q))
    (looked : ∀ p, look? (place p) = find? p) (looked' : ∀ p, look? (place' p) = find?' p)
    (covered : ∀ z, (look? z).isSome = true → (∃ p, place p = z) ∨ ∃ q, place' q = z) :
    Enumerates precedes look? (l ++ l') := by
  obtain ⟨places, ordered, complete, there⟩ := first
  obtain ⟨places', ordered', complete', there'⟩ := second
  refine ⟨places.map place ++ places'.map place', ?_, fun z => ?_, ?_⟩
  · rw [List.pairwise_append, List.pairwise_map, List.pairwise_map]
    refine ⟨ordered.imp within, ordered'.imp within', ?_⟩
    simp only [List.mem_map]
    rintro _ ⟨p, _, rfl⟩ _ ⟨q, _, rfl⟩
    exact across p q
  · rw [List.mem_append, List.mem_map, List.mem_map]
    constructor
    · rintro (⟨p, member, rfl⟩ | ⟨q, member, rfl⟩)
      · rw [looked]
        exact (complete p).mp member
      · rw [looked']
        exact (complete' q).mp member
    · intro found
      rcases covered z found with ⟨p, rfl⟩ | ⟨q, rfl⟩
      · rw [looked] at found
        exact Or.inl ⟨p, (complete p).mpr found, rfl⟩
      · rw [looked'] at found
        exact Or.inr ⟨q, (complete' q).mpr found, rfl⟩
  · rw [List.map_append, List.map_map, List.map_map, List.map_append, ← there, ← there']
    congr 1
    · exact List.map_congr_left fun p _ => looked p
    · exact List.map_congr_left fun q _ => looked' q

/-- What is found in each item of a list, where the places of an item begin with that of the item. -/
theorem Enumerates.flatMap {α ι' : Type} {before : ι → ι → Prop} {find? : ι → Option α}
    {before' : ι' → ι' → Prop} {find?' : α → ι' → Option β} {precedes : κ → κ → Prop}
    {look? : κ → Option β} {l : List α} {f : α → List β} (place : ι → ι' → κ)
    (outer : Enumerates before find? l) (inner : ∀ a ∈ l, Enumerates before' (find?' a) (f a))
    (within : ∀ p {x y}, before' x y → precedes (place p x) (place p y))
    (across : ∀ {p q} x y, before p q → precedes (place p x) (place q y))
    (looked : ∀ p x, look? (place p x) = (find? p).bind (find?' · x))
    (covered : ∀ z, (look? z).isSome = true → ∃ p x, place p x = z) :
    Enumerates precedes look? (l.flatMap f) := by
  obtain ⟨places, ordered, complete, there⟩ := outer
  choose! inside ordered' complete' there' using inner
  have member {p : ι} {a : α} (found : find? p = some a) : a ∈ l := by
    have listed : some a ∈ places.map find? :=
      found ▸ List.mem_map_of_mem ((complete p).mpr (by rw [found, Option.isSome_some]))
    rw [there] at listed
    simpa using listed
  -- A position is a place in the outer list followed by one inside of what stands there.
  refine ⟨places.flatMap fun p => ((find? p).elim [] inside).map (place p), ?_, fun z => ?_, ?_⟩
  · rw [List.pairwise_flatMap]
    refine ⟨fun p _ => ?_, ordered.imp fun {p q} earlier => ?_⟩
    · rw [List.pairwise_map]
      cases found : find? p with
      | none => exact .nil
      | some a => exact (ordered' a (member found)).imp (within p)
    · simp only [List.mem_map]
      rintro _ ⟨x, _, rfl⟩ _ ⟨y, _, rfl⟩
      exact across x y earlier
  · simp only [List.mem_flatMap, List.mem_map]
    constructor
    · rintro ⟨p, _, x, listed, rfl⟩
      rw [looked]
      cases found : find? p with
      | none => simp [found] at listed
      | some a =>
        rw [found] at listed
        exact (complete' a (member found) x).mp listed
    · intro found
      obtain ⟨p, x, rfl⟩ := covered z found
      rw [looked] at found
      cases here : find? p with
      | none => simp [here] at found
      | some a =>
        rw [here] at found
        refine ⟨p, (complete p).mpr (by rw [here, Option.isSome_some]), x, ?_, rfl⟩
        rw [here]
        exact (complete' a (member here) x).mpr found
  · have each (p : ι) (listed : p ∈ places) :
        (((find? p).elim [] inside).map (place p)).map look? =
          ((find? p).elim [] f).map some := by
      cases found : find? p with
      | none => rfl
      | some a =>
        rw [List.map_map, Option.elim_some, Option.elim_some, ← there' a (member found)]
        refine List.map_congr_left fun x _ => ?_
        rw [Function.comp_apply, looked, found, Option.bind_some]
    calc (places.flatMap fun p => ((find? p).elim [] inside).map (place p)).map look?
        = places.flatMap fun p => ((find? p).elim [] f).map some := by
          rw [List.map_flatMap]
          exact List.flatMap_congr each
      _ = (places.map find?).flatMap fun a => (a.elim [] f).map some := by rw [List.flatMap_map]
      _ = (l.flatMap f).map some := by rw [there, List.flatMap_map, List.map_flatMap]; rfl

end Enumerates

/-- A node of a definition: the definition itself, a member of it, or an argument of a member. -/
inductive Address
  | self
  | member (index : Nat)
  | argument (member index : Nat)
  deriving DecidableEq, Repr

/-- The definition comes first; the members follow in order, each behind its arguments. -/
def Address.Before : Address → Address → Prop
  | _, .self => False
  | .self, _ => True
  | .member i, .member j => i < j
  | .member i, .argument j _ => i < j
  | .argument i _, .member j => i ≤ j
  | .argument i k, .argument j l => i < j ∨ i = j ∧ k < l

structure Position where
  definition : Nat
  node : Address
  index : Nat
  deriving DecidableEq, Repr

def Position.Before (p q : Position) : Prop :=
  p.definition < q.definition ∨ p.definition = q.definition ∧
    (p.node.Before q.node ∨ p.node = q.node ∧ p.index < q.index)

theorem Position.Before.ne {p q : Position} (before : p.Before q) : p ≠ q := by
  rintro rfl
  have apart (a : Address) : ¬ a.Before a := by
    cases a <;> simp [Address.Before]
  rcases before with earlier | ⟨_, earlier | ⟨_, earlier⟩⟩
  · exact Nat.lt_irrefl _ earlier
  · exact apart _ earlier
  · exact Nat.lt_irrefl _ earlier

def TypeBody.members (d : Definition) : TypeBody → List Site
  | .scalar | .union _ => []
  | .object _ fields | .interface _ fields => fields.map (.field d)
  | .enum values => values.map (.enumValue d)
  | .inputObject fields => fields.map (.inputValue d)

/-- The nodes directly inside a definition that may carry directives. -/
def Definition.members (d : Definition) : List Site :=
  match d with
  | .schema _ => []
  | .type _ node | .extension node => node.body.members d
  | .directive definition => definition.arguments.map (.inputValue d)

def Site.arguments : Site → List Site
  | .field d f => f.arguments.map (.argument d f)
  | .definition _ | .argument .. | .inputValue .. | .enumValue .. => []

def Definition.site? (d : Definition) : Address → Option Site
  | .self => some (.definition d)
  | .member j => d.members[j]?
  | .argument j k => d.members[j]?.bind fun s => s.arguments[k]?

/-- The use of a directive at a position, with its index and with the nodes around it. -/
def Document.useAt? (doc : Document) (p : Position) : Option Use := do
  let d ← doc.definitions[p.definition]?
  let s ← d.site? p.node
  let directive ← s.directives[p.index]?
  return ⟨directive, p.index, s⟩

theorem TypeBody.sites_eq (d : Definition) (body : TypeBody) :
    body.sites d = (body.members d).flatMap fun s => s.arguments ++ [s] := by
  cases body <;>
    simp [sites, members, Site.arguments, List.flatMap_map, ← List.map_eq_flatMap]

theorem Definition.sites_eq (d : Definition) :
    d.sites = .definition d :: d.members.flatMap fun s => s.arguments ++ [s] := by
  cases d with
  | schema s => rfl
  | type description node => exact congrArg _ (node.body.sites_eq _)
  | extension node => exact congrArg _ (node.body.sites_eq _)
  | directive definition =>
    simp [sites, members, Site.arguments, List.flatMap_map, ← List.map_eq_flatMap]

def Address.inMember (j : Nat) : Option Nat → Address
  | some k => .argument j k
  | none => .member j

def argumentFirst : Option Nat → Option Nat → Prop
  | some k, some l => k < l
  | some _, none => True
  | none, _ => False

theorem Site.enumerates_arguments (s : Site) :
    Enumerates argumentFirst (Option.elim · (some s) (s.arguments[·]?)) (s.arguments ++ [s]) := by
  refine .append some (fun _ => none) (enumerates_getElem? s.arguments) (enumerates_single s) ?_ ?_
    (fun _ _ => trivial) (fun _ => rfl) (fun _ => rfl) ?_
  · exact fun earlier => earlier
  · exact False.elim
  · rintro (_ | k) _
    · exact Or.inr ⟨(), rfl⟩
    · exact Or.inl ⟨k, rfl⟩

theorem Definition.enumerates_members (d : Definition) :
    Enumerates (fun p q : Nat × Option Nat => (Address.inMember p.1 p.2).Before (.inMember q.1 q.2))
      (fun p => d.site? (.inMember p.1 p.2)) (d.members.flatMap fun s => s.arguments ++ [s]) := by
  refine .flatMap Prod.mk (enumerates_getElem? d.members) (fun s _ => s.enumerates_arguments)
    ?_ ?_ ?_ fun z _ => ⟨z.1, z.2, rfl⟩
  · rintro j (_ | k) (_ | l) earlier
    · exact earlier.elim
    · exact earlier.elim
    · exact Nat.le_refl j
    · exact Or.inr ⟨rfl, earlier⟩
  · rintro i j (_ | k) (_ | l) earlier
    · exact earlier
    · exact earlier
    · exact Nat.le_of_lt earlier
    · exact Or.inl earlier
  · rintro j (_ | k)
    · simp [Address.inMember, site?]
    · rfl

theorem Definition.enumerates_sites (d : Definition) :
    Enumerates Address.Before d.site? d.sites := by
  rw [d.sites_eq]
  refine .append (fun _ => Address.self) (fun p => Address.inMember p.1 p.2) (enumerates_single (.definition d))
    d.enumerates_members False.elim id ?_ (fun _ => rfl) (fun _ => rfl) ?_
  · rintro _ ⟨j, _ | k⟩ <;> trivial
  · rintro (_ | j | ⟨j, k⟩) _
    · exact Or.inl ⟨(), rfl⟩
    · exact Or.inr ⟨(j, none), rfl⟩
    · exact Or.inr ⟨(j, some k), rfl⟩

theorem Definition.enumerates_uses (d : Definition) :
    Enumerates
      (fun p q : Address × Nat => p.1.Before q.1 ∨ p.1 = q.1 ∧ p.2 < q.2)
      (fun p => (d.site? p.1).bind fun s => s.uses[p.2]?) (d.sites.flatMap Site.uses) :=
  .flatMap Prod.mk d.enumerates_sites (fun s _ => enumerates_getElem? s.uses)
    (fun _ _ _ earlier => Or.inr ⟨rfl, earlier⟩) (fun _ _ earlier => Or.inl earlier)
    (fun _ _ => rfl) fun z _ => ⟨z.1, z.2, rfl⟩

theorem Document.useAt?_eq (doc : Document) (p : Position) :
    doc.useAt? p = doc.definitions[p.definition]?.bind fun d =>
      (d.site? p.node).bind fun s => s.uses[p.index]? := by
  unfold useAt?
  refine congrArg _ (funext fun d => congrArg _ (funext fun s => ?_))
  cases there : s.directives[p.index]? <;> simp [Site.uses, there]

theorem Document.enumerates_uses (doc : Document) :
    Enumerates Position.Before doc.useAt? doc.uses := by
  refine .flatMap (fun i p => ⟨i, p.1, p.2⟩) (enumerates_getElem? doc.definitions)
    (fun d _ => d.enumerates_uses) ?_ ?_ (fun i p => doc.useAt?_eq _) ?_
  · exact fun i _ _ earlier => Or.inr ⟨rfl, earlier⟩
  · exact fun _ _ earlier => Or.inl earlier
  · exact fun z _ => ⟨z.definition, (z.node, z.index), rfl⟩

/-- The use is the one at its index among the directives written on its node. -/
inductive Use.Stands : Use → Prop
  | schema {s : SchemaDefinition} {use : Directive} {k : Nat} (there : s.directives[k]? = some use) :
      Stands ⟨use, k, .definition (.schema s)⟩
  | type {description : Option String} {node : TypeNode} {use : Directive} {k : Nat}
      (there : node.directives[k]? = some use) : Stands ⟨use, k, .definition (.type description node)⟩
  | extension {node : TypeNode} {use : Directive} {k : Nat}
      (there : node.directives[k]? = some use) : Stands ⟨use, k, .definition (.extension node)⟩
  | field {d : Definition} {f : Field} {use : Directive} {k : Nat}
      (there : f.directives[k]? = some use) : Stands ⟨use, k, .field d f⟩
  | argument {d : Definition} {f : Field} {v : InputValue} {use : Directive} {k : Nat}
      (there : v.directives[k]? = some use) : Stands ⟨use, k, .argument d f v⟩
  | inputValue {d : Definition} {v : InputValue} {use : Directive} {k : Nat}
      (there : v.directives[k]? = some use) : Stands ⟨use, k, .inputValue d v⟩
  | enumValue {d : Definition} {v : EnumValue} {use : Directive} {k : Nat}
      (there : v.directives[k]? = some use) : Stands ⟨use, k, .enumValue d v⟩

theorem Use.stands_iff {u : Use} : u.Stands ↔ u.site.directives[u.index]? = some u.directive := by
  constructor
  · rintro (there | there | there | there | there | there | there) <;> exact there
  · obtain ⟨use, k, site⟩ := u
    intro there
    cases site with
    | definition d =>
      cases d with
      | schema s => exact .schema there
      | type description node => exact .type there
      | extension node => exact .extension there
      | directive definition => cases there
    | field d f => exact .field there
    | argument d f v => exact .argument there
    | inputValue d v => exact .inputValue there
    | enumValue d v => exact .enumValue there

/-- The position leads to the node that carries the use, and there to the use. -/
structure Document.Holds (doc : Document) (p : Position) (u : Use) : Prop where
  node : ∃ d, doc.definitions[p.definition]? = some d ∧ d.site? p.node = some u.site
  index : u.index = p.index
  stands : u.Stands

theorem Document.useAt?_eq_some_iff {doc : Document} {p : Position} {u : Use} :
    doc.useAt? p = some u ↔ doc.Holds p u := by
  simp only [useAt?, bind, pure, Option.bind_eq_some_iff, Option.some.injEq]
  constructor
  · rintro ⟨d, listed, s, node, use, there, rfl⟩
    exact ⟨⟨d, listed, node⟩, rfl, Use.stands_iff.mpr there⟩
  · rintro ⟨⟨d, listed, node⟩, index, stands⟩
    obtain ⟨use, k, site⟩ := u
    cases index
    exact ⟨d, listed, site, node, use, Use.stands_iff.mp stands, rfl⟩

end SchemaOverlay.Sdl
