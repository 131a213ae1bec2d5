import SchemaOverlay.Files.FileSystem

/-!
What a change at one place leaves at the others. Where something with nothing below it is put at a place
that holds no directory, every other place holds what it held: the same file, a directory, or nothing.
-/
namespace SchemaOverlay

inductive Standing
  | file (content : List UInt8)
  | directory
  deriving DecidableEq, Repr

namespace Node

def standing : Node → Standing
  | .file content => .file content
  | .directory _ => .directory

def stands? (node : Node) (place : Place) : Option Standing := (node.at? place).map standing

def IsLeaf (node : Node) : Prop := ∀ name, node.child? name = none

theorem isLeaf_file (content : List UInt8) : (file content).IsLeaf := fun _ => rfl

theorem isLeaf_empty : (directory .empty).IsLeaf := fun _ => rfl

variable {new node : Node}

theorem at?_cons (node : Node) (name : String) (rest : Place) :
    node.at? (name :: rest) = (node.child? name).bind (·.at? rest) := rfl

theorem IsLeaf.stands? (leaf : node.IsLeaf) (name : String) (rest : Place) :
    node.stands? (name :: rest) = none := by
  rw [Node.stands?, at?_cons, leaf name]
  rfl

theorem isLeaf_of_stands? (closed : node.stands? [] ≠ some .directory) : node.IsLeaf := by
  cases node with
  | file content => exact isLeaf_file content
  | directory entries => exact absurd rfl closed

theorem stands?_directory (entries : Keyed String Node) (name : String) (rest : Place) :
    (directory entries).stands? (name :: rest) = (entries.get? name).bind (·.stands? rest) := by
  rw [Node.stands?, at?_cons, child?]
  cases entries.get? name <;> rfl

theorem put_cons (new : Node) (entries : Keyed String Node) (name : String) {rest : Place}
    (more : rest ≠ []) : put new (.directory entries) (name :: rest) =
      match entries.get? name with
      | some node => .directory (entries.insert name (put new node rest))
      | none => .directory entries := by
  cases rest with
  | nil => exact absurd rfl more
  | cons next rest => rfl

theorem stands?_insert (entries : Keyed String Node) (name : String) (new : Node) {other : Place}
    (apart : other.head? ≠ some name) :
    (directory (entries.insert name new)).stands? other = (directory entries).stands? other := by
  cases other with
  | nil => rfl
  | cons first rest =>
    have different : name ≠ first := fun same => apart (by rw [same, List.head?_cons])
    rw [stands?_directory, stands?_directory, Keyed.get?_insert, if_neg different]

theorem stands?_put (leaf : new.IsLeaf) {place : Place}
    (closed : node.stands? place ≠ some .directory) (other : Place) :
    (put new node place).stands? other = node.stands? other ∨
      other = place ∧ (put new node place).at? place = some new := by
  -- Both places are followed at once, up to the first name in which they differ.
  induction place generalizing node other with
  | nil =>
    rw [put]
    cases other with
    | nil => exact Or.inr ⟨rfl, rfl⟩
    | cons name rest => rw [leaf.stands?, (isLeaf_of_stands? closed).stands?]; exact Or.inl rfl
  | cons first rest ih =>
    cases node with
    | file content => exact Or.inl rfl
    | directory entries =>
      by_cases last : rest = []
      · subst last
        change (directory (entries.insert first new)).stands? other = _ ∨ _
        by_cases here : other.head? = some first
        · obtain ⟨below, rfl⟩ := List.head?_eq_some_iff.mp here
          rw [stands?_directory, Keyed.get?_insert, if_pos rfl, stands?_directory]
          rw [stands?_directory] at closed
          cases below with
          | nil =>
            refine Or.inr ⟨rfl, ?_⟩
            simp [put, at?, child?, Keyed.get?_insert]
          | cons name below =>
            refine Or.inl ?_
            rw [Option.bind_some, leaf.stands?]
            cases old : entries.get? first with
            | none => rfl
            | some next =>
              rw [old] at closed
              exact ((isLeaf_of_stands? closed).stands? name below).symm
        · exact Or.inl (stands?_insert entries first new here)
      · rw [put_cons new entries first last]
        cases old : entries.get? first with
        | none => exact Or.inl rfl
        | some next =>
          dsimp only
          by_cases here : other.head? = some first
          · obtain ⟨below, rfl⟩ := List.head?_eq_some_iff.mp here
            rw [stands?_directory, old] at closed
            rw [stands?_directory, stands?_directory, Keyed.get?_insert, if_pos rfl, old]
            rcases ih closed below with same | ⟨rfl, put⟩
            · exact Or.inl same
            · refine Or.inr ⟨rfl, ?_⟩
              rw [at?_cons, child?, Keyed.get?_insert, if_pos rfl]
              exact put
          · exact Or.inl (stands?_insert entries first _ here)

end Node

end SchemaOverlay
