import SchemaOverlay.Keyed

/-!
Files and directories as a tree. A place in it is given by the names on the way there; a node can be
looked up at a place, and another one can be put there.
-/
namespace SchemaOverlay

abbrev Place := List String

inductive Node
  | file (content : List UInt8)
  | directory (entries : Keyed String Node)
  deriving Repr

namespace Node

def child? : Node → String → Option Node
  | .directory entries, name => entries.get? name
  | .file _, _ => none

def at? : Node → Place → Option Node
  | node, [] => some node
  | node, name :: rest => (node.child? name).bind (·.at? rest)

/-- The node with `new` put at a place in it. Where no directory is around the place, nothing can be
put. -/
def put (new : Node) : Node → Place → Node
  | _, [] => new
  | .file content, _ :: _ => .file content
  | .directory entries, [name] => .directory (entries.insert name new)
  | .directory entries, name :: rest =>
    match entries.get? name with
    | some node => .directory (entries.insert name (put new node rest))
    | none => .directory entries

theorem at?_append (node : Node) (p q : Place) :
    node.at? (p ++ q) = (node.at? p).bind (·.at? q) := by
  induction p generalizing node with
  | nil => rfl
  | cons name rest ih =>
    cases h : node.child? name with
    | none => simp [at?, h]
    | some next => simp [at?, h, ih]

theorem at?_put {new node : Node} {p : Place} {name : String}
    (h : ∃ entries, node.at? p = some (.directory entries)) :
    (put new node (p ++ [name])).at? (p ++ [name]) = some new := by
  induction p generalizing node with
  | nil =>
    obtain ⟨entries, he⟩ := h
    cases he
    simp [put, at?, child?, Keyed.get?_insert]
  | cons first rest ih =>
    obtain ⟨entries, he⟩ := h
    cases node with
    | file content => simp [at?, child?] at he
    | directory children =>
      cases hc : children.get? first with
      | none => simp [at?, child?, hc] at he
      | some next =>
        have below := @ih next ⟨entries, by simpa [at?, child?, hc] using he⟩
        cases rest with
        | nil =>
          simpa [put, hc, at?, child?, Keyed.get?_insert] using below
        | cons second more =>
          simpa [put, hc, at?, child?, Keyed.get?_insert] using below

mutual

/-- The files in a node with their places, the names on the way to the node being given backwards. -/
def filesBelow (back : Place) : Node → List (Place × List UInt8)
  | .file content => [(back.reverse, content)]
  | .directory ⟨pairs⟩ => filesAmong back pairs

def filesAmong (back : Place) : List (String × Node) → List (Place × List UInt8)
  | [] => []
  | (name, node) :: rest => filesBelow (name :: back) node ++ filesAmong back rest

end

end Node

end SchemaOverlay
