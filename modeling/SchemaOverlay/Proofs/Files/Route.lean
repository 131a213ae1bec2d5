import SchemaOverlay.Proofs.Files.FileSystem
import SchemaOverlay.Proofs.Files.Tree

/-!
Where the pieces of a path lead. Only the names and the dots that lead up count; every piece but the last
leads to a directory, and as long as no directory goes away a path leads to the same place.
-/
namespace SchemaOverlay.FileSystem

open SchemaOverlay.Path

variable {fs fs' : FileSystem} {back : List String} {here : Option Node} {spot : Spot}

def stands? (fs : FileSystem) (place : Place) : Option Standing := fs.root.stands? place

theorem stands?_eq (fs : FileSystem) (place : Place) :
    fs.stands? place = (fs.node? place).map Node.standing := rfl

theorem stands?_of_node? {place : Place} {node : Node} (there : fs.node? place = some node) :
    fs.stands? place = some node.standing := by
  rw [stands?_eq, there]
  rfl

theorem exists_directory {place : Place} (there : fs.stands? place = some .directory) :
    ∃ entries, fs.node? place = some (.directory entries) := by
  rw [stands?_eq] at there
  cases found : fs.node? place with
  | none => simp [found] at there
  | some node =>
    cases node with
    | file content => simp [found, Node.standing] at there
    | directory entries => exact ⟨entries, rfl⟩

theorem node?_child {place : Place} {entries : Keyed String Node}
    (there : fs.node? place = some (.directory entries)) (name : String) :
    fs.node? (place ++ [name]) = entries.get? name := by
  rw [node?, Node.at?_append, show fs.root.at? place = _ from there]
  simp [Node.at?, Node.child?]

theorem stands?_of_child {place : Place} {name : String} {node : Node}
    (there : fs.node? (place ++ [name]) = some node) : fs.stands? place = some .directory := by
  rw [node?, Node.at?_append] at there
  obtain ⟨around, found, below⟩ := Option.bind_eq_some_iff.mp there
  rw [stands?_of_node? found]
  cases around with
  | file content => simp [Node.at?, Node.child?] at below
  | directory entries => rfl

theorem followFrom_eq (fs : FileSystem) (place : Place) (pieces : List (List Char)) :
    fs.followFrom place pieces =
      fs.follow place.reverse (fs.node? place.reverse.reverse) pieces := by
  rw [followFrom, List.reverse_reverse]

def turn (fs : FileSystem) (back : List String) (entries : Keyed String Node) (piece : List Char) :
    Except FileFault (List String × Option Node) :=
  if isIdle piece then .ok (back, some (.directory entries))
  else if piece = ['.', '.'] then .ok (back.tail, fs.node? back.tail.reverse)
  else if nameLimit < (String.ofList piece).utf8ByteSize then .error .nameTooLong
  else .ok (String.ofList piece :: back, entries.get? (String.ofList piece))

theorem follow_cons (fs : FileSystem) (back : List String) (entries : Keyed String Node)
    (piece : List Char) (more : List (List Char)) :
    fs.follow back (some (.directory entries)) (piece :: more) =
      fs.turn back entries piece >>= fun next => fs.follow next.1 next.2 more := by
  rw [follow, turn]
  split
  · rfl
  · split
    · rfl
    · dsimp only
      split <;> rfl

theorem turn_cases {entries : Keyed String Node} {piece : List Char}
    {next : List String × Option Node} (done : fs.turn back entries piece = .ok next) :
    (isIdle piece = true ∧ next = (back, some (.directory entries))) ∨
    (isIdle piece = false ∧ piece = ['.', '.'] ∧
      next = (back.tail, fs.node? back.tail.reverse)) ∨
    (isIdle piece = false ∧ piece ≠ ['.', '.'] ∧
      (String.ofList piece).utf8ByteSize ≤ nameLimit ∧
      next = (String.ofList piece :: back, entries.get? (String.ofList piece))) := by
  unfold turn at done
  by_cases idle : isIdle piece = true
  · rw [if_pos idle] at done
    exact Or.inl ⟨idle, (Except.ok.inj done).symm⟩
  · rw [if_neg idle] at done
    rw [Bool.not_eq_true] at idle
    by_cases up : piece = ['.', '.']
    · rw [if_pos up] at done
      exact Or.inr (Or.inl ⟨idle, up, (Except.ok.inj done).symm⟩)
    · rw [if_neg up] at done
      by_cases long : nameLimit < (String.ofList piece).utf8ByteSize
      · rw [if_pos long] at done
        cases done
      · rw [if_neg long] at done
        exact Or.inr (Or.inr ⟨idle, up, Nat.le_of_not_lt long, (Except.ok.inj done).symm⟩)

theorem exists_turn_of_follow {piece : List Char} {more : List (List Char)}
    (done : fs.follow back here (piece :: more) = .ok spot) :
    ∃ entries next, here = some (.directory entries) ∧ fs.turn back entries piece = .ok next ∧
      fs.follow next.1 next.2 more = .ok spot := by
  rcases here with _ | ⟨content | entries⟩
  · cases done
  · cases done
  · rw [follow_cons] at done
    cases turned : fs.turn back entries piece with
    | error f =>
      rw [turned] at done
      cases done
    | ok next =>
      rw [turned] at done
      exact ⟨entries, next, rfl, turned, done⟩

theorem follow_append (fs : FileSystem) (back : List String) (here : Option Node)
    (pieces more : List (List Char)) :
    fs.follow back here (pieces ++ more) =
      fs.follow back here pieces >>= fun spot => fs.follow spot.place.reverse spot.node more := by
  induction pieces generalizing back here with
  | nil =>
    change _ = fs.follow back.reverse.reverse here more
    rw [List.reverse_reverse, List.nil_append]
  | cons piece rest ih =>
    rcases here with _ | ⟨content | entries⟩
    · rfl
    · rfl
    · rw [List.cons_append, follow_cons, follow_cons, bind_assoc]
      simp only [ih]

theorem exists_mid_of_follow {pieces more : List (List Char)}
    (done : fs.follow back here (pieces ++ more) = .ok spot) :
    ∃ mid, fs.follow back here pieces = .ok mid ∧
      fs.follow mid.place.reverse mid.node more = .ok spot := by
  rw [follow_append] at done
  cases reached : fs.follow back here pieces with
  | error f =>
    rw [reached] at done
    cases done
  | ok mid =>
    rw [reached] at done
    exact ⟨mid, rfl, done⟩

/-- As long as every directory is still there, a path leads to the same place. -/
theorem follow_of_kept
    (kept : ∀ place, fs.stands? place = some .directory → fs'.stands? place = some .directory)
    {pieces : List (List Char)} (done : fs.follow back (fs.node? back.reverse) pieces = .ok spot) :
    fs'.follow back (fs'.node? back.reverse) pieces = .ok ⟨spot.place, fs'.node? spot.place⟩ := by
  induction pieces generalizing back with
  | nil =>
    cases done
    rfl
  | cons piece more ih =>
    obtain ⟨entries, next, there, turned, rest⟩ := exists_turn_of_follow done
    obtain ⟨entries', there'⟩ := exists_directory (kept _ (stands?_of_node? there))
    rw [there', follow_cons, turn]
    rcases turn_cases turned with ⟨idle, rfl⟩ | ⟨idle, up, rfl⟩ | ⟨idle, up, short, rfl⟩
    · rw [if_pos idle, ← there']
      exact ih (there ▸ rest)
    · rw [if_neg (by simp [idle]), if_pos up]
      exact ih rest
    · rw [if_neg (by simp [idle]), if_neg up, if_neg (Nat.not_lt_of_le short),
        ← node?_child there', ← List.reverse_cons]
      rw [← node?_child there, ← List.reverse_cons] at rest
      exact ih rest

theorem node_of_follow {pieces : List (List Char)}
    (done : fs.follow back (fs.node? back.reverse) pieces = .ok spot) :
    spot.node = fs.node? spot.place := by
  have again := follow_of_kept (fun _ there => there) done
  rw [done] at again
  exact congrArg Spot.node (Except.ok.inj again)

theorem exists_entries_of_follow {pieces : List (List Char)} {entries : Keyed String Node}
    (done : fs.follow back here pieces = .ok spot) (directory : spot.node = some (.directory entries)) :
    ∃ entries, here = some (.directory entries) := by
  cases pieces with
  | nil =>
    cases done
    exact ⟨entries, directory⟩
  | cons piece more =>
    obtain ⟨entries, _, there, _⟩ := exists_turn_of_follow done
    exact ⟨entries, there⟩

theorem follow_active_iff {pieces : List (List Char)} {entries : Keyed String Node}
    (directory : spot.node = some (.directory entries)) :
    fs.follow back here (pieces.filter (!isIdle ·)) = .ok spot ↔
      fs.follow back here pieces = .ok spot := by
  induction pieces generalizing back here with
  | nil => rfl
  | cons piece more ih =>
    by_cases idle : isIdle piece = true
    · have skip (entries : Keyed String Node) :
          fs.follow back (some (.directory entries)) (piece :: more) =
            fs.follow back (some (.directory entries)) more := by rw [follow, if_pos idle]
      rw [List.filter_cons_of_neg (by simp [idle]), ih]
      constructor
      · intro done
        obtain ⟨entries, rfl⟩ := exists_entries_of_follow done directory
        rw [skip, done]
      · intro done
        obtain ⟨entries, rfl⟩ := exists_entries_of_follow done directory
        rw [← skip, done]
    · rw [List.filter_cons_of_pos (by simp [idle])]
      rcases here with _ | ⟨content | entries⟩
      · rfl
      · rfl
      · rw [follow_cons, follow_cons]
        cases fs.turn back entries piece with
        | error f => rfl
        | ok next => exact ih

theorem exists_name_of_follow {pieces : List (List Char)} (more : pieces ≠ [])
    (done : fs.follow back (fs.node? back.reverse) pieces = .ok spot)
    (closed : fs.stands? spot.place ≠ some .directory) :
    ∃ front piece around entries, pieces = front ++ [piece] ∧ isIdle piece = false ∧
      fs.follow back (fs.node? back.reverse) front = .ok around ∧
      around.node = some (.directory entries) ∧ around.node = fs.node? around.place ∧
      spot.place = around.place ++ [String.ofList piece] := by
  obtain ⟨front, piece, rfl⟩ := (List.eq_nil_or_concat' pieces).resolve_left more
  obtain ⟨around, reached, last⟩ := exists_mid_of_follow done
  obtain ⟨entries, next, there, turned, ended⟩ := exists_turn_of_follow last
  have known := node_of_follow reached
  have standing := stands?_of_node? (known.symm.trans there)
  cases ended
  rcases turn_cases turned with ⟨idle, rfl⟩ | ⟨idle, up, rfl⟩ | ⟨idle, up, short, rfl⟩
  · rw [List.reverse_reverse] at closed
    exact absurd standing closed
  · refine absurd ?_ closed
    -- What is around a directory is one, and so is the root.
    rcases List.eq_nil_or_concat' around.place with root | ⟨outer, name, place⟩
    · rw [root] at standing ⊢
      exact standing
    · rw [place, List.reverse_concat, List.tail_cons, List.reverse_reverse]
      rw [place] at known
      exact stands?_of_child (known.symm.trans there)
  · exact ⟨front, piece, around, entries, rfl, idle, reached, there, known, by simp⟩

end SchemaOverlay.FileSystem
