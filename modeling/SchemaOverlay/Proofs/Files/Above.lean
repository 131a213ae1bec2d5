import SchemaOverlay.Proofs.Files.Route

/-!
The directories above a path. The path of a file leads through all of them, so where there is a file, they
are there.
-/
namespace SchemaOverlay

namespace Path

@[simp] theorem joinSlash_nil : joinSlash [] = [] := rfl

@[simp] theorem joinSlash_singleton (piece : List Char) : joinSlash [piece] = piece := by
  simp [joinSlash, List.intercalate]

theorem joinSlash_cons_cons (piece next : List Char) (more : List (List Char)) :
    joinSlash (piece :: next :: more) = piece ++ '/' :: joinSlash (next :: more) := by
  simp [joinSlash, List.intercalate]

theorem joinSlash_splitSlash (cs : List Char) : joinSlash (splitSlash cs) = cs := by
  induction cs with
  | nil => rfl
  | cons c rest ih =>
    rw [splitSlash]
    by_cases slash : c = '/'
    · rw [if_pos slash]
      cases pieces : splitSlash rest with
      | nil => exact absurd pieces (splitSlash_ne_nil rest)
      | cons piece more =>
        rw [joinSlash_cons_cons, ← pieces, ih, slash, List.nil_append]
    · rw [if_neg slash]
      cases pieces : splitSlash rest with
      | nil => exact absurd pieces (splitSlash_ne_nil rest)
      | cons piece more =>
        rw [pieces] at ih
        cases more with
        | nil => rw [← ih, joinSlash_singleton, joinSlash_singleton]
        | cons next more => rw [← ih, joinSlash_cons_cons, joinSlash_cons_cons, List.cons_append]

theorem splitSlash_plain {piece : List Char} (plain : '/' ∉ piece) : splitSlash piece = [piece] := by
  induction piece with
  | nil => rfl
  | cons c rest ih =>
    rw [List.mem_cons, not_or] at plain
    rw [splitSlash, if_neg (Ne.symm plain.1), ih plain.2]

theorem plain_of_mem_splitSlash {cs piece : List Char} (member : piece ∈ splitSlash cs) :
    '/' ∉ piece := by
  induction cs generalizing piece with
  | nil =>
    obtain rfl := List.mem_singleton.mp member
    simp
  | cons c rest ih =>
    rw [splitSlash] at member
    by_cases slash : c = '/'
    · rw [if_pos slash] at member
      rcases List.mem_cons.mp member with rfl | later
      · simp
      · exact ih later
    · rw [if_neg slash] at member
      cases pieces : splitSlash rest with
      | nil => exact absurd pieces (splitSlash_ne_nil rest)
      | cons first more =>
        rw [pieces] at member ih
        rcases List.mem_cons.mp member with rfl | later
        · rw [List.mem_cons, not_or]
          exact ⟨Ne.symm slash, ih List.mem_cons_self⟩
        · exact ih (List.mem_cons_of_mem _ later)

theorem splitSlash_joinSlash {pieces : List (List Char)} (plain : ∀ piece ∈ pieces, '/' ∉ piece)
    (some : pieces ≠ []) : splitSlash (joinSlash pieces) = pieces := by
  induction pieces with
  | nil => exact absurd rfl some
  | cons piece more ih =>
    rw [List.forall_mem_cons] at plain
    cases more with
    | nil => rw [joinSlash_singleton, splitSlash_plain plain.1]
    | cons next more =>
      rw [joinSlash_cons_cons, splitSlash_append, splitSlash_plain plain.1,
        ih plain.2 (List.cons_ne_nil _ _), List.singleton_append]

theorem joinSlash_prefix (front more : List (List Char)) :
    joinSlash front <+: joinSlash (front ++ more) := by
  induction front with
  | nil => exact List.nil_prefix
  | cons piece front ih =>
    cases front with
    | nil =>
      cases more with
      | nil => exact List.prefix_rfl
      | cons next more =>
        rw [List.singleton_append, joinSlash_singleton, joinSlash_cons_cons]
        exact List.prefix_append _ _
    | cons next front =>
      rw [List.cons_append, List.cons_append, joinSlash_cons_cons, joinSlash_cons_cons,
        List.prefix_append_right_inj, List.prefix_cons_inj]
      exact ih

/-- The pieces of a text that lead anywhere. -/
def steps (cs : List Char) : List (List Char) := (splitSlash cs).filter (!isIdle ·)

theorem steps_slash (cs : List Char) : steps ('/' :: cs) = steps cs := by
  simp [steps, splitSlash, isIdle]

theorem steps_joinSlash {pieces : List (List Char)} (plain : ∀ piece ∈ pieces, '/' ∉ piece) :
    steps (joinSlash pieces) = pieces.filter (!isIdle ·) := by
  by_cases none : pieces = []
  · subst none
    rfl
  · rw [steps, splitSlash_joinSlash plain none]

theorem splitStart_cases (p : Path) :
    (p.splitStart = ([], p.text.toList)) ∨
    (∃ rest, p.text.toList = '/' :: rest ∧ p.splitStart = (['/'], rest)) ∨
    ∃ rest, p.text.toList = '.' :: rest ∧ p.splitStart = (['.'], rest) ∧ ∀ c ∈ rest.head?, c = '/' := by
  unfold splitStart isAbsolute
  dsimp only
  generalize p.text.toList = cs
  rcases cs with _ | ⟨c, rest⟩
  · exact Or.inl rfl
  · by_cases slash : c = '/'
    · subst slash
      exact Or.inr (Or.inl ⟨rest, rfl, by simp⟩)
    · by_cases dot : startsHere (c :: rest) = true
      · refine Or.inr (Or.inr ⟨rest, ?_⟩)
        unfold startsHere at dot
        split at dot
        · simp_all [startsHere]
        · simp_all [startsHere]
        · cases dot
      · exact Or.inl (by simp [slash, dot])

theorem steps_of_splitStart {p : Path} {start rest cs : List Char}
    (split : p.splitStart = (start, rest)) (front : cs <+: rest) : steps (start ++ cs) = steps cs := by
  rcases p.splitStart_cases with bare | ⟨below, _, root⟩ | ⟨below, _, dot, next⟩
  · obtain ⟨rfl, rfl⟩ := Prod.mk.inj (split.symm.trans bare)
    rfl
  · obtain ⟨rfl, rfl⟩ := Prod.mk.inj (split.symm.trans root)
    exact steps_slash cs
  · obtain ⟨rfl, rfl⟩ := Prod.mk.inj (split.symm.trans dot)
    cases cs with
    | nil => rfl
    | cons c cs =>
      obtain ⟨tail, rfl⟩ := front
      obtain rfl := next c rfl
      simp [steps, splitSlash, isIdle]

theorem text_of_splitStart {p : Path} {start rest : List Char}
    (split : p.splitStart = (start, rest)) : p.text.toList = start ++ rest := by
  rcases p.splitStart_cases with bare | ⟨below, text, root⟩ | ⟨below, text, dot, _⟩
  · obtain ⟨rfl, rfl⟩ := Prod.mk.inj (split.symm.trans bare)
    rfl
  · obtain ⟨rfl, rfl⟩ := Prod.mk.inj (split.symm.trans root)
    exact text
  · obtain ⟨rfl, rfl⟩ := Prod.mk.inj (split.symm.trans dot)
    exact text

theorem filter_dropIdle (reversed : List (List Char)) :
    ((dropIdle reversed).reverse).filter (!isIdle ·) = reversed.reverse.filter (!isIdle ·) := by
  induction reversed with
  | nil => rfl
  | cons piece more ih =>
    rw [dropIdle, List.dropWhile_cons]
    by_cases idle : isIdle piece = true
    · rw [if_pos idle, List.reverse_cons, List.filter_append, List.filter_singleton, idle]
      simpa [dropIdle] using ih
    · rw [if_neg idle]

theorem parent?_steps {p q : Path} (parent : p.parent? = some q) :
    q.text.toList <+: p.text.toList ∧ steps q.text.toList = (steps p.text.toList).dropLast := by
  rcases split : p.splitStart with ⟨start, rest⟩
  have text := text_of_splitStart split
  have whole : steps p.text.toList = (dropIdle (splitSlash rest).reverse).reverse.filter (!isIdle ·) := by
    rw [text, steps_of_splitStart split List.prefix_rfl, filter_dropIdle, List.reverse_reverse, steps]
  unfold parent? at parent
  simp only [split] at parent
  cases pieces : dropIdle (splitSlash rest).reverse with
  | nil =>
    rw [pieces] at parent whole
    dsimp only at parent
    by_cases dot : start = ['.']
    · rw [if_pos dot] at parent
      cases parent
      exact ⟨List.nil_prefix, by rw [whole]; rfl⟩
    · rw [if_neg dot] at parent
      cases parent
  | cons last more =>
    rw [pieces] at parent whole
    cases parent
    -- The pieces kept are the front of all pieces.
    obtain ⟨gap, outer⟩ : ∃ gap, more.reverse = (dropIdle more).reverse ++ gap :=
      ⟨(more.takeWhile isIdle).reverse, by
        rw [← List.reverse_append, dropIdle, List.takeWhile_append_dropWhile]⟩
    obtain ⟨tail, inner⟩ : ∃ tail, splitSlash rest = (last :: more).reverse ++ tail :=
      ⟨((splitSlash rest).reverse.takeWhile isIdle).reverse, by
        rw [← pieces, ← List.reverse_append, dropIdle, List.takeWhile_append_dropWhile,
          List.reverse_reverse]⟩
    have split' : splitSlash rest = (dropIdle more).reverse ++ (gap ++ [last] ++ tail) := by
      rw [inner, List.reverse_cons, outer]
      simp
    have front : joinSlash (dropIdle more).reverse <+: rest := by
      rw [← joinSlash_splitSlash rest, split']
      exact joinSlash_prefix _ _
    have plain : ∀ piece ∈ (dropIdle more).reverse, '/' ∉ piece := fun piece member =>
      plain_of_mem_splitSlash (split' ▸ List.mem_append_left _ member)
    have active : isIdle last = false := by
      have first := List.head?_dropWhile_not isIdle (splitSlash rest).reverse
      rwa [show (splitSlash rest).reverse.dropWhile isIdle = _ from pieces, List.head?_cons] at first
    rw [String.toList_ofList]
    constructor
    · rw [text, List.prefix_append_right_inj]
      exact front
    · rw [steps_of_splitStart split front, steps_joinSlash plain, filter_dropIdle, whole,
        List.reverse_cons, List.filter_append, List.filter_singleton, active]
      simp

/-- The path of a directory around another path. -/
inductive IsAbove : Path → Path → Prop
  | parent {p q : Path} (parent : p.parent? = some q) : IsAbove q p
  | further {p q r : Path} (above : IsAbove q p) (parent : q.parent? = some r) : IsAbove r p

theorem IsAbove.steps {p q : Path} (above : q.IsAbove p) :
    q.text.toList <+: p.text.toList ∧
      Path.steps q.text.toList <+: (Path.steps p.text.toList).dropLast := by
  induction above with
  | parent parent =>
    obtain ⟨text, steps⟩ := parent?_steps parent
    exact ⟨text, steps ▸ List.prefix_rfl⟩
  | further _ parent ih =>
    obtain ⟨text, steps⟩ := parent?_steps parent
    exact ⟨text.trans ih.1, steps ▸ (List.dropLast_prefix _).trans ih.2⟩

theorem isAbsolute_of_parent? {p q : Path} (parent : p.parent? = some q) (root : p.isAbsolute = true) :
    q.isAbsolute = true := by
  obtain ⟨rest, text⟩ := List.head?_eq_some_iff.mp (of_decide_eq_true root)
  have split : p.splitStart = (['/'], rest) := by
    simp [splitStart, root, text]
  unfold parent? at parent
  simp only [split] at parent
  split at parent
  · cases parent
    simp [isAbsolute]
  · cases parent

theorem IsAbove.isAbsolute {p q : Path} (above : q.IsAbove p) (root : p.isAbsolute = true) :
    q.isAbsolute = true := by
  induction above with
  | parent parent => exact isAbsolute_of_parent? parent root
  | further _ parent ih => exact isAbsolute_of_parent? parent (ih root)

def orDot (p : Path) : Path := if p.text = "" then ⟨"."⟩ else p

end Path

namespace FileSystem

open SchemaOverlay.Path

variable {fs : FileSystem} {p q : Path}

theorem check_eq_ok_iff : check p = .ok () ↔
    '\x00' ∉ p.text.toList ∧ p.text ≠ "" ∧ p.text.utf8ByteSize ≤ pathLimit := by
  unfold check
  by_cases zero : '\x00' ∈ p.text.toList
  · simp [zero]
  · by_cases nothing : p.text = ""
    · simp [nothing]
    · by_cases long : pathLimit < p.text.utf8ByteSize
      · simp [zero, nothing, long, Nat.not_le_of_lt long]
      · simp [zero, nothing, long, Nat.le_of_not_lt long]

theorem check_of_front (passed : check p = .ok ()) (front : q.text.toList <+: p.text.toList)
    (named : q.text ≠ "") : check q = .ok () := by
  obtain ⟨zero, _, short⟩ := check_eq_ok_iff.mp passed
  obtain ⟨tail, text⟩ := front
  have size : p.text.utf8ByteSize = q.text.utf8ByteSize + (String.ofList tail).utf8ByteSize := by
    rw [← String.utf8ByteSize_append]
    refine congrArg _ (String.toList_injective ?_)
    rw [String.toList_append, String.toList_ofList, text]
  refine check_eq_ok_iff.mpr ⟨fun inside => zero ?_, named, by omega⟩
  rw [← text]
  exact List.mem_append_left _ inside

theorem start_pieces (fs : FileSystem) (p : Path) :
    (fs.start p).2.filter (!isIdle ·) = steps p.text.toList ∧
      (fs.start p).1 = if p.text.toList.head? = some '/' then [] else fs.workingDirectory := by
  unfold start
  generalize p.text.toList = cs
  split
  · exact ⟨(steps_slash _).symm, rfl⟩
  · rename_i other
    refine ⟨rfl, (if_neg ?_).symm⟩
    intro slash
    obtain ⟨rest, rfl⟩ := List.head?_eq_some_iff.mp slash
    exact other rest rfl

theorem start_ne_nil (fs : FileSystem) (p : Path) : (fs.start p).2 ≠ [] := by
  unfold start
  split <;> exact splitSlash_ne_nil _

theorem start_of_front (fs : FileSystem) (front : q.text.toList <+: p.text.toList)
    (named : q.text ≠ "") : (fs.start q).1 = (fs.start p).1 := by
  rw [(start_pieces fs q).2, (start_pieces fs p).2]
  obtain ⟨tail, text⟩ := front
  cases chars : q.text.toList with
  | nil => exact absurd (String.toList_eq_nil_iff.mp chars) named
  | cons c rest => rw [← text, chars]; rfl

theorem spotOf_eq (passed : check p = .ok ()) :
    fs.spotOf p =
      fs.follow (fs.start p).1.reverse (fs.node? (fs.start p).1.reverse.reverse) (fs.start p).2 := by
  unfold spotOf
  rw [passed, ← followFrom_eq]
  rfl

theorem check_of_spotOf {spot : Spot} (reached : fs.spotOf p = .ok spot) : check p = .ok () := by
  unfold spotOf at reached
  cases passed : check p with
  | error f =>
    rw [passed] at reached
    cases reached
  | ok _ => rfl

theorem read_eq_ok_iff {content : List UInt8} : fs.read p = .ok content ↔
    ∃ place, fs.spotOf p = .ok ⟨place, some (.file content)⟩ := by
  unfold FileSystem.read find
  rcases fs.spotOf p with f | ⟨place, _ | ⟨other | entries⟩⟩ <;> simp [bind, Except.bind]

theorem isFile_of_read {content : List UInt8} (read : fs.read p = .ok content) :
    fs.isFile p = true := by
  obtain ⟨place, reached⟩ := read_eq_ok_iff.mp read
  unfold isFile find
  simp only [reached, bind, Except.bind]

theorem isDirectory_of_spotOf {spot : Spot} {entries : Keyed String Node}
    (reached : fs.spotOf p = .ok spot) (directory : spot.node = some (.directory entries)) :
    fs.isDirectory p = true := by
  unfold isDirectory find
  simp only [reached, bind, Except.bind, directory]

theorem isDirectory_named (is : fs.isFile p = true) (above : q.IsAbove p) (named : q.text ≠ "") :
    fs.isDirectory q = true := by
  obtain ⟨spot, content, reached, file⟩ := exists_file_of_isFile is
  obtain ⟨text, steps⟩ := above.steps
  have passed := check_of_spotOf reached
  rw [spotOf_eq passed] at reached
  have closed : fs.stands? spot.place ≠ some .directory := by
    rw [stands?_eq, ← node_of_follow reached, file]
    simp [Node.standing]
  obtain ⟨front, piece, around, entries, pieces, active, followed, directory, _, _⟩ :=
    exists_name_of_follow (start_ne_nil fs p) reached closed
  have outer : (Path.steps p.text.toList).dropLast = front.filter (!isIdle ·) := by
    rw [← (start_pieces fs p).1, pieces, List.filter_append, List.filter_singleton, active]
    simp
  rw [outer] at steps
  obtain ⟨rest, steps⟩ := steps
  -- The way to the directory is the first part of the way to the file.
  rw [← follow_active_iff directory, ← steps] at followed
  obtain ⟨mid, there, onwards⟩ := exists_mid_of_follow followed
  obtain ⟨entries', directory'⟩ := exists_entries_of_follow onwards directory
  rw [← (start_pieces fs q).1, follow_active_iff directory', ← start_of_front fs text named] at there
  refine isDirectory_of_spotOf ?_ directory'
  rw [spotOf_eq (check_of_front passed text named)]
  exact there

theorem isDirectory_dot (is : fs.isFile p = true) (relative : p.isAbsolute = false) :
    fs.isDirectory ⟨"."⟩ = true := by
  obtain ⟨spot, content, reached, file⟩ := exists_file_of_isFile is
  have here : (fs.start p).1 = fs.workingDirectory :=
    (start_pieces fs p).2.trans (if_neg (of_decide_eq_false relative))
  rw [spotOf_eq (check_of_spotOf reached), here] at reached
  obtain ⟨piece, more, pieces⟩ := List.exists_cons_of_ne_nil (start_ne_nil fs p)
  rw [pieces] at reached
  obtain ⟨entries, _, there, _⟩ := exists_turn_of_follow reached
  have dot : fs.spotOf ⟨"."⟩ =
      .ok ⟨fs.workingDirectory.reverse.reverse, some (.directory entries)⟩ := by
    rw [spotOf_eq rfl]
    change fs.follow _ (fs.node? fs.workingDirectory.reverse.reverse) [['.']] = _
    rw [there]
    rfl
  exact isDirectory_of_spotOf dot rfl

/-- Every directory above a file is there. -/
theorem isDirectory_of_isAbove (is : fs.isFile p = true) (above : q.IsAbove p) :
    fs.isDirectory q.orDot = true := by
  unfold orDot
  split
  · rename_i nothing
    refine isDirectory_dot is (Bool.eq_false_iff.mpr fun root => ?_)
    have := above.isAbsolute root
    simp [isAbsolute, nothing] at this
  · rename_i named
    exact isDirectory_named is above named

end FileSystem

end SchemaOverlay
