import SchemaOverlay.Files.FileSystem
import Mathlib.Data.List.Basic

/-!
What paths can name. A path that ends in a slash leads to a directory or nowhere, so a directory with
nothing behind it is no path of a file.
-/
namespace SchemaOverlay

namespace Path

theorem splitSlash_ne_nil (cs : List Char) : splitSlash cs ≠ [] := by
  cases cs with
  | nil => simp [splitSlash]
  | cons c rest =>
    rw [splitSlash]
    split
    · simp
    · split <;> simp

theorem splitSlash_append (cs ds : List Char) :
    splitSlash (cs ++ '/' :: ds) = splitSlash cs ++ splitSlash ds := by
  induction cs with
  | nil => simp [splitSlash]
  | cons c rest ih =>
    rw [List.cons_append, splitSlash, splitSlash, ih]
    by_cases slash : c = '/'
    · rw [if_pos slash, if_pos slash, List.cons_append]
    · rw [if_neg slash, if_neg slash]
      cases pieces : splitSlash rest with
      | nil => exact absurd pieces (splitSlash_ne_nil rest)
      | cons piece more => rfl

theorem splitSlash_append_slash (cs : List Char) :
    splitSlash (cs ++ ['/']) = splitSlash cs ++ [[]] :=
  splitSlash_append cs []

theorem join_empty (q : Path) : join ⟨""⟩ q = q := by
  simp [join]

end Path

namespace FileSystem

variable {files : FileSystem}

theorem not_file_of_follow {back : List String} {here : Option Node} {pieces : List (List Char)}
    {spot : Spot} (done : files.follow back here (pieces ++ [[]]) = .ok spot)
    (content : List UInt8) : spot.node ≠ some (.file content) := by
  induction pieces generalizing back here with
  | nil =>
    cases here with
    | none => simp [follow] at done
    | some node =>
      cases node with
      | file content => simp [follow] at done
      | directory entries =>
        simp only [List.nil_append, follow, Path.isIdle, List.isEmpty_nil, Bool.true_or,
          ↓reduceIte, Except.ok.injEq] at done
        subst done
        simp
  | cons piece rest ih =>
    cases here with
    | none => simp [follow] at done
    | some node =>
      cases node with
      | file content => simp [follow] at done
      | directory entries =>
        rw [List.cons_append, follow] at done
        split at done
        · exact ih done
        · split at done
          · exact ih done
          · dsimp only at done
            split at done
            · cases done
            · exact ih done

theorem exists_file_of_isFile {p : Path} (is : files.isFile p = true) :
    ∃ spot content, files.spotOf p = .ok spot ∧ spot.node = some (.file content) := by
  unfold isFile at is
  split at is
  · rename_i content found
    unfold find at found
    cases reached : files.spotOf p with
    | error f => rw [reached] at found; cases found
    | ok spot =>
      rw [reached] at found
      refine ⟨spot, content, rfl, ?_⟩
      cases there : spot.node with
      | none => simp [bind, Except.bind, there] at found
      | some node =>
        simp only [bind, Except.bind, there, Except.ok.injEq] at found
        rw [found]
  · cases is

theorem start_of_slash (files : FileSystem) {p : Path} (slash : endsWithSlash p = true) :
    ∃ front, (files.start p).2 = front ++ [[]] := by
  have last : p.text.toList.getLast? = some '/' := of_decide_eq_true slash
  unfold start
  split
  · rename_i rest text
    rw [text] at last
    rcases List.eq_nil_or_concat' rest with rfl | ⟨front, c, rfl⟩
    · exact ⟨[], rfl⟩
    · rw [← List.cons_append, List.getLast?_concat] at last
      cases last
      exact ⟨_, Path.splitSlash_append_slash front⟩
  · rename_i cs _
    obtain ⟨front, text⟩ := List.getLast?_eq_some_iff.mp last
    exact ⟨_, (congrArg Path.splitSlash text).trans (Path.splitSlash_append_slash front)⟩

theorem isFile_of_slash {p : Path} (slash : endsWithSlash p = true) : files.isFile p = false := by
  rw [← Bool.not_eq_true]
  intro is
  obtain ⟨spot, content, reached, there⟩ := exists_file_of_isFile is
  obtain ⟨front, pieces⟩ := start_of_slash files slash
  unfold spotOf followFrom at reached
  cases checked : check p with
  | error f => rw [checked] at reached; cases reached
  | ok _ =>
    rw [checked] at reached
    have followed : files.follow (files.start p).1.reverse (files.node? (files.start p).1)
        (front ++ [[]]) = .ok spot := by rw [← pieces]; exact reached
    exact not_file_of_follow followed content there

theorem isFile_empty : files.isFile ⟨""⟩ = false := rfl

theorem isFile_join_nothing (base : Path) : files.isFile (base.join ⟨""⟩) = false := by
  unfold Path.join
  split
  · exact isFile_empty
  · split
    · rename_i slash
      apply isFile_of_slash
      simpa [endsWithSlash] using slash
    · apply isFile_of_slash
      simp [endsWithSlash]

end FileSystem

end SchemaOverlay
