import SchemaOverlay.Config.Jobs
import SchemaOverlay.Proofs.Files.FileSystem
import SchemaOverlay.Proofs.Job

/-!
What the texts of a configuration stand for. A text that names a file seen from the directory of the
configuration is the path of that file. But a text of several lines is not looked for there, and one
that names nothing there is looked for in the working directory before it is taken for a schema.
-/
namespace SchemaOverlay

open World

theorem Text.mem_of_mem_trim {c : Char} {text : String} (member : c ∈ (trim text).toList) :
    c ∈ text.toList := by
  rw [trim, String.toList_ofList, trimChars, List.mem_reverse] at member
  have inner := (List.dropWhile_sublist _).subset member
  exact (List.dropWhile_sublist _).subset (List.mem_reverse.mp inner)

namespace Input

/-- The path of the file that a text names seen from a directory, if it names one: white space
around the name does not count, and a name is of one line. -/
def namedFile? (files : FileSystem) (base : Path) (text : String) : Option Path :=
  let name := Text.trim text
  if name ≠ "" ∧ '\n' ∉ name.toList ∧ files.isFile (base.join ⟨name⟩) = true then
    some (base.join ⟨name⟩)
  else none

def seenFrom (files : FileSystem) (base : Path) (text : String) : Input :=
  match namedFile? files base text with
  | some p => .path p
  | none => .sdl text

theorem namedFile?_eq_some_iff {files : FileSystem} {base p : Path} {text : String} :
    namedFile? files base text = some p ↔ (Text.trim text ≠ "" ∧ '\n' ∉ (Text.trim text).toList) ∧
      files.isFile (base.join ⟨Text.trim text⟩) = true ∧ p = base.join ⟨Text.trim text⟩ := by
  unfold namedFile?
  by_cases names : Text.trim text ≠ "" ∧ '\n' ∉ (Text.trim text).toList ∧
      files.isFile (base.join ⟨Text.trim text⟩) = true
  · rw [if_pos names, Option.some.injEq, eq_comm]
    exact ⟨fun same => ⟨⟨names.1, names.2.1⟩, names.2.2, same⟩, fun all => all.2.2⟩
  · rw [if_neg names]
    constructor
    · rintro ⟨⟩
    · rintro ⟨⟨some, line⟩, is, -⟩
      exact absurd ⟨some, line, is⟩ names

theorem namedFile?_eq_none {files : FileSystem} {base : Path} {text : String}
    (nameless : Text.trim text = "" ∨ '\n' ∈ (Text.trim text).toList ∨
      files.isFile (base.join ⟨Text.trim text⟩) = false) :
    namedFile? files base text = none := by
  refine if_neg ?_
  rintro ⟨some, line, is⟩
  rcases nameless with nothing | lines | absent
  · exact some nothing
  · exact line lines
  · exact absurd (is.symm.trans absent) (by decide)

theorem answer_infer (files : FileSystem) (text : String) :
    answer (infer text) files = seenFrom files ⟨""⟩ text := by
  unfold infer
  dsimp only
  by_cases nameless :
      ((Text.trim text).isEmpty || (Text.trim text).toList.contains '\n') = true
  · have none : namedFile? files ⟨""⟩ text = none := by
      rw [Bool.or_eq_true, String.isEmpty_iff, List.contains_iff_mem] at nameless
      exact namedFile?_eq_none (nameless.imp_right Or.inl)
    rw [if_pos nameless, seenFrom, none]
    rfl
  · rw [if_neg nameless, (onlyLooks_isFile _).answer_bind, answer_isFile]
    rw [Bool.or_eq_true, String.isEmpty_iff, List.contains_iff_mem, not_or] at nameless
    have here : Path.join ⟨""⟩ ⟨Text.trim text⟩ = ⟨Text.trim text⟩ := Path.join_empty _
    cases is : files.isFile ⟨Text.trim text⟩ with
    | true =>
      have named : namedFile? files ⟨""⟩ text = some ⟨Text.trim text⟩ :=
        namedFile?_eq_some_iff.mpr ⟨nameless, by rw [here, is], here.symm⟩
      rw [seenFrom, named]
      rfl
    | false =>
      have none : namedFile? files ⟨""⟩ text = none :=
        namedFile?_eq_none (Or.inr (Or.inr (by rw [here, is])))
      rw [seenFrom, none]
      rfl

end Input

namespace Config

def inputAt (files : FileSystem) (base : Path) (text : String) : Input :=
  if '\n' ∈ text.toList then Input.seenFrom files ⟨""⟩ text
  else
    match Input.namedFile? files base text with
    | some p => .path p
    | none => Input.seenFrom files ⟨""⟩ text

theorem onlyLooks_jobInput (base : Path) (text : String) : OnlyLooks (jobInput base text) := by
  unfold jobInput
  apply OnlyLooks.ite (Input.onlyLooks_infer text)
  refine (onlyLooks_isFile _).bind fun there => ?_
  exact OnlyLooks.ite (onlyLooks_pure _) (Input.onlyLooks_infer text)

theorem answer_jobInput (files : FileSystem) (base : Path) (text : String) :
    answer (jobInput base text) files = inputAt files base text := by
  unfold jobInput inputAt
  dsimp only
  by_cases lines : '\n' ∈ text.toList
  · rw [if_pos lines, if_pos (List.contains_iff_mem.mpr lines), Input.answer_infer]
  · rw [if_neg lines, if_neg (mt List.contains_iff_mem.mp lines),
      (onlyLooks_isFile _).answer_bind, answer_isFile]
    cases is : files.isFile (base.join ⟨Text.trim text⟩) with
    | true =>
      -- A directory with nothing behind it is no file, so there is a name.
      have some : Text.trim text ≠ "" := by
        intro nothing
        rw [nothing, FileSystem.isFile_join_nothing] at is
        cases is
      have line : '\n' ∉ (Text.trim text).toList := fun member => lines (Text.mem_of_mem_trim member)
      rw [Input.namedFile?_eq_some_iff.mpr ⟨⟨some, line⟩, is, rfl⟩]
      rfl
    | false =>
      rw [Input.namedFile?_eq_none (Or.inr (Or.inr is)), if_neg (by decide)]
      exact Input.answer_infer files text

end Config

namespace Input

variable {files files' : FileSystem} {base : Path} {text : String}

/-- Looking beyond the directory of the configuration makes no difference to the text: if it names a
file from there, it is of one line or names the same path on its own, and if it names none from
there, it names none from the working directory either. -/
def IsSettled (files : FileSystem) (base : Path) (text : String) : Prop :=
  (∀ p, namedFile? files base text = some p → '\n' ∉ text.toList ∨ p = ⟨Text.trim text⟩) ∧
  (namedFile? files base text = none → namedFile? files ⟨""⟩ text = none)

theorem IsSettled.of_named {p : Path} (line : '\n' ∉ text.toList)
    (named : namedFile? files base text = some p) : IsSettled files base text := by
  refine ⟨fun _ _ => Or.inl line, ?_⟩
  rw [named]
  nofun

theorem namedFile?_alone_eq_some_iff {p : Path} :
    namedFile? files ⟨""⟩ text = some p ↔ (Text.trim text ≠ "" ∧ '\n' ∉ (Text.trim text).toList) ∧
      files.isFile p = true ∧ p = ⟨Text.trim text⟩ := by
  rw [namedFile?_eq_some_iff, Path.join_empty]
  refine and_congr_right fun _ => and_congr_left ?_
  rintro rfl
  rfl

theorem seenFrom_eq_path_iff {p : Path} :
    seenFrom files base text = .path p ↔ namedFile? files base text = some p := by
  unfold seenFrom
  cases namedFile? files base text <;> simp

theorem seenFrom_eq_sdl_iff :
    seenFrom files base text = .sdl text ↔ namedFile? files base text = none := by
  unfold seenFrom
  cases namedFile? files base text <;> simp

theorem inputAt_of_lines (lines : '\n' ∈ text.toList) :
    Config.inputAt files base text = seenFrom files ⟨""⟩ text :=
  if_pos lines

theorem inputAt_of_named {p : Path} (line : '\n' ∉ text.toList)
    (named : namedFile? files base text = some p) : Config.inputAt files base text = .path p := by
  rw [Config.inputAt, if_neg line, named]

theorem inputAt_of_nameless (nameless : namedFile? files base text = none) :
    Config.inputAt files base text = seenFrom files ⟨""⟩ text := by
  rw [Config.inputAt, nameless, ite_self]

theorem inputAt_eq_sdl (nameless : namedFile? files base text = none)
    (alone : namedFile? files ⟨""⟩ text = none) : Config.inputAt files base text = .sdl text :=
  (inputAt_of_nameless nameless).trans (seenFrom_eq_sdl_iff.mpr alone)

theorem inputAt_eq_seenFrom_iff :
    Config.inputAt files base text = seenFrom files base text ↔ IsSettled files base text := by
  unfold IsSettled
  cases named : namedFile? files base text with
  | none =>
    rw [inputAt_of_nameless named, seenFrom_eq_sdl_iff.mpr named, seenFrom_eq_sdl_iff]
    exact ⟨fun alone => ⟨nofun, fun _ => alone⟩, fun settled => settled.2 rfl⟩
  | some p =>
    rw [seenFrom_eq_path_iff.mpr named]
    by_cases lines : '\n' ∈ text.toList
    · obtain ⟨oneLine, is, place⟩ := namedFile?_eq_some_iff.mp named
      rw [inputAt_of_lines lines, seenFrom_eq_path_iff, namedFile?_alone_eq_some_iff]
      constructor
      · rintro ⟨-, -, alone⟩
        refine ⟨?_, nofun⟩
        rintro q ⟨⟩
        exact Or.inr alone
      · rintro ⟨found, -⟩
        refine ⟨oneLine, by rw [place, is], ?_⟩
        exact (found p rfl).resolve_left (not_not_intro lines)
    · exact ⟨fun _ => ⟨fun _ _ => Or.inl lines, nofun⟩, fun _ => inputAt_of_named lines named⟩

/-- A settled text is taken as it is seen from the directory of the configuration. Any other is taken
as it is seen from the working directory, and from there it is another input. -/
structure IsTaken (files : FileSystem) (base : Path) (text : String) (input : Input) : Prop where
  settled (is : IsSettled files base text) : input = seenFrom files base text
  unsettled (isNot : ¬ IsSettled files base text) :
    input = seenFrom files ⟨""⟩ text ∧ input ≠ seenFrom files base text

theorem isTaken_inputAt (files : FileSystem) (base : Path) (text : String) :
    IsTaken files base text (Config.inputAt files base text) where
  settled := inputAt_eq_seenFrom_iff.mpr
  unsettled isNot := by
    refine ⟨?_, mt inputAt_eq_seenFrom_iff.mp isNot⟩
    by_cases lines : '\n' ∈ text.toList
    · exact inputAt_of_lines lines
    · cases named : namedFile? files base text with
      | none => exact inputAt_of_nameless named
      | some p => exact absurd (IsSettled.of_named lines named) isNot

theorem namedFile?_congr
    (same : files'.isFile (base.join ⟨Text.trim text⟩) = files.isFile (base.join ⟨Text.trim text⟩)) :
    namedFile? files' base text = namedFile? files base text := by
  simp only [namedFile?, same]

/-- Two file systems are alike to a text if the same names stand for files in both: the one seen from
the directory of the configuration and, where it has a say, the one on its own. -/
structure IsAlike (files files' : FileSystem) (base : Path) (text : String) : Prop where
  seen : files'.isFile (base.join ⟨Text.trim text⟩) = files.isFile (base.join ⟨Text.trim text⟩)
  alone : (IsSettled files base text ∧ IsSettled files' base text) ∨
    files'.isFile ⟨Text.trim text⟩ = files.isFile ⟨Text.trim text⟩

theorem inputAt_congr (alike : IsAlike files files' base text) :
    Config.inputAt files' base text = Config.inputAt files base text := by
  have named := namedFile?_congr alike.seen
  rcases alike.alone with ⟨settled, settled'⟩ | same
  · rw [inputAt_eq_seenFrom_iff.mpr settled, inputAt_eq_seenFrom_iff.mpr settled', seenFrom,
      seenFrom, named]
  · have alone : namedFile? files' ⟨""⟩ text = namedFile? files ⟨""⟩ text :=
      namedFile?_congr (by rw [Path.join_empty, same])
    unfold Config.inputAt seenFrom
    rw [named, alone]

end Input

end SchemaOverlay
