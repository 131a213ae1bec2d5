import SchemaOverlay.Proofs.Files.Change
import SchemaOverlay.Proofs.Job

/-!
What a job does to the files. Nothing is touched before the merge has succeeded; a job that succeeds leaves
the printed document at its output, with the directories above it, and no other file is changed; and a job
that fails later on changes no file at all.
-/
namespace SchemaOverlay

open World

namespace FileSystem

def makeRoom (fs : FileSystem) (output : Path) : FileSystem × Except FileFault Unit :=
  match output.parent? with
  | none => (fs, .ok ())
  | some directory =>
    if directory.text.isEmpty then (fs, .ok ())
    else if fs.isDirectory directory then (fs, .ok ())
    else fs.makeDirectories directory

theorem grows_makeRoom (fs : FileSystem) (output : Path) : Grows fs (fs.makeRoom output).1 := by
  unfold makeRoom
  split
  · exact .refl fs
  · split
    · exact .refl fs
    · split
      · exact .refl fs
      · exact grows_makeDirectories fs _

/-- The same files with the same contents. -/
def SameFiles (fs fs' : FileSystem) : Prop := ∀ place content,
  fs'.stands? place = some (.file content) ↔ fs.stands? place = some (.file content)

/-- A file was put at a path, and nothing else happened but that directories were created. -/
structure Saved (fs : FileSystem) (p : Path) (content : List UInt8) (fs' : FileSystem) : Prop where
  read : fs'.read p = .ok content
  above : ∀ q : Path, q.IsAbove p → fs'.isDirectory q.orDot = true
  others : ∃ place, fs'.spotOf p = .ok ⟨place, some (.file content)⟩ ∧ ∀ other, other ≠ place →
    ∀ content, fs'.stands? other = some (.file content) ↔ fs.stands? other = some (.file content)
  directories : ∀ place, fs.stands? place = some .directory → fs'.stands? place = some .directory

variable {fs around fs' : FileSystem} {p : Path} {content : List UInt8}

theorem Saved.of_written {place : Place} (grows : Grows fs around)
    (written : Written around p content fs' place) : Saved fs p content fs' where
  read := read_eq_ok_iff.mpr ⟨place, written.reached⟩
  above _ := isDirectory_of_isAbove (isFile_of_read (read_eq_ok_iff.mpr ⟨place, written.reached⟩))
  others := ⟨place, written.reached, fun other apart content => by
    rw [written.others other apart, grows.file_iff]⟩
  directories other there := by
    have directory := grows.directory there
    rw [written.others other, directory]
    rintro rfl
    exact written.closed directory

end FileSystem

namespace Job

open FileSystem

theorem comesTo_prepareDirectory (output : Path) (w : World) :
    ComesTo (prepareDirectory output) w
      ((w.files.makeRoom output).2.mapError fun f =>
        .makeDirectories (output.parent?.getD output) f.system, (w.files.makeRoom output).1) := by
  unfold prepareDirectory missingDirectory makeRoom
  cases output.parent? with
  | none => exact comesTo_pure _ w
  | some directory =>
    dsimp only
    by_cases nothing : directory.text.isEmpty = true
    · rw [if_pos nothing, if_pos nothing]
      exact comesTo_pure _ w
    · rw [if_neg nothing, if_neg nothing, bind_assoc]
      refine ((onlyLooks_isDirectory directory).comesTo w).bind fun told => ?_
      rw [answer_isDirectory]
      by_cases there : w.files.isDirectory directory = true
      · rw [if_pos there, if_pos there]
        exact comesTo_pure _ ⟨w.files, told⟩
      · rw [if_neg there, if_neg there, pure_bind]
        refine ((onlyReads_tell _).comesTo _).bind fun told => ?_
        refine (comesTo_makeDirectories _ _).bind fun told' => ?_
        rcases w.files.makeDirectories directory with ⟨around, f | ⟨⟩⟩
        · exact comesTo_pure _ ⟨around, told'⟩
        · exact comesTo_pure _ ⟨around, told'⟩

def saving (job : Job) (doc : Sdl.Document) (files : FileSystem) :
    Except JobError Unit × FileSystem :=
  match files.makeRoom job.output with
  | (around, .error f) =>
    (.error (.makeDirectories (job.output.parent?.getD job.output) f.system), around)
  | (around, .ok ()) =>
    match around.write job.output (Text.encodeUtf8 doc.print) with
    | .error f => (.error (.write job.output f.system), around)
    | .ok after => (.ok (), after)

theorem comesTo_save (job : Job) (doc : Sdl.Document) (w : World) :
    ComesTo (job.save doc) w (job.saving doc w.files) := by
  unfold save saving
  refine (comesTo_prepareDirectory job.output w).bind fun told => ?_
  rcases w.files.makeRoom job.output with ⟨around, f | ⟨⟩⟩
  · exact comesTo_pure _ ⟨around, told⟩
  · dsimp only [Except.mapError]
    cases tried : around.write job.output (Text.encodeUtf8 doc.print) with
    | error f =>
      refine (comesTo_write_of_error (w := ⟨around, told⟩) tried).bind fun told => ?_
      exact comesTo_pure _ ⟨around, told⟩
    | ok after =>
      refine (comesTo_write_of_ok (w := ⟨around, told⟩) tried).bind fun told => ?_
      exact comesTo_pure _ ⟨after, told⟩

variable {job : Job} {doc : Sdl.Document} {files : FileSystem}

theorem saved_of_saving (done : (job.saving doc files).1 = .ok ()) :
    Saved files job.output (Text.encodeUtf8 doc.print) (job.saving doc files).2 := by
  have grows := grows_makeRoom files job.output
  unfold saving at done ⊢
  rcases made : files.makeRoom job.output with ⟨around, f | ⟨⟩⟩
  · rw [made] at done
    cases done
  · rw [made] at done grows
    dsimp only at done ⊢
    cases tried : around.write job.output (Text.encodeUtf8 doc.print) with
    | error f =>
      rw [tried] at done
      cases done
    | ok after =>
      obtain ⟨place, written⟩ := exists_written_of_write tried
      exact .of_written grows written

theorem sameFiles_of_saving {e : JobError} (refused : (job.saving doc files).1 = .error e) :
    SameFiles files (job.saving doc files).2 := by
  have grows := grows_makeRoom files job.output
  unfold saving at refused ⊢
  rcases made : files.makeRoom job.output with ⟨around, f | ⟨⟩⟩
  · rw [made] at grows
    exact grows.file_iff
  · rw [made] at refused grows
    dsimp only at refused ⊢
    cases tried : around.write job.output (Text.encodeUtf8 doc.print) with
    | error f => exact grows.file_iff
    | ok after =>
      rw [tried] at refused
      cases refused

theorem saving_error_iff : (∃ e, (job.saving doc files).1 = .error e) ↔
    ∃ f, (files.makeRoom job.output).2 = .error f ∨
      (files.makeRoom job.output).1.write job.output (Text.encodeUtf8 doc.print) = .error f := by
  unfold saving
  rcases files.makeRoom job.output with ⟨around, f | ⟨⟩⟩
  · simp
  · dsimp only
    cases around.write job.output (Text.encodeUtf8 doc.print) <;> simp

def running (job : Job) (files : FileSystem) : Except JobError Path × FileSystem :=
  match merged files job.schema job.overrides with
  | .error e => (.error (.build job.output e), files)
  | .ok doc => ((job.saving doc files).1.map fun _ => job.output, (job.saving doc files).2)

theorem comesTo_run (job : Job) (w : World) : ComesTo job.run w (job.running w.files) := by
  unfold run running
  refine ((onlyReads_tell _).comesTo w).bind fun told => ?_
  refine ((onlyReads_build _ _).comesTo _).bind fun told => ?_
  rw [answer_build]
  cases merged w.files job.schema job.overrides with
  | error e => exact comesTo_pure _ ⟨w.files, told⟩
  | ok doc =>
    refine (comesTo_save job doc _).bind fun told => ?_
    dsimp only
    rcases job.saving doc w.files with ⟨e | ⟨⟩, after⟩
    · exact comesTo_pure _ ⟨after, told⟩
    · exact comesTo_pure _ ⟨after, told⟩

theorem running_of_error {e : BuildError}
    (failed : merged files job.schema job.overrides = .error e) :
    job.running files = (.error (.build job.output e), files) := by
  rw [running, failed]

theorem running_of_ok (built : merged files job.schema job.overrides = .ok doc) :
    job.running files =
      ((job.saving doc files).1.map fun _ => job.output, (job.saving doc files).2) := by
  rw [running, built]

theorem saved_of_running {p : Path} (done : (job.running files).1 = .ok p) :
    p = job.output ∧ ∃ doc, merged files job.schema job.overrides = .ok doc ∧
      Saved files p (Text.encodeUtf8 doc.print) (job.running files).2 := by
  cases built : merged files job.schema job.overrides with
  | error e =>
    rw [running_of_error built] at done
    cases done
  | ok doc =>
    rw [running_of_ok built] at done ⊢
    dsimp only at done ⊢
    cases ran : (job.saving doc files).1 with
    | error e =>
      rw [ran] at done
      cases done
    | ok _ =>
      rw [ran] at done
      cases done
      exact ⟨rfl, doc, rfl, saved_of_saving ran⟩

theorem sameFiles_of_running {e : JobError} (failed : (job.running files).1 = .error e) :
    SameFiles files (job.running files).2 := by
  cases built : merged files job.schema job.overrides with
  | error e =>
    rw [running_of_error built]
    exact fun _ _ => Iff.rfl
  | ok doc =>
    rw [running_of_ok built] at failed ⊢
    dsimp only at failed ⊢
    cases ran : (job.saving doc files).1 with
    | error e => exact sameFiles_of_saving ran
    | ok _ =>
      rw [ran] at failed
      cases failed

/-- A merge that succeeded fails to be saved for want of a directory, or because it cannot be written. -/
theorem running_error_iff (built : merged files job.schema job.overrides = .ok doc) :
    (∃ e, (job.running files).1 = .error e) ↔ ∃ f, (files.makeRoom job.output).2 = .error f ∨
      (files.makeRoom job.output).1.write job.output (Text.encodeUtf8 doc.print) = .error f := by
  rw [running_of_ok built, ← saving_error_iff]
  cases (job.saving doc files).1 <;> simp [Except.map]

/-- A job changes the file at its output or no file at all. Where the merge fails, the files stay as they
are, down to the directories. Where the job succeeds, the file at its output holds the document that came of
the inputs as they were before the run, the directories above it are there, and no other file is changed.
Where a directory cannot be created, or the file cannot be written, the job fails; and whenever a job fails,
every file holds what it held. -/
theorem run_effects (job : Job) (w : World) :
    let ran := (job.run : StateM World (Except JobError Path)).run w
    (∀ e, merged w.files job.schema job.overrides = .error e →
      ran.1 = .error (.build job.output e) ∧ ran.2.files = w.files) ∧
    (∀ p, ran.1 = .ok p → p = job.output ∧
      ∃ doc, merged w.files job.schema job.overrides = .ok doc ∧
        Saved w.files p (Text.encodeUtf8 doc.print) ran.2.files) ∧
    (∀ doc, merged w.files job.schema job.overrides = .ok doc →
      ((∃ e, ran.1 = .error e) ↔ ∃ f, (w.files.makeRoom job.output).2 = .error f ∨
        (w.files.makeRoom job.output).1.write job.output (Text.encodeUtf8 doc.print) = .error f)) ∧
    ∀ e, ran.1 = .error e → SameFiles w.files ran.2.files := by
  obtain ⟨told, ended⟩ := comesTo_run job w
  rw [ended]
  refine ⟨fun e failed => ?_, fun p done => saved_of_running done,
    fun doc built => running_error_iff built, fun e failed => sameFiles_of_running failed⟩
  rw [running_of_error failed]
  exact ⟨rfl, rfl⟩

def oneScalar : World :=
  ⟨⟨.directory (Keyed.empty.insert "base.graphql" (.file (Text.encodeUtf8 "scalar A"))), []⟩, []⟩

def withScalar (name output : String) : Job :=
  ⟨⟨output⟩, .sdl ("scalar " ++ name ++ " @create"), .path ⟨"base.graphql"⟩⟩

theorem merged_withScalar (output : String) :
    (merged oneScalar.files (withScalar "B" output).schema (withScalar "B" output).overrides).map
      Sdl.Document.print = .ok "scalar A\n\nscalar B\n" := by
  change (merged oneScalar.files (withScalar "B" "").schema
    (withScalar "B" "").overrides).map Sdl.Document.print = _
  decide +kernel

theorem saved_withScalar {output : String} {w : World}
    (done : ∃ doc, merged oneScalar.files (withScalar "B" output).schema
      (withScalar "B" output).overrides = .ok doc ∧
      Saved oneScalar.files ⟨output⟩ (Text.encodeUtf8 doc.print) w.files) :
    Saved oneScalar.files ⟨output⟩ (Text.encodeUtf8 "scalar A\n\nscalar B\n") w.files := by
  obtain ⟨doc, built, saved⟩ := done
  have printed := merged_withScalar output
  rw [built] at printed
  rw [Except.ok.inj printed] at saved
  exact saved

/-- A job that saves in a new directory, one that saves over its own schema, one of which the merge fails,
and one that needs a directory in the place of its schema. -/
theorem run_effects_oneScalar :
    let ran (job : Job) := (job.run : StateM World (Except JobError Path)).run oneScalar
    let content := Text.encodeUtf8 "scalar A\n\nscalar B\n"
    Saved oneScalar.files ⟨"build/out.graphql"⟩ content
      (ran (withScalar "B" "build/out.graphql")).2.files ∧
    Saved oneScalar.files ⟨"base.graphql"⟩ content (ran (withScalar "B" "base.graphql")).2.files ∧
    (ran (withScalar "A" "build/out.graphql")).2.files = oneScalar.files ∧
    SameFiles oneScalar.files (ran (withScalar "B" "base.graphql/out.graphql")).2.files := by
  have refused : merged oneScalar.files (withScalar "A" "build/out.graphql").schema
      (withScalar "A" "build/out.graphql").overrides =
        .error (.overlay (.edit (.alreadyExists "A" .definitions))) := by decide +kernel
  dsimp only
  refine ⟨saved_withScalar ?_, saved_withScalar ?_, ?_, ?_⟩
  · exact ((run_effects (withScalar "B" "build/out.graphql") oneScalar).2.1 _ (by decide +kernel)).2
  · exact ((run_effects (withScalar "B" "base.graphql") oneScalar).2.1 _ (by decide +kernel)).2
  · exact ((run_effects (withScalar "A" "build/out.graphql") oneScalar).1 _ refused).2
  · refine (run_effects (withScalar "B" "base.graphql/out.graphql") oneScalar).2.2.2
      (.makeDirectories ⟨"base.graphql"⟩ FileFault.alreadyExists.system) ?_
    decide +kernel

end Job

end SchemaOverlay
