import SchemaOverlay.Host
import Mathlib.Data.List.Basic

/-!
Runs on a world, the log apart. No work looks at what was told before, so what a run answers and the
files it leaves hang on the files alone; and most work only reads them.
-/
namespace SchemaOverlay.World

variable {α β : Type}

def answer (x : StateM World α) (files : FileSystem) : α := (x.run ⟨files, []⟩).1

def left (x : StateM World α) (files : FileSystem) : FileSystem := (x.run ⟨files, []⟩).2.files

/-- What was told before makes no difference to the answer, nor to the files that are left. -/
structure IgnoresLog (x : StateM World α) : Prop where
  answers : ∀ w, (x.run w).1 = answer x w.files
  leaves : ∀ w, (x.run w).2.files = left x w.files

structure OnlyReads (x : StateM World α) : Prop extends IgnoresLog x where
  keeps : ∀ files, left x files = files

structure OnlyLooks (x : StateM World α) : Prop extends OnlyReads x where
  silent : ∀ w, (x.run w).2.log = w.log

section Bind

variable {x : StateM World α} {f : α → StateM World β}

theorem answer_bind (later : ∀ a, IgnoresLog (f a)) (files : FileSystem) :
    answer (x >>= f) files = answer (f (answer x files)) (left x files) :=
  (later _).answers _

theorem left_bind (later : ∀ a, IgnoresLog (f a)) (files : FileSystem) :
    left (x >>= f) files = left (f (answer x files)) (left x files) :=
  (later _).leaves _

theorem IgnoresLog.bind (first : IgnoresLog x) (later : ∀ a, IgnoresLog (f a)) :
    IgnoresLog (x >>= f) where
  answers w := by
    rw [answer_bind later, ← first.answers, ← first.leaves]
    exact (later _).answers _
  leaves w := by
    rw [left_bind later, ← first.answers, ← first.leaves]
    exact (later _).leaves _

theorem OnlyReads.bind (first : OnlyReads x) (later : ∀ a, OnlyReads (f a)) :
    OnlyReads (x >>= f) where
  toIgnoresLog := first.toIgnoresLog.bind fun a => (later a).toIgnoresLog
  keeps files := by
    rw [left_bind fun a => (later a).toIgnoresLog, (later _).keeps, first.keeps]

theorem OnlyLooks.bind (first : OnlyLooks x) (later : ∀ a, OnlyLooks (f a)) :
    OnlyLooks (x >>= f) where
  toOnlyReads := first.toOnlyReads.bind fun a => (later a).toOnlyReads
  silent w := ((later _).silent _).trans (first.silent w)

theorem answer_bind_of_onlyReads (first : OnlyReads x) (later : ∀ a, IgnoresLog (f a))
    (files : FileSystem) : answer (x >>= f) files = answer (f (answer x files)) files := by
  rw [answer_bind later, first.keeps]

theorem left_bind_of_onlyReads (first : OnlyReads x) (later : ∀ a, IgnoresLog (f a))
    (files : FileSystem) : left (x >>= f) files = left (f (answer x files)) files := by
  rw [left_bind later, first.keeps]

end Bind

section Looking

variable {x : StateM World α} (looks : OnlyLooks x)
include looks

theorem OnlyLooks.world_eq (w : World) : (x.run w).2 = w := by
  rw [show (x.run w).2 = ⟨(x.run w).2.files, (x.run w).2.log⟩ from rfl, looks.silent, looks.leaves,
    looks.keeps]

theorem OnlyLooks.run_bind (f : α → StateM World β) (w : World) :
    (x >>= f).run w = (f (answer x w.files)).run w := by
  rw [← looks.answers]
  exact congrArg (f (x.run w).1).run (looks.world_eq w)

theorem OnlyLooks.answer_bind (f : α → StateM World β) (files : FileSystem) :
    answer (x >>= f) files = answer (f (answer x files)) files :=
  congrArg Prod.fst (looks.run_bind f ⟨files, []⟩)

end Looking

theorem onlyLooks_pure (a : α) : OnlyLooks (pure a) :=
  ⟨⟨⟨fun _ => rfl, fun _ => rfl⟩, fun _ => rfl⟩, fun _ => rfl⟩

theorem onlyReads_pure (a : α) : OnlyReads (pure a) := (onlyLooks_pure a).toOnlyReads

theorem OnlyLooks.ite {c : Prop} [Decidable c] {x y : StateM World α} (first : OnlyLooks x)
    (second : OnlyLooks y) : OnlyLooks (if c then x else y) := by
  split
  · exact first
  · exact second

theorem onlyLooks_isFile (p : Path) : OnlyLooks (Host.isFile p) :=
  ⟨⟨⟨fun _ => rfl, fun _ => rfl⟩, fun _ => rfl⟩, fun _ => rfl⟩

theorem answer_isFile (p : Path) (files : FileSystem) :
    answer (Host.isFile p) files = files.isFile p := rfl

theorem onlyLooks_isDirectory (p : Path) : OnlyLooks (Host.isDirectory p) :=
  ⟨⟨⟨fun _ => rfl, fun _ => rfl⟩, fun _ => rfl⟩, fun _ => rfl⟩

theorem answer_isDirectory (p : Path) (files : FileSystem) :
    answer (Host.isDirectory p) files = files.isDirectory p := rfl

theorem onlyLooks_read (p : Path) : OnlyLooks (Host.read p) :=
  ⟨⟨⟨fun _ => rfl, fun _ => rfl⟩, fun _ => rfl⟩, fun _ => rfl⟩

theorem answer_read (p : Path) (files : FileSystem) :
    answer (Host.read p) files = (files.read p).mapError FileFault.system := rfl

def Answers (P : α → Prop) (x : StateM World α) : Prop := ∀ w, P (x.run w).1

theorem answers_pure {P : α → Prop} {a : α} (holds : P a) : Answers P (pure a) := fun _ => holds

theorem answers_bind {P : β → Prop} {x : StateM World α} {f : α → StateM World β}
    (later : ∀ a, Answers P (f a)) : Answers P (x >>= f) := fun _ => later _ _

def Tells (P : LogRecord → Prop) (x : StateM World α) : Prop :=
  ∀ w, ∃ told, (x.run w).2.log = w.log ++ told ∧ ∀ r ∈ told, P r

section Tells

variable {P : LogRecord → Prop}

theorem OnlyLooks.tells {x : StateM World α} (looks : OnlyLooks x) : Tells P x := fun w =>
  ⟨[], by rw [looks.silent, List.append_nil], by simp⟩

theorem tells_tell {r : LogRecord} (holds : P r) : Tells P (Host.tell r : StateM World Unit) :=
  fun _ => ⟨[r], rfl, by simpa using holds⟩

theorem Tells.bind {x : StateM World α} {f : α → StateM World β} (first : Tells P x)
    (later : ∀ a, Tells P (f a)) : Tells P (x >>= f) := by
  intro w
  obtain ⟨early, told, all⟩ := first w
  obtain ⟨late, told', all'⟩ := later (x.run w).1 (x.run w).2
  refine ⟨early ++ late, ?_, List.forall_mem_append.mpr ⟨all, all'⟩⟩
  rw [← List.append_assoc, ← told]
  exact told'

end Tells

theorem onlyReads_tell (r : LogRecord) : OnlyReads (Host.tell r) :=
  ⟨⟨fun _ => rfl, fun _ => rfl⟩, fun _ => rfl⟩

theorem onlyReads_tellAll (told : List LogRecord) :
    OnlyReads (told.forM (Host.tell : LogRecord → StateM World Unit)) := by
  induction told with
  | nil => exact onlyReads_pure ()
  | cons r rest ih => exact (onlyReads_tell r).bind fun _ => ih

section Write

variable {p : Path} {content : List UInt8}

theorem run_write_of_ok {w : World} {files : FileSystem}
    (written : w.files.write p content = .ok files) :
    (Host.write p content : StateM World _).run w = (.ok (), { w with files }) := by
  change (World.write p content).run w = _
  simp only [World.write, StateT.run_bind, StateT.run_get, pure_bind, written]
  rfl

theorem run_write_of_error {w : World} {f : FileFault}
    (refused : w.files.write p content = .error f) :
    (Host.write p content : StateM World _).run w = (.error f.system, w) := by
  change (World.write p content).run w = _
  simp only [World.write, StateT.run_bind, StateT.run_get, pure_bind, refused]
  rfl

end Write

theorem ignoresLog_write (p : Path) (content : List UInt8) :
    IgnoresLog (Host.write p content) := by
  have alike (w : World) :
      ((Host.write p content : StateM World _).run w).1 = answer (Host.write p content) w.files ∧
      ((Host.write p content : StateM World _).run w).2.files =
        left (Host.write p content) w.files := by
    rw [answer, left]
    cases tried : w.files.write p content with
    | ok files =>
      rw [run_write_of_ok tried, run_write_of_ok (w := ⟨w.files, []⟩) tried]
      exact ⟨rfl, rfl⟩
    | error f =>
      rw [run_write_of_error tried, run_write_of_error (w := ⟨w.files, []⟩) tried]
      exact ⟨rfl, rfl⟩
  exact ⟨fun w => (alike w).1, fun w => (alike w).2⟩

theorem ignoresLog_makeDirectories (p : Path) : IgnoresLog (Host.makeDirectories p) :=
  ⟨fun _ => rfl, fun _ => rfl⟩

def told (x : StateM World α) (files : FileSystem) : List LogRecord := (x.run ⟨files, []⟩).2.log

/-- What was told before stays, and what is told comes behind it. -/
structure GoesOn (x : StateM World α) : Prop extends IgnoresLog x where
  appends : ∀ w, (x.run w).2.log = w.log ++ told x w.files

theorem GoesOn.run_eq {x : StateM World α} (on : GoesOn x) (w : World) :
    x.run w = (answer x w.files, ⟨left x w.files, w.log ++ told x w.files⟩) :=
  Prod.ext (on.answers w) (by rw [← on.leaves, ← on.appends])

theorem GoesOn.bind {x : StateM World α} {f : α → StateM World β} (first : GoesOn x)
    (later : ∀ a, GoesOn (f a)) : GoesOn (x >>= f) where
  toIgnoresLog := first.toIgnoresLog.bind fun a => (later a).toIgnoresLog
  appends w := by
    have ends (w : World) : ((x >>= f).run w).2.log =
        w.log ++ told x w.files ++ told (f (answer x w.files)) (left x w.files) := by
      rw [StateT.run_bind, first.run_eq]
      exact (later _).appends _
    rw [ends, show told (x >>= f) w.files = _ from ends ⟨w.files, []⟩, List.nil_append,
      List.append_assoc]

theorem OnlyLooks.goesOn {x : StateM World α} (looks : OnlyLooks x) : GoesOn x where
  toIgnoresLog := looks.toIgnoresLog
  appends w := by rw [told, looks.silent, looks.silent, List.append_nil]

theorem goesOn_pure (a : α) : GoesOn (pure a) := (onlyLooks_pure a).goesOn

theorem goesOn_tell (r : LogRecord) : GoesOn (Host.tell r) where
  toIgnoresLog := (onlyReads_tell r).toIgnoresLog
  appends _ := rfl

theorem goesOn_tellAll (told : List LogRecord) :
    GoesOn (told.forM (Host.tell : LogRecord → StateM World Unit)) := by
  induction told with
  | nil => exact goesOn_pure ()
  | cons r rest ih => exact (goesOn_tell r).bind fun _ => ih

theorem goesOn_write (p : Path) (content : List UInt8) : GoesOn (Host.write p content) where
  toIgnoresLog := ignoresLog_write p content
  appends w := by
    have silent (w : World) : ((Host.write p content : StateM World _).run w).2.log = w.log := by
      cases tried : w.files.write p content with
      | ok files => rw [run_write_of_ok tried]
      | error f => rw [run_write_of_error tried]
    rw [told, silent, silent, List.append_nil]

theorem goesOn_makeDirectories (p : Path) : GoesOn (Host.makeDirectories p) where
  toIgnoresLog := ignoresLog_makeDirectories p
  appends w := (List.append_nil w.log).symm

/-- A run gives an answer and leaves files behind, whatever it tells. -/
def ComesTo (x : StateM World α) (w : World) (ran : α × FileSystem) : Prop :=
  ∃ told, x.run w = (ran.1, ⟨ran.2, told⟩)

section ComesTo

variable {x : StateM World α} {f : α → StateM World β} {w : World} {ran : α × FileSystem}

theorem comesTo_pure (a : α) (w : World) : ComesTo (pure a) w (a, w.files) := ⟨w.log, rfl⟩

theorem ComesTo.bind {ran' : β × FileSystem} (first : ComesTo x w ran)
    (later : ∀ told, ComesTo (f ran.1) ⟨ran.2, told⟩ ran') : ComesTo (x >>= f) w ran' := by
  obtain ⟨told, ran⟩ := first
  obtain ⟨told', ran'⟩ := later told
  exact ⟨told', by rw [StateT.run_bind, ran]; exact ran'⟩

theorem OnlyReads.comesTo (reads : OnlyReads x) (w : World) :
    ComesTo x w (answer x w.files, w.files) :=
  ⟨(x.run w).2.log, Prod.ext (reads.answers w) (by
    rw [← reads.keeps w.files, ← reads.leaves])⟩

theorem comesTo_makeDirectories (p : Path) (w : World) : ComesTo (Host.makeDirectories p) w
    ((w.files.makeDirectories p).2.mapError FileFault.system, (w.files.makeDirectories p).1) :=
  ⟨w.log, rfl⟩

theorem comesTo_write_of_ok {p : Path} {content : List UInt8} {files : FileSystem}
    (written : w.files.write p content = .ok files) :
    ComesTo (Host.write p content) w (.ok (), files) :=
  ⟨w.log, run_write_of_ok written⟩

theorem comesTo_write_of_error {p : Path} {content : List UInt8} {f : FileFault}
    (refused : w.files.write p content = .error f) :
    ComesTo (Host.write p content) w (.error f.system, w.files) :=
  ⟨w.log, run_write_of_error refused⟩

end ComesTo

end SchemaOverlay.World
