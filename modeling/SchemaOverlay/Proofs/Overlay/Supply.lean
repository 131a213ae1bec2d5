import SchemaOverlay.Proofs.Files.Above
import SchemaOverlay.Proofs.Job
import SchemaOverlay.Proofs.Sdl.Blank
import SchemaOverlay.Proofs.Text.Utf8

/-!
The ways to hand in a text: as it is, in a file, or as the document that it is read as. A text that is no
document fails in each of them, though not with the same words; for any other, the way makes no difference.
-/
namespace SchemaOverlay

open Sdl World

namespace Input

inductive Supplies (files : FileSystem) (text : String) : Input → Prop
  | sdl : Supplies files text (.sdl text)
  | path {p : Path} (holds : files.read p = .ok (Text.encodeUtf8 text)) :
    Supplies files text (.path p)
  | document {doc : Document} (parsed : Document.parse text = .ok doc) :
    Supplies files text (.document doc)

variable {files : FileSystem} {text label : String} {p : Path} {doc : Document}

theorem answer_resolve_sdl (files : FileSystem) (label text : String) :
    answer (resolve label (.sdl text)) files =
      if Text.isBlank text then .error (.blank label) else parse label text := rfl

theorem answer_resolve_document (files : FileSystem) (label : String) (doc : Document) :
    answer (resolve label (.document doc)) files = .ok doc := rfl

theorem answer_resolve_path (holds : files.read p = .ok (Text.encodeUtf8 text)) :
    answer (resolve label (.path p)) files = parse p.text text := by
  have readText : answer (readText p) files = .ok text := by
    unfold readText
    rw [(onlyLooks_isFile p).answer_bind, answer_isFile, FileSystem.isFile_of_read holds,
      if_pos rfl, (onlyLooks_read p).answer_bind, answer_read, holds]
    change (Text.decodeUtf8 (Text.encodeUtf8 text)).mapError _ = _
    rw [Text.decodeUtf8_encodeUtf8]
    rfl
  unfold resolve
  rw [(onlyLooks_readText p).answer_bind, readText]
  rfl

theorem parse_eq_ok_iff {source : String} :
    parse source text = .ok doc ↔ Document.parse text = .ok doc := by
  unfold parse
  cases Document.parse text <;> simp [Except.mapError]

theorem resolve_eq_ok_iff {input : Input} (label : String) (supplied : Supplies files text input) :
    answer (resolve label input) files = .ok doc ↔ Document.parse text = .ok doc := by
  cases supplied with
  | sdl =>
    rw [answer_resolve_sdl]
    by_cases blank : Text.isBlank text = true
    · obtain ⟨e, failed⟩ := parse_blank blank
      simp [blank, failed]
    · rw [if_neg blank, parse_eq_ok_iff]
  | path holds => rw [answer_resolve_path holds, parse_eq_ok_iff]
  | document parsed =>
    rw [answer_resolve_document, parsed, Except.ok.injEq, Except.ok.injEq]

end Input

section Build

variable {schema overrides : Input} {base edits doc : Document}

theorem run_build_of_ok {w : World} (first : answer (schema.resolve "schema") w.files = .ok base)
    (second : answer (overrides.resolve "overrides") w.files = .ok edits) :
    (build schema overrides : StateM World _).run w = (mergeTelling base edits : StateM World _).run w := by
  unfold build
  rw [(Input.onlyLooks_resolve _ schema).run_bind, first]
  dsimp only
  rw [(Input.onlyLooks_resolve _ overrides).run_bind, second]

theorem answer_build_eq_ok_iff {files : FileSystem} :
    answer (build schema overrides) files = .ok doc ↔ ∃ base edits,
      answer (schema.resolve "schema") files = .ok base ∧
      answer (overrides.resolve "overrides") files = .ok edits ∧
      (merge base edits).outcome = .ok doc := by
  rw [answer_build, merged]
  cases answer (schema.resolve "schema") files with
  | error e => simp [Except.mapError, bind, Except.bind]
  | ok base =>
    cases answer (overrides.resolve "overrides") files with
    | error e => simp [Except.mapError, bind, Except.bind]
    | ok edits =>
      cases merged : (merge base edits).outcome <;> simp [Except.mapError, bind, Except.bind, merged]

variable {w : World} {text edit : String} {schema' overrides' : Input}

/-- How a text is handed in makes no difference. As itself, in a file or as a document, a text comes to
the document that it is read as, or to none. So the two inputs of a merge may each be handed in any way:
the merge succeeds alike, with the same document. And if both inputs come to a document, the merge is the
same altogether, also if it fails. -/
theorem build_supplied (first : Input.Supplies w.files text schema)
    (first' : Input.Supplies w.files text schema') (second : Input.Supplies w.files edit overrides)
    (second' : Input.Supplies w.files edit overrides') :
    (∀ label doc, answer (schema.resolve label) w.files = .ok doc ↔ Document.parse text = .ok doc) ∧
    (∀ doc, answer (build schema overrides) w.files = .ok doc ↔
      answer (build schema' overrides') w.files = .ok doc) ∧
    ∀ base edits, answer (schema.resolve "schema") w.files = .ok base →
      answer (overrides.resolve "overrides") w.files = .ok edits →
      (build schema overrides : StateM World _).run w =
        (build schema' overrides' : StateM World _).run w := by
  refine ⟨fun label doc => Input.resolve_eq_ok_iff label first, fun doc => ?_, ?_⟩
  · simp only [answer_build_eq_ok_iff, Input.resolve_eq_ok_iff _ first,
      Input.resolve_eq_ok_iff _ first', Input.resolve_eq_ok_iff _ second,
      Input.resolve_eq_ok_iff _ second']
  · intro base edits resolved resolvedEdits
    have read := (Input.resolve_eq_ok_iff _ first).mp resolved
    have readEdits := (Input.resolve_eq_ok_iff _ second).mp resolvedEdits
    rw [run_build_of_ok resolved resolvedEdits,
      run_build_of_ok ((Input.resolve_eq_ok_iff _ first').mpr read)
        ((Input.resolve_eq_ok_iff _ second').mpr readEdits)]

end Build

def suppliedFiles : FileSystem :=
  ⟨.directory (((Keyed.empty : Keyed String Node).insert "schema.graphql"
      (.file (Text.encodeUtf8 "\"é\" scalar A"))).insert "overrides.graphql"
      (.file (Text.encodeUtf8 "scalar B @create"))), []⟩

theorem build_supplied_accented :
    let accented : Document := ⟨[.type (some "é") ⟨"A", [], .scalar⟩]⟩
    let edits : Document := ⟨[.type none ⟨"B", [⟨"create", []⟩], .scalar⟩]⟩
    Input.Supplies suppliedFiles "\"é\" scalar A" (.path ⟨"schema.graphql"⟩) ∧
    Input.Supplies suppliedFiles "\"é\" scalar A" (.document accented) ∧
    Input.Supplies suppliedFiles "scalar B @create" (.sdl "scalar B @create") ∧
    Input.Supplies suppliedFiles "scalar B @create" (.path ⟨"overrides.graphql"⟩) ∧
    answer ((Input.path ⟨"schema.graphql"⟩).resolve "schema") suppliedFiles = .ok accented ∧
    answer ((Input.sdl "scalar B @create").resolve "overrides") suppliedFiles = .ok edits ∧
    (build (.path ⟨"schema.graphql"⟩) (.sdl "scalar B @create") : StateM World _).run
        ⟨suppliedFiles, []⟩ =
      (build (.document accented) (.path ⟨"overrides.graphql"⟩) : StateM World _).run
        ⟨suppliedFiles, []⟩ := by
  intro accented edits
  have read : Document.parse "\"é\" scalar A" = .ok accented := by decide +kernel
  have readEdits : Document.parse "scalar B @create" = .ok edits := by decide +kernel
  have first : Input.Supplies suppliedFiles "\"é\" scalar A" (.path ⟨"schema.graphql"⟩) := .path rfl
  have second : Input.Supplies suppliedFiles "scalar B @create" (.sdl "scalar B @create") := .sdl
  have second' : Input.Supplies suppliedFiles "scalar B @create" (.path ⟨"overrides.graphql"⟩) :=
    .path rfl
  have resolved := (Input.resolve_eq_ok_iff "schema" first).mpr read
  have resolvedEdits := (Input.resolve_eq_ok_iff "overrides" second).mpr readEdits
  exact ⟨first, .document read, second, second', resolved, resolvedEdits,
    (build_supplied (w := ⟨suppliedFiles, []⟩) first (.document read) second second').2.2 _ _
      resolved resolvedEdits⟩

end SchemaOverlay
