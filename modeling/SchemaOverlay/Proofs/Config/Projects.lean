import SchemaOverlay.Config
import SchemaOverlay.Proofs.Keyed
import SchemaOverlay.Proofs.Traversal

/-!
Which projects a configuration file has. If it has a map of projects, these alone count, in the order in
which their names first come in the file, and what is written last under a name is the project. If it has
none, the top level is the only project, and has no name.
-/
namespace SchemaOverlay

namespace Json

def under (key : String) (members : List (Option String × Json)) : List Json :=
  (members.filter (·.1 = some key)).map (·.2)

def membersOf (written : List (String × Json)) : List (Option String × Json) :=
  written.map fun w => (some w.1, w.2)

theorem membersOf_injective : Function.Injective membersOf := by
  refine List.map_injective_iff.mpr ?_
  rintro ⟨key, item⟩ ⟨key', item'⟩ same
  cases same
  rfl

theorem under_membersOf (key : String) (written : List (String × Json)) :
    under key (membersOf written) = (written.filter (·.1 = key)).map (·.2) := by
  simp [under, membersOf, List.filter_map, Function.comp_def]

end Json

namespace Config

inductive InEffect (members : List (Option String × Json)) :
    List (Option String × Project) → Prop
  | alone {extensions : Option Json} {root : Project}
      (absent : Json.under "projects" members = [] ∨ Json.under "projects" members = [.null])
      (written : Json.under "extensions" members = extensions.toList)
      (read : decodeExtensions extensions = .ok root) : InEffect members [(none, root)]
  /-- Each name counts once, where it comes first, and stands for what is written last under it. -/
  | named {written : List (String × Json)} {projects : List (String × Project)}
      (present : Json.under "projects" members = [.object (Json.membersOf written)])
      (order : projects.map (·.1) = (written.map (·.1)).eraseDups)
      (last : ∀ p ∈ projects, ((written.filter (·.1 = p.1)).getLast?).map
        (fun w => decodeProject w.2) = some (.ok p.2)) :
      InEffect members (projects.map fun (name, project) => (some name, project))

theorem InEffect.unique {members : List (Option String × Json)}
    {projects projects' : List (Option String × Project)} (first : InEffect members projects)
    (second : InEffect members projects') : projects = projects' := by
  cases first with
  | @alone extensions root absent written read =>
    cases second with
    | alone _ written' read' =>
      have same := congrArg List.head? (written.symm.trans written')
      rw [Option.head?_toList, Option.head?_toList] at same
      subst same
      cases read.symm.trans read'
      rfl
    | named present => rcases absent with none | null <;> simp_all
  | @named written projects present order last =>
    cases second with
    | alone absent => rcases absent with none | null <;> simp_all
    | @named written' projects' present' order' last' =>
      obtain ⟨members⟩ := List.cons.inj (present.symm.trans present')
      obtain rfl := Json.membersOf_injective (Json.object.inj members)
      -- Each name settles its project, so the list of the names settles the list of the projects.
      have settled (l : List (String × Project)) (last : ∀ p ∈ l,
          ((written.filter (·.1 = p.1)).getLast?).map (fun w => decodeProject w.2) =
            some (.ok p.2)) :
          l.map (fun p => (p.1, some (.ok p.2))) = (l.map (·.1)).map fun name =>
            (name, ((written.filter (·.1 = name)).getLast?).map fun w => decodeProject w.2) := by
        rw [List.map_map]
        exact List.map_congr_left fun p member => by rw [Function.comp_apply, last p member]
      have same := settled _ last
      rw [order, ← order', ← settled _ last'] at same
      refine congrArg _ (List.map_injective_iff.mpr ?_ same)
      rintro ⟨name, project⟩ ⟨name', project'⟩ alike
      cases alike
      rfl

theorem keyed_eq_ok_iff {members : List (Option String × Json)} {written : List (String × Json)} :
    keyed members = .ok written ↔ members = Json.membersOf written := by
  unfold keyed Json.membersOf
  rw [mapM_eq_ok_iff, ← List.forall₂_eq_eq_eq, List.forall₂_map_right_iff]
  constructor
  · refine fun all => all.imp ?_
    rintro ⟨_ | key, item⟩ w ⟨⟩
    rfl
  · refine fun all => all.imp ?_
    rintro ⟨_ | key, item⟩ w ⟨⟩
    rfl

theorem single_eq_ok {key : String} {written : List (String × Json)} {item : Option Json}
    (found : single key written = .ok item) :
    (written.filter (·.1 = key)).map (·.2) = item.toList := by
  unfold single at found
  split at found
  case h_1 none => cases found; rw [none]; rfl
  case h_2 only => cases found; rw [only]; rfl
  case h_3 => cases found

theorem filter_beside {key other : String} (apart : key ≠ other) (written : List (String × Json)) :
    (written.filter (·.1 ≠ other)).filter (·.1 = key) = written.filter (·.1 = key) := by
  rw [List.filter_filter]
  refine List.filter_congr fun w _ => ?_
  by_cases same : w.1 = key
  · simp [same, apart]
  · simp [same]

theorem decodeProjects_eq_ok {item : Option Json} {projects : Option (Keyed String Project)}
    (read : decodeProjects item = .ok projects) :
    (projects = none ∧ (item = none ∨ item = some .null)) ∨
    ∃ written pairs, item = some (.object (Json.membersOf written)) ∧
      written.map (fun w => (w.1, decodeProject w.2)) = pairs.map (fun p => (p.1, .ok p.2)) ∧
      projects = some (Keyed.ofList pairs) := by
  unfold decodeProjects at read
  split at read
  case h_1 => cases read; exact Or.inl ⟨rfl, Or.inl rfl⟩
  case h_2 => cases read; exact Or.inl ⟨rfl, Or.inr rfl⟩
  case h_3 members =>
    obtain ⟨written, proper, read⟩ := exists_of_bind_eq_ok read
    obtain ⟨pairs, each, read⟩ := exists_of_bind_eq_ok read
    cases read
    refine Or.inr ⟨written, pairs, by rw [keyed_eq_ok_iff.mp proper], ?_, rfl⟩
    rw [mapM_eq_ok_iff] at each
    rw [← List.forall₂_eq_eq_eq, List.forall₂_map_left_iff, List.forall₂_map_right_iff]
    refine each.imp fun w p one => ?_
    obtain ⟨project, decoded, same⟩ := exists_of_bind_eq_ok one
    cases same
    rw [decoded]
  case h_4 => cases read

theorem last_of_decoded {written : List (String × Json)} {pairs : List (String × Project)}
    (decoded : written.map (fun w => (w.1, decodeProject w.2)) = pairs.map fun p => (p.1, .ok p.2))
    {p : String × Project} (member : p ∈ (Keyed.ofList pairs).pairs) :
    ((written.filter (·.1 = p.1)).getLast?).map (fun w => decodeProject w.2) = some (.ok p.2) := by
  have found := Keyed.get?_of_mem (Keyed.Distinct.ofList pairs) member
  rw [Keyed.get?_ofList] at found
  -- Reading keeps the names, so what was written and what was read end alike under each of them.
  have same := congrArg (fun l => (l.filter (·.1 = p.1)).getLast?.map (·.2)) decoded
  simp only [List.filter_map, Function.comp_def, List.getLast?_map, Option.map_map] at same
  rw [same]
  obtain ⟨q, last, value⟩ := Option.map_eq_some_iff.mp found
  rw [last, Option.map_some, value]

theorem inEffect_of_decode {json : Json} {config : Config} (read : decode json = .ok config) :
    ∃ members, json = .object members ∧ InEffect members config.effectiveProjects := by
  cases json with
  | object members =>
    refine ⟨members, rfl, ?_⟩
    unfold decode at read
    obtain ⟨written, proper, read⟩ := exists_of_bind_eq_ok read
    obtain ⟨-, -, read⟩ := exists_of_bind_eq_ok read
    obtain ⟨item, only, read⟩ := exists_of_bind_eq_ok read
    obtain ⟨projects, named, read⟩ := exists_of_bind_eq_ok read
    obtain ⟨extensions, beside, read⟩ := exists_of_bind_eq_ok read
    obtain ⟨root, top, read⟩ := exists_of_bind_eq_ok read
    cases read
    -- All the members have proper keys by now, so they are looked at by name alone.
    have under : ∀ key, Json.under key members = (written.filter (·.1 = key)).map (·.2) := by
      intro key
      rw [keyed_eq_ok_iff.mp proper, Json.under_membersOf]
    have here := (under "projects").trans (single_eq_ok only)
    rcases decodeProjects_eq_ok named with ⟨rfl, absent⟩ | ⟨entries, pairs, rfl, decoded, rfl⟩
    · refine .alone ?_ ((under "extensions").trans ?_) top
      · rw [here]
        exact absent.imp (congrArg Option.toList) (congrArg Option.toList)
      · rw [← single_eq_ok beside, filter_beside (by decide)]
    · refine .named here ?_ fun p member => last_of_decoded decoded member
      have names := congrArg (List.map Prod.fst) decoded
      rw [List.map_map, List.map_map] at names
      exact (Keyed.keys_ofList pairs).trans (congrArg List.eraseDups names.symm)
  | _ => cases read

theorem inEffect_of_parse {text : String} {config : Config} (read : parse text = .ok config) :
    ∃ members, Json.parse? text = some (.object members) ∧
      InEffect members config.effectiveProjects := by
  unfold parse at read
  cases written : Json.parse? text with
  | none => simp [written] at read
  | some json =>
    rw [written] at read
    obtain ⟨members, rfl, counts⟩ := inEffect_of_decode read
    exact ⟨members, rfl, counts⟩

end Config

end SchemaOverlay
