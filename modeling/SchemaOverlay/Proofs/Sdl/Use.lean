import SchemaOverlay.Sdl.Use

/-!
The walk over a document is one pass over the list of its uses of directives: each is visited once,
in the order of the list, and a visit that fails is the last.
-/
namespace SchemaOverlay.Sdl

section

variable {m : Type → Type} [Monad m] [LawfulMonad m] {α β : Type}

theorem forM_flatMap (l : List α) (f : α → List β) (visit : β → m PUnit) :
    forM (l.flatMap f) visit = forM l fun a => forM (f a) visit := by
  induction l with
  | nil => rfl
  | cons a rest ih => simp [List.forM_append, ih]

variable (visit : Use → m PUnit)

theorem walkSite_eq (s : Site) : walkSite visit s = forM s.uses visit := by
  simp [walkSite, Site.uses]

theorem walkField_eq (d : Definition) (f : Field) :
    walkField visit d f =
      forM (f.arguments.map (.argument d f) ++ [.field d f]) (walkSite visit) := by
  simp [walkField, List.forM_append]

theorem walkBody_eq (d : Definition) (body : TypeBody) :
    walkBody visit d body = forM (body.sites d) (walkSite visit) := by
  have fields : ∀ fs : List Field, forM fs (walkField visit d) =
      forM (fs.flatMap fun f => f.arguments.map (.argument d f) ++ [.field d f])
        (walkSite visit) := by
    intro fs
    rw [forM_flatMap]
    congr 1
    funext f
    exact walkField_eq visit d f
  cases body with
  | scalar => rfl
  | union members => rfl
  | object interfaces fs => simpa [walkBody, TypeBody.sites] using fields fs
  | interface implements fs => simpa [walkBody, TypeBody.sites] using fields fs
  | enum values => simp [walkBody, TypeBody.sites]
  | inputObject values => simp [walkBody, TypeBody.sites]

theorem walkDefinition_eq (d : Definition) :
    walkDefinition visit d = forM d.sites (walkSite visit) := by
  cases d with
  | schema s => simp [walkDefinition, Definition.sites]
  | type description node => simp [walkDefinition, Definition.sites, walkBody_eq]
  | extension node => simp [walkDefinition, Definition.sites, walkBody_eq]
  | directive definition => simp [walkDefinition, Definition.sites]

theorem Document.walk_eq (doc : Document) : doc.walk visit = forM doc.uses visit := by
  rw [Document.walk, List.forM_eq_forM, Document.uses, forM_flatMap]
  congr 1
  funext d
  rw [walkDefinition_eq, forM_flatMap]
  congr 1
  funext s
  exact walkSite_eq visit s

end

end SchemaOverlay.Sdl
