import SchemaOverlay.Sdl.Kind

/-!
The uses of directives in a document, each with the node that carries it, and the walk that visits
them: the directives of a definition before those of its members, and the directives of a field's
arguments before those of the field.
-/
namespace SchemaOverlay.Sdl

inductive Site
  | definition (definition : Definition)
  | field (definition : Definition) (field : Field)
  | argument (definition : Definition) (field : Field) (value : InputValue)
  /-- A field of an input object or an argument of a directive definition. -/
  | inputValue (definition : Definition) (value : InputValue)
  | enumValue (definition : Definition) (value : EnumValue)
  deriving Repr

structure Use where
  directive : Directive
  index : Nat
  site : Site
  deriving Repr

def Site.directives : Site → List Directive
  | .definition d => d.directives
  | .field _ f => f.directives
  | .argument _ _ v => v.directives
  | .inputValue _ v => v.directives
  | .enumValue _ v => v.directives

def Site.uses (s : Site) : List Use := s.directives.zipIdx.map fun (d, i) => ⟨d, i, s⟩

def TypeBody.sites (d : Definition) : TypeBody → List Site
  | .scalar | .union _ => []
  | .object _ fields | .interface _ fields =>
    fields.flatMap fun f => f.arguments.map (.argument d f) ++ [.field d f]
  | .enum values => values.map (.enumValue d)
  | .inputObject fields => fields.map (.inputValue d)

def Definition.sites (d : Definition) : List Site :=
  match d with
  | .schema _ => [.definition d]
  | .type _ node | .extension node => .definition d :: node.body.sites d
  | .directive definition => .definition d :: definition.arguments.map (.inputValue d)

/-- All uses of directives in a document, in the order of the walk. -/
def Document.uses (doc : Document) : List Use :=
  doc.definitions.flatMap fun d => d.sites.flatMap Site.uses

section Walk

variable {m : Type → Type} [Monad m] (visit : Use → m PUnit)

def walkSite (s : Site) : m PUnit :=
  s.directives.zipIdx.forM fun (d, i) => visit ⟨d, i, s⟩

def walkField (d : Definition) (f : Field) : m PUnit := do
  f.arguments.forM fun v => walkSite visit (.argument d f v)
  walkSite visit (.field d f)

def walkBody (d : Definition) : TypeBody → m PUnit
  | .scalar | .union _ => pure ⟨⟩
  | .object _ fields | .interface _ fields => fields.forM (walkField visit d)
  | .enum values => values.forM fun v => walkSite visit (.enumValue d v)
  | .inputObject fields => fields.forM fun v => walkSite visit (.inputValue d v)

def walkDefinition (d : Definition) : m PUnit := do
  walkSite visit (.definition d)
  match d with
  | .schema _ => pure ⟨⟩
  | .type _ node | .extension node => walkBody visit d node.body
  | .directive definition => definition.arguments.forM fun v => walkSite visit (.inputValue d v)

def Document.walk (doc : Document) : m PUnit := doc.definitions.forM (walkDefinition visit)

end Walk

end SchemaOverlay.Sdl
