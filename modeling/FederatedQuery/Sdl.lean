import FederatedQuery.Document
import FederatedQuery.Grouping

/-!
Schema documents as written: type definitions with their directives. Of what a blueprint does not
need only the constant values are kept, which have to be in range wherever they stand.
-/
namespace FederatedQuery.Sdl

structure FieldNode where
  name : String
  type : TypeRef
  directives : List Directive

structure EnumValueNode where
  name : String
  directives : List Directive

inductive TypeKind where
  | object (fields : List FieldNode)
  | interface (fields : List FieldNode)
  | enumeration (values : List EnumValueNode)
  | other

structure TypeNode where
  name : String
  kind : TypeKind
  directives : List Directive

inductive DefinitionKind where
  | schema (isExtension : Bool) (roots : List (OperationKind × String))
  | type (node : TypeNode)
  | directive

structure Definition where
  kind : DefinitionKind
  constants : List Value

/-- Whether a schema block names a kind twice, or lacks the query without extending another. -/
def checkRoots (isExtension : Bool) (roots : List (OperationKind × String)) :
    Except ParseError Unit := do
  match repeatedAfter [] (roots.map (·.1)) with
  | kind :: _ => throw (.multipleRoots kind)
  | [] => pure ()
  unless isExtension || roots.any (·.1 = .query) do throw .missingQueryRoot

def Definition.check (d : Definition) : Except ParseError Unit := do
  unless d.constants.all Value.isFinite do throw .malformed
  match d.kind with
  | .schema isExtension roots => checkRoots isExtension roots
  | .type _ | .directive => pure ()

end FederatedQuery.Sdl
