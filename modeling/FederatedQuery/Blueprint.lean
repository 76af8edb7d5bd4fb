import FederatedQuery.TypeRef

/-!
Blueprints of a federated schema: which sources exist, which of them declare each composite type,
and which of them own each field.
-/
namespace FederatedQuery

abbrev Source := String

def typenameField : String := "__typename"

inductive OperationKind where
  | query
  | mutation
  | subscription
deriving DecidableEq

def OperationKind.text : OperationKind → String
  | query => "query"
  | mutation => "mutation"
  | subscription => "subscription"

/-- The declaration of a type by one source. With a key the type can be entered again there. -/
structure JoinType where
  graph : Source
  key : Option String := none
  resolvable : Bool := true
  entryField : Option String := none
  /-- Arguments that receive a key field under another name than its own. -/
  arguments : Table String := Table.empty

structure JoinField where
  graph : Option Source := none
  /-- An external field is declared by the source and resolved elsewhere. -/
  external : Option Bool := none
  /-- Fields of the enclosing type that the source has to receive first. -/
  requires : Option String := none
  /-- Fields of the returned type that the source resolves below this field without owning them. -/
  provides : Option String := none
deriving DecidableEq

structure FieldDefinition where
  name : String
  type : TypeRef
  /-- Without any, the field is owned by all sources of the enclosing type. -/
  joinFields : List JoinField := []
deriving DecidableEq

structure TypeDefinition where
  name : String
  /-- Declarations in order of preference. -/
  joinTypes : List JoinType := []
  fields : List FieldDefinition := []

structure Blueprint where
  query : String
  mutation : Option String
  subscription : Option String
  sources : List Source
  types : List TypeDefinition

def JoinField.isExternal (f : JoinField) : Bool := f.external.getD false

def TypeDefinition.field? (t : TypeDefinition) (name : String) : Option FieldDefinition :=
  t.fields.find? (·.name = name)

def TypeDefinition.sources (t : TypeDefinition) : List Source := t.joinTypes.map (·.graph)

namespace Blueprint

def type? (b : Blueprint) (name : String) : Option TypeDefinition := b.types.find? (·.name = name)

def rootType (b : Blueprint) : OperationKind → Option String
  | .query => some b.query
  | .mutation => b.mutation
  | .subscription => b.subscription

end Blueprint
end FederatedQuery
