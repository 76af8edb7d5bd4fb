import FederatedQuery.Blueprint.Codec
import FederatedQuery.Grammar.Sdl
import FederatedQuery.SchemaIndex

/-!
Blueprints from schema documents whose types and fields carry join directives. Documents name a
source by a value of the enumeration `join__Graph`; a blueprint names it by what that value says.
-/
namespace FederatedQuery

inductive SdlError where
  | parse (error : ParseError)
  | schema (causes : List (Cause SchemaFault))
deriving DecidableEq

namespace Sdl

def graphEnum : String := "join__Graph"

def isFederationType (name : String) : Bool :=
  name.startsWith "join__" || name.startsWith "link__" || name.startsWith "_"

/-- The roots of all schema blocks; the first block to name one counts. -/
def rootNamed (kind : OperationKind) (ds : List Definition) : Option String :=
  ds.findSome? fun d =>
    match d.kind with
    | .schema _ roots => roots.lookup kind
    | .type _ | .directive => none

def compositeTypes (ds : List Definition) : List (TypeNode × List FieldNode) :=
  ds.filterMap fun d =>
    match d.kind with
    | .type t =>
      match t.kind with
      | .object fields | .interface fields =>
        if isFederationType t.name then none else some (t, fields)
      | .enumeration _ | .other => none
    | .schema .. | .directive => none

def graphValues (ds : List Definition) : Option (List EnumValueNode) :=
  (ds.filterMap fun d =>
    match d.kind with
    | .type t =>
      match t.kind with
      | .enumeration values => if t.name = graphEnum then some values else none
      | .object _ | .interface _ | .other => none
    | .schema .. | .directive => none).getLast?

def argumentRecord (d : Directive) : Json :=
  .object (d.arguments.map fun a => (a.name, a.value.toJson))

def readDirectives {α : Type} (directiveName : String) (read : Json → Except DecodeError α)
    (ds : List Directive) : Validated SchemaFault (List α) :=
  Validated.traverse (fun d =>
    match read (argumentRecord d) with
    | .ok a => .valid a
    | .error e => .fail (.invalidArguments directiveName e))
    (ds.filter fun d => d.name = directiveName)

def readGraphName (j : Json) : Except DecodeError (Option String) := do
  let members ← j.asRecord "struct JoinGraph"
  Option.join <$> members.member? "name" (Json.asOption Json.asString)

def graphEntry (v : EnumValueNode) : Validated SchemaFault (String × Source) :=
  ((readDirectives "join__graph" readGraphName v.directives).map fun names =>
    (v.name, (names.findSome? id).getD v.name)).within v.name

def graphEntries (values : List EnumValueNode) : Validated SchemaFault (List (String × Source)) :=
  (Validated.traverse graphEntry values).within graphEnum

def resolveGraph (graphs : Table Source) (graph : String) : Validated SchemaFault Source :=
  .ofOption (.unknownGraph graph) (graphs.find? graph)

def joinType (graphs : Table Source) (j : JoinType) : Validated SchemaFault JoinType :=
  (resolveGraph graphs j.graph).map fun graph => { j with graph := graph }

def joinField (graphs : Table Source) (j : JoinField) : Validated SchemaFault JoinField :=
  match j.graph with
  | some graph => (resolveGraph graphs graph).map fun graph => { j with graph := some graph }
  | none => .valid j

def fieldDefinition (graphs : Table Source) (f : FieldNode) :
    Validated SchemaFault FieldDefinition :=
  (((readDirectives "join__field" JoinField.ofJson f.directives).andThen
    (Validated.traverse (joinField graphs))).map fun joinFields =>
      (⟨f.name, f.type, joinFields⟩ : FieldDefinition)).within f.name

def typeDefinition (graphs : Table Source) (t : TypeNode) (fields : List FieldNode) :
    Validated SchemaFault TypeDefinition :=
  let joinTypes := (readDirectives "join__type" JoinType.ofJson t.directives).andThen
    (Validated.traverse (joinType graphs))
  ((joinTypes.zip (Validated.traverse (fieldDefinition graphs) fields)).map fun (joinTypes, fields) =>
    (⟨t.name, joinTypes, fields⟩ : TypeDefinition)).within t.name

/-- The blueprint that the definitions describe. Roots that no block names are called after their
kind; those for mutations and subscriptions only exist with a type of that name. -/
def blueprint (ds : List Definition) : Validated SchemaFault Blueprint :=
  let types := compositeTypes ds
  let root (kind : OperationKind) (default : String) : Option String :=
    (rootNamed kind ds).or (if types.any (·.1.name = default) then some default else none)
  let entries := match graphValues ds with
    | some values => graphEntries values
    | none => .fail .noGraphEnum
  entries.andThen fun entries =>
    (Validated.traverse (fun (t, fields) => typeDefinition (Table.ofList entries) t fields)
      types).map fun types =>
      ⟨(rootNamed .query ds).getD Blueprint.defaultQuery, root .mutation "Mutation",
        root .subscription "Subscription", entries.map (·.2), types⟩

end Sdl

def Blueprint.parse (text : String) : Except SdlError Blueprint :=
  match Sdl.parse text with
  | .error e => .error (.parse e)
  | .ok ds =>
    match Sdl.blueprint ds with
    | .valid b => .ok b
    | .invalid causes => .error (.schema causes)

end FederatedQuery
