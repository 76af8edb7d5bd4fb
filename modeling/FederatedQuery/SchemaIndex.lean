import FederatedQuery.Blueprint
import FederatedQuery.Grouping
import FederatedQuery.Text.Blank
import FederatedQuery.Validation

/-!
The index of a schema: who resolves a field, and how a type is entered again in another source.
It is built from a blueprint whose declarations fit together; every problem found is reported.
-/
namespace FederatedQuery

inductive SchemaFault where
  | noGraphEnum
  | unknownGraph (graph : Source)
  | invalidArguments (directiveName : String) (cause : DecodeError)
  | duplicateType (type : String)
  | undeclaredSource (source : Source)
  | foreignOwner (owner : Source) (type : String)
  | nestedFieldSet (fields : String)
  | unknownRequired (field type : String)
  | unknownKeyField (field : String)
  | unknownOverride (field : String) (source : Source)
  | unknownRoot (type : String)
  | unknownProvided (field type : String)
  | noEntityKey (sources : List Source)
deriving DecidableEq

def SchemaFault.message : SchemaFault → String
  | noGraphEnum => "enumeration `join__Graph` is not defined"
  | unknownGraph g => "graph `" ++ g ++ "` is not a value of `join__Graph`"
  | invalidArguments d e => "invalid `@" ++ d ++ "` arguments: " ++ e.message
  | duplicateType t => "type `" ++ t ++ "` is defined more than once"
  | undeclaredSource s => "source `" ++ s ++ "` is not declared by the schema"
  | foreignOwner o t => "field is owned by `" ++ o ++ "` which does not declare `" ++ t ++ "`"
  | nestedFieldSet f => "nested field set `" ++ f ++ "` is not supported"
  | unknownRequired f t => "required field `" ++ f ++ "` is not defined on `" ++ t ++ "`"
  | unknownKeyField f => "entity key field `" ++ f ++ "` is not defined on the type"
  | unknownOverride f s => "argument override for `" ++ f ++ "` in `" ++ s ++ "` does not name a field"
  | unknownRoot t => "root type `" ++ t ++ "` is not defined"
  | unknownProvided f t => "provided field `" ++ f ++ "` is not defined on `" ++ t ++ "`"
  | noEntityKey ss => "type is reachable from sources [" ++ String.intercalate ", " ss ++
      "] but declares no entity key"

structure FieldIndex where
  /-- Sources able to resolve the field, the preferred one first. -/
  owners : List Source
  ofType : String
  isList : Bool
  requires : Table (List String)
  provides : Table (List String)

structure EntryPoint where
  source : Source
  field : String
  key : List String
  arguments : Table String

structure TypeIndex where
  sources : List Source
  /-- The first key declared, empty for a type that cannot be entered. -/
  key : List String
  fields : Table FieldIndex
  entryPoints : Table EntryPoint

structure SchemaIndex where
  query : String
  mutation : Option String
  subscription : Option String
  types : Table TypeIndex

/-- Fields of the enclosing type that `source` has to receive next to the key. -/
def FieldIndex.requiresIn (f : FieldIndex) (source : Source) : List String :=
  (f.requires.find? source).getD []

/-- Fields of the returned type that `source` resolves below this field. -/
def FieldIndex.providesIn (f : FieldIndex) (source : Source) : List String :=
  (f.provides.find? source).getD []

def EntryPoint.argumentFor (e : EntryPoint) (field : String) : String :=
  (e.arguments.find? field).getD field

namespace SchemaIndex

def hasType (x : SchemaIndex) (type : String) : Bool := x.types.contains type

def rootType (x : SchemaIndex) : OperationKind → Option String
  | .query => some x.query
  | .mutation => x.mutation
  | .subscription => x.subscription

def isRootType (x : SchemaIndex) (type : String) : Bool :=
  x.query = type || x.mutation = some type || x.subscription = some type

def sourcesOf (x : SchemaIndex) (type : String) : List Source :=
  ((x.types.find? type).map (·.sources)).getD []

def field? (x : SchemaIndex) (type field : String) : Option FieldIndex :=
  (x.types.find? type).bind (·.fields.find? field)

def ownersOf (x : SchemaIndex) (type field : String) : List Source :=
  if field = typenameField then x.sourcesOf type
  else ((x.field? type field).map (·.owners)).getD []

def entityKeyOf (x : SchemaIndex) (type : String) : List String :=
  ((x.types.find? type).map (·.key)).getD []

def entryPoint? (x : SchemaIndex) (type : String) (source : Source) : Option EntryPoint :=
  (x.types.find? type).bind (·.entryPoints.find? source)

end SchemaIndex

def defaultEntryField : String := "_entities"

def fieldSet (fields : String) : Validated SchemaFault (List String) :=
  if '{' ∈ fields.toList ∨ '}' ∈ fields.toList then .fail (.nestedFieldSet fields)
  else .valid (Text.words fields)

namespace TypeDefinition

def checkField (t : TypeDefinition) (fault : String → SchemaFault) (name : String) :
    Validated SchemaFault String :=
  if (t.field? name).isSome then .valid name else .fail (fault name)

def keyDeclarations (t : TypeDefinition) : List (Source × String) :=
  t.joinTypes.filterMap fun j =>
    match j.key with
    | some key => if (Text.words key).isEmpty then none else some (j.graph, key)
    | none => none

def entityKeys (t : TypeDefinition) : Validated SchemaFault (List (Source × List String)) :=
  Validated.traverse (fun (graph, key) =>
    ((((fieldSet key).andThen (Validated.traverse (t.checkField .unknownKeyField))).within graph).map
      fun fields => (graph, fields))) t.keyDeclarations

/-- Declarations by which the type can be entered, each with the first key of its source. -/
def entrances (t : TypeDefinition) (keys : List (Source × List String)) :
    List (JoinType × List String) :=
  t.joinTypes.filterMap fun j =>
    if j.resolvable then (keys.lookup j.graph).map fun key => (j, key) else none

def entryPoint (t : TypeDefinition) (j : JoinType) (key : List String) :
    Validated SchemaFault (Source × EntryPoint) :=
  (Validated.traverse (fun field =>
    Validated.check (key.contains field || (t.field? field).isSome)
      (SchemaFault.unknownOverride field j.graph)) j.arguments.keys).map fun _ =>
    (j.graph, ⟨j.graph, j.entryField.getD defaultEntryField, key, j.arguments⟩)

def entryPoints (t : TypeDefinition) (keys : List (Source × List String)) :
    Validated SchemaFault (Table EntryPoint) :=
  (Validated.traverse (fun (j, key) => t.entryPoint j key) (t.entrances keys)).map Table.ofList

def ownersOf (t : TypeDefinition) (f : FieldDefinition) : List Source :=
  if f.joinFields.isEmpty then t.sources
  else (f.joinFields.filter fun j => !j.isExternal).filterMap (·.graph)

def indexField (t : TypeDefinition) (f : FieldDefinition) : Validated SchemaFault FieldIndex :=
  let owners := t.ownersOf f
  let owned := Validated.traverse (fun owner =>
    Validated.check (t.sources.contains owner) (SchemaFault.foreignOwner owner t.name)) owners
  let requires := Validated.traverse (fun (graph, fields) =>
      ((fieldSet fields).andThen
        (Validated.traverse (t.checkField fun r => .unknownRequired r t.name))).map
        fun names => (graph, names))
    (f.joinFields.filterMap fun j => j.graph.bind fun g => j.requires.map fun r => (g, r))
  let provides := Validated.traverse (fun (graph, fields) =>
      (fieldSet fields).map fun names => (graph, names))
    (f.joinFields.filterMap fun j => j.graph.bind fun g => j.provides.map fun p => (g, p))
  (((owned.zip requires).zip provides).map fun ((_, requires), provides) =>
    (⟨owners, f.type.name, f.type.isList, Table.ofList requires, Table.ofList provides⟩ :
      FieldIndex)).within f.name

def index (sources : List Source) (t : TypeDefinition) : Validated SchemaFault TypeIndex :=
  let declared := Validated.traverse (fun source =>
    Validated.check (sources.contains source) (SchemaFault.undeclaredSource source)) t.sources
  let fields := Validated.traverse (fun f => (t.indexField f).map fun x => (f.name, x)) t.fields
  ((declared.zip t.entityKeys).zip fields).andThen fun ((_, keys), fields) =>
    (t.entryPoints keys).map fun entryPoints =>
      ⟨t.sources, ((keys.head?).map (·.2)).getD [], Table.ofList fields, entryPoints⟩

end TypeDefinition

namespace SchemaIndex

def checkRoots (x : SchemaIndex) : Validated SchemaFault Unit :=
  (Validated.traverse (fun root => Validated.check (x.hasType root) (SchemaFault.unknownRoot root))
    (x.query :: x.mutation.toList ++ x.subscription.toList)).discard

def strayProvided (x : SchemaIndex) (f : FieldIndex) : List String :=
  f.provides.values.flatten.filter fun p =>
    (x.field? f.ofType p).isNone && p != typenameField

def checkProvides (x : SchemaIndex) : Validated SchemaFault Unit :=
  (Validated.traverse (fun (typeName, type) =>
    (Validated.traverse (fun (fieldName, f) =>
      (Validated.traverse (fun p =>
        (.fail (.unknownProvided p f.ofType) : Validated SchemaFault Unit))
        (x.strayProvided f)).within fieldName) type.fields.entries).within typeName)
    x.types.entries).discard

def reaching (x : SchemaIndex) : Table (List Source) :=
  (x.types.values.flatMap fun type => type.fields.values).foldl (fun reached f =>
    reached.insert f.ofType (addNew ((reached.find? f.ofType).getD []) f.owners)) Table.empty

/-- A type reached from several sources has to be enterable, unless each of them resolves all of
its fields. -/
def checkReached (x : SchemaIndex) (typeName : String) (sources : List Source) :
    Validated SchemaFault Unit :=
  match x.types.find? typeName with
  | none => .valid ()
  | some type =>
    let isShared := sources.all fun s => type.fields.values.all fun f => f.owners.contains s
    if sources.length < 2 || !type.key.isEmpty || isShared || x.isRootType typeName then .valid ()
    else (Validated.fail (.noEntityKey sources)).within typeName

def checkReachability (x : SchemaIndex) : Validated SchemaFault Unit :=
  (Validated.traverse (fun (typeName, sources) => x.checkReached typeName sources)
    x.reaching.entries).discard

end SchemaIndex

namespace Blueprint

def checkDuplicates (b : Blueprint) : Validated SchemaFault Unit :=
  (Validated.traverse (fun name => (.fail (.duplicateType name) : Validated SchemaFault Unit))
    (repeatedAfter [] (b.types.map (·.name)))).discard

def index (b : Blueprint) : Validated SchemaFault SchemaIndex :=
  (b.checkDuplicates.andThen fun _ =>
    Validated.traverse (fun t => ((t.index b.sources).map fun x => (t.name, x)).within t.name)
      b.types).andThen fun types =>
  let x : SchemaIndex := ⟨b.query, b.mutation, b.subscription, Table.ofList types⟩
  (x.checkRoots.zip x.checkProvides).andThen fun _ => x.checkReachability.map fun _ => x

end Blueprint
end FederatedQuery
