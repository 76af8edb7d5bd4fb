import FederatedQuery.Blueprint

/-!
The JSON form of blueprints, written and read.
-/
namespace FederatedQuery

namespace JoinType

def toJson (t : JoinType) : Json :=
  .object [("graph", .string t.graph), ("key", Json.ofOption .string t.key),
    ("resolvable", .boolean t.resolvable), ("entryField", Json.ofOption .string t.entryField),
    ("arguments", Json.ofTable .string t.arguments)]

def ofJson (j : Json) : Except DecodeError JoinType := do
  let members ← j.asRecord "struct JoinType"
  let arguments ← members.member? "arguments" (Json.asTable Json.asString)
  let entryField ← members.member? "entryField" (Json.asOption Json.asString)
  let graph ← members.member? "graph" Json.asString
  let key ← members.member? "key" (Json.asOption Json.asString)
  let resolvable ← members.member? "resolvable" Json.asBoolean
  pure { graph := ← Json.required "graph" graph, key := key.join, resolvable := resolvable.getD true,
         entryField := entryField.join, arguments := arguments.getD Table.empty }

end JoinType

namespace JoinField

def toJson (f : JoinField) : Json :=
  .object [("graph", Json.ofOption .string f.graph), ("external", Json.ofOption .boolean f.external),
    ("requires", Json.ofOption .string f.requires), ("provides", Json.ofOption .string f.provides)]

def ofJson (j : Json) : Except DecodeError JoinField := do
  let members ← j.asRecord "struct JoinField"
  let external ← members.member? "external" (Json.asOption Json.asBoolean)
  let graph ← members.member? "graph" (Json.asOption Json.asString)
  let provides ← members.member? "provides" (Json.asOption Json.asString)
  let requires ← members.member? "requires" (Json.asOption Json.asString)
  pure { graph := graph.join, external := external.join, requires := requires.join,
         provides := provides.join }

end JoinField

namespace FieldDefinition

def toJson (f : FieldDefinition) : Json :=
  .object [("name", .string f.name), ("ofType", f.type.toJson),
    ("joinFields", .array (f.joinFields.map JoinField.toJson))]

def ofJson (j : Json) : Except DecodeError FieldDefinition := do
  let members ← j.asRecord "struct FieldDefinition"
  let joinFields ← members.member? "joinFields" (Json.asList JoinField.ofJson)
  let name ← members.member? "name" Json.asString
  let type ← members.member? "ofType" TypeRef.ofJson
  pure { name := ← Json.required "name" name, type := ← Json.required "ofType" type,
         joinFields := joinFields.getD [] }

end FieldDefinition

namespace TypeDefinition

def toJson (t : TypeDefinition) : Json :=
  .object [("name", .string t.name), ("joinTypes", .array (t.joinTypes.map JoinType.toJson)),
    ("fields", .array (t.fields.map FieldDefinition.toJson))]

def ofJson (j : Json) : Except DecodeError TypeDefinition := do
  let members ← j.asRecord "struct TypeDefinition"
  let fields ← members.member? "fields" (Json.asList FieldDefinition.ofJson)
  let joinTypes ← members.member? "joinTypes" (Json.asList JoinType.ofJson)
  let name ← members.member? "name" Json.asString
  pure { name := ← Json.required "name" name, joinTypes := joinTypes.getD [], fields := fields.getD [] }

end TypeDefinition

namespace Blueprint

def defaultQuery : String := "Query"

def toJson (b : Blueprint) : Json :=
  .object [("query", .string b.query), ("mutation", Json.ofOption .string b.mutation),
    ("subscription", Json.ofOption .string b.subscription),
    ("sources", .array (b.sources.map .string)), ("types", .array (b.types.map TypeDefinition.toJson))]

def ofJson (j : Json) : Except DecodeError Blueprint := do
  let members ← j.asRecord "struct Blueprint"
  let mutation ← members.member? "mutation" (Json.asOption Json.asString)
  let query ← members.member? "query" Json.asString
  let sources ← members.member? "sources" (Json.asList Json.asString)
  let subscription ← members.member? "subscription" (Json.asOption Json.asString)
  let types ← members.member? "types" (Json.asList TypeDefinition.ofJson)
  pure { query := query.getD defaultQuery, mutation := mutation.join,
         subscription := subscription.join, sources := ← Json.required "sources" sources,
         types := ← Json.required "types" types }

end Blueprint
end FederatedQuery
