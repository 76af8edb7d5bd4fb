import FederatedQuery.PlanError

/-!
How the result of a fetch is stitched into the response.
-/
namespace FederatedQuery

structure KeyForwarding where
  sourceField : String
  argument : String
deriving DecidableEq

structure MergeSpec where
  attachPath : ResponsePath
  keyForwarding : List KeyForwarding
  entryField : Option String
deriving DecidableEq

namespace MergeSpec

def isRoot (m : MergeSpec) : Bool := m.keyForwarding.isEmpty

def emit (x : SchemaIndex) (f : FetchFragment) : Except PlanError MergeSpec :=
  if f.isRoot then .ok ⟨f.providedPath, [], none⟩
  else
    match x.entryPoint? f.onType f.source with
    | none => .error (.keyForwarding f.onType f.source f.requiredKeys f.providedPath)
    | some e => .ok ⟨f.providedPath, f.requiredKeys.map fun k => ⟨k, e.argumentFor k⟩, some e.field⟩

def toJson (m : MergeSpec) : Json :=
  .object ([("attachPath", m.attachPath.toJson),
    ("keyForwarding", .array (m.keyForwarding.map fun k =>
      .object [("sourceField", .string k.sourceField), ("argument", .string k.argument)]))] ++
    (m.entryField.map fun e => ("entryField", Json.string e)).toList)

end MergeSpec
end FederatedQuery
