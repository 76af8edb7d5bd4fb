import FederatedQuery.Plan

/-!
The text and the JSON form of plans.
-/
namespace FederatedQuery

def idText (n : Nat) : String := String.ofList (Nat.toDigits 10 n)

def idsText (ids : List Nat) : String := "[" ++ String.intercalate ", " (ids.map idText) ++ "]"

def KeyForwarding.text (k : KeyForwarding) : String := k.sourceField ++ " -> " ++ k.argument

def PlanNode.line (n : PlanNode) (m : MergeSpec) : String :=
  "  [" ++ idText n.id ++ "] " ++ n.source ++
    (if m.attachPath.isRoot then "" else " at " ++ m.attachPath.text) ++
    (if n.dependsOn.isEmpty then "" else " after " ++ idsText n.dependsOn) ++
    (if m.keyForwarding.isEmpty then ""
      else " keys [" ++ String.intercalate ", " (m.keyForwarding.map KeyForwarding.text) ++ "]") ++
    (if n.batchSiblings.isEmpty then "" else " batched " ++ idsText n.batchSiblings) ++ " " ++
    n.fragment.selection.render (if n.fragment.isRoot then some n.fragment.onType else none) ++ "\n"

def PlanNode.toJson (n : PlanNode) : Json :=
  .object [("id", .ofNat n.id), ("source", .string n.source), ("fragment", n.fragment.toJson),
    ("fetch", n.fetch.toJson), ("dependsOn", .array (n.dependsOn.map .ofNat)),
    ("batchSiblings", .array (n.batchSiblings.map .ofNat))]

namespace Plan

def text (p : Plan) : String :=
  "Plan(" ++ p.operationKind.text ++ ") \x7b\n" ++
    String.join ((p.nodes.zip p.mergeSpecs).map fun (n, m) => n.line m) ++ "\x7d"

def toJson (p : Plan) : Json :=
  .object [("operationKind", .string p.operationKind.text), ("rootPath", p.rootPath.toJson),
    ("nodes", .array (p.nodes.map PlanNode.toJson)),
    ("mergeSpecs", .array (p.mergeSpecs.map MergeSpec.toJson))]

end Plan
end FederatedQuery
