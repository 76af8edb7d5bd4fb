import FederatedQuery.Json

/-!
Settings that change the shape of plans, never their meaning.
-/
namespace FederatedQuery

structure PlannerConfig where
  /-- Record which fetches may share a request. -/
  batchSiblings : Bool := true
  typenameInRepresentations : Bool := false
deriving DecidableEq

namespace PlannerConfig

def toJson (c : PlannerConfig) : Json :=
  .object [("batchSiblings", .boolean c.batchSiblings),
    ("typenameInRepresentations", .boolean c.typenameInRepresentations)]

def ofJson (j : Json) : Except DecodeError PlannerConfig := do
  let members ← j.asRecord "struct PlannerConfig"
  let batch ← members.member? "batchSiblings" Json.asBoolean
  let typename ← members.member? "typenameInRepresentations" Json.asBoolean
  let default : PlannerConfig := {}
  pure ⟨batch.getD default.batchSiblings, typename.getD default.typenameInRepresentations⟩

end PlannerConfig
end FederatedQuery
