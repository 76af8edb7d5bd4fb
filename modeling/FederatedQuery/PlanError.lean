import FederatedQuery.Decomposition
import FederatedQuery.Operation.Parse

/-!
Why an operation has no plan.
-/
namespace FederatedQuery

inductive HopFault where
  | noEntityKey
  | keysMissing (source : Source) (keys : List String)
deriving DecidableEq

def HopFault.message : HopFault → String
  | noEntityKey => "the type declares no entity key"
  | keysMissing source keys => "`" ++ source ++ "` cannot resolve [" ++
      String.intercalate ", " keys ++ "] and no other source supplies them"

inductive PlanError where
  | query (error : QueryError)
  | unsupported (kind : OperationKind)
  | unresolvable (type field : String) (path : ResponsePath)
  | ungroupable (type : String) (source target : Source) (fault : HopFault) (path : ResponsePath)
  | keyForwarding (type : String) (target : Source) (keys : List String) (path : ResponsePath)
deriving DecidableEq

def PlanError.message : PlanError → String
  | query (.parse e) => e.message
  | query (.invalid e) => e.message
  | unsupported kind => kind.text ++ " operations cannot be planned"
  | unresolvable type field path =>
    "no source can resolve `" ++ type ++ "." ++ field ++ "` at " ++ path.text
  | ungroupable type source target fault path =>
    "`" ++ type ++ "` at " ++ path.text ++ " is resolved by `" ++ source ++ "` but `" ++ target ++
      "` is needed: " ++ fault.message
  | keyForwarding type target keys path =>
    "`" ++ target ++ "` declares no entry point for `" ++ type ++ "` receiving `" ++
      String.intercalate " " keys ++ "` at " ++ path.text

end FederatedQuery
