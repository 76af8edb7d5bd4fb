import FederatedQuery.Document
import FederatedQuery.ResponsePath
import FederatedQuery.Selection

/-!
Operations that fit a schema: fragments are gone, selections of one response key are one, and every
field knows the type it is selected on.
-/
namespace FederatedQuery

structure VariableDefinition where
  name : String
  type : String
deriving DecidableEq

structure Operation where
  kind : OperationKind
  name? : Option String
  rootType : String
  definitions : List VariableDefinition
  selection : SelectionSet

def Operation.declared? (o : Operation) (name : String) : Option VariableDefinition :=
  o.definitions.find? (·.name = name)

inductive QueryFault where
  | unknownOperation (name : String)
  | operationNameNeeded
  | noRoot (kind : OperationKind)
  | unknownType (type : String)
  | unknownFragment (name : String)
  | unknownField (type field : String)
  | selectionNeeded (field type : String)
  | selectionRefused (field type : String)
  | unknownVariable (name : String)
  | conflict (key : String)
deriving DecidableEq

def QueryFault.message : QueryFault → String
  | unknownOperation name => "operation `" ++ name ++ "` is not defined"
  | operationNameNeeded => "an operation name is required when several operations are defined"
  | noRoot kind => "the schema defines no " ++ kind.text ++ " root"
  | unknownType type => "type `" ++ type ++ "` is not defined"
  | unknownFragment name => "fragment `" ++ name ++ "` is not defined"
  | unknownField type field => "`" ++ type ++ "` has no field `" ++ field ++ "`"
  | selectionNeeded field type => "field `" ++ field ++ "` of type `" ++ type ++ "` needs a selection"
  | selectionRefused field type =>
    "field `" ++ field ++ "` of type `" ++ type ++ "` has no sub-selection"
  | unknownVariable name => "variable `$" ++ name ++ "` is not defined"
  | conflict key => "conflicting selections for `" ++ key ++ "`"

structure InvalidQuery where
  fault : QueryFault
  keys : List String
deriving DecidableEq

namespace InvalidQuery

def path (e : InvalidQuery) : ResponsePath := .ofKeys e.keys

def message (e : InvalidQuery) : String := e.fault.message ++ " at " ++ e.path.text

end InvalidQuery
end FederatedQuery
