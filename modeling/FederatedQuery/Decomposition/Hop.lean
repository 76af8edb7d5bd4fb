import FederatedQuery.PlanError
import FederatedQuery.PlannerConfig

/-!
Hops between sources: who resolves a field, which keys a source needs to enter a type, whether the
source at hand can supply them, and the hidden fields that carry them.
-/
namespace FederatedQuery

structure Planner where
  index : SchemaIndex
  config : PlannerConfig := {}

inductive Hop where
  | direct (keys : List String)
  /-- Another source is entered with its own keys first and selects the keys instead. -/
  | bridged (base : Source) (baseKeys keys : List String)
deriving DecidableEq

namespace SchemaIndex

def chooseOwner (x : SchemaIndex) (field : SelectionNode) (current? : Option Source)
    (path : ResponsePath) : Except PlanError Source :=
  match x.ownersOf field.onType field.name, current? with
  | [], _ => .error (.unresolvable field.onType field.name (path.field field.responseKey))
  | first :: others, some current =>
    .ok (if current ∈ first :: others then current else first)
  | first :: _, none => .ok first

def resolvesAll (x : SchemaIndex) (type : String) (source : Source) (fields : List String) : Bool :=
  fields.all fun f => source ∈ x.ownersOf type f

/-- The key of a type that a source wants, for which the first one declared may stand in. -/
def keyFor (x : SchemaIndex) (type : String) (source : Source) : List String :=
  match x.entryPoint? type source with
  | some e => e.key
  | none => x.entityKeyOf type

def requiresOf (x : SchemaIndex) (type field : String) (source : Source) : List String :=
  ((x.field? type field).map (·.requiresIn source)).getD []

def forwardedKeys (x : SchemaIndex) (type : String) (target : Source) (fields : List String) :
    List String :=
  fields.foldl (fun ks f => addNew ks (x.requiresOf type f target)) (x.keyFor type target)

/-- A third source that `source` can enter and that selects the keys itself, with its own key. -/
def bridge? (x : SchemaIndex) (type : String) (source target : Source) (keys : List String) :
    Option (Source × List String) :=
  (x.sourcesOf type).findSome? fun base =>
    if base = source ∨ base = target then none
    else (x.entryPoint? type base).bind fun e =>
      if x.resolvesAll type source e.key && x.resolvesAll type base keys then some (base, e.key)
      else none

def hop (x : SchemaIndex) (type : String) (source target : Source) (fields : List String) :
    Except HopFault Hop :=
  if (x.keyFor type target).isEmpty then .error .noEntityKey
  else
    let keys := x.forwardedKeys type target fields
    if x.resolvesAll type source keys then .ok (.direct keys)
    else
      match x.bridge? type source target keys with
      | some (base, baseKeys) => .ok (.bridged base baseKeys keys)
      | none => .error (.keysMissing source (keys.filter fun k => source ∉ x.ownersOf type k))

end SchemaIndex

/-- Whether a selection holds a key of `type` already. A field selected on the enclosing type
serves as well. -/
def SelectionSet.holdsKey (s : SelectionSet) (type enclosing key : String) : Bool :=
  s.any fun n => n.name = key && n.alias?.isNone && (n.onType = type || n.onType = enclosing)

namespace Planner

def keyNode (p : Planner) (keys : List String) (type key : String) : SelectionNode :=
  let ofType := ((p.index.field? type key).map (·.ofType)).getD "String"
  ⟨key, none, [], keys ++ [key], type, ofType, [], true⟩

def carried (p : Planner) (keys : List String) : List String :=
  if p.config.typenameInRepresentations then typenameField :: keys else keys

def injectKeys (p : Planner) (place : List String) (type enclosing : String) (keys : List String)
    (s : SelectionSet) : SelectionSet :=
  (p.carried keys).foldl (fun s key =>
    if s.holdsKey type enclosing key then s else s ++ [p.keyNode place type key]) s

end Planner
end FederatedQuery
