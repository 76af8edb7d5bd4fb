import FederatedQuery.Plan.Text
import FederatedQuery.Validation

/-!
The structural guarantees of a plan, checked from the plan alone.
-/
namespace FederatedQuery

inductive PlanFault where
  | specCount (specs nodes : Nat)
  | misplaced (position : Nat)
  | lateParent (parent : Nat)
  | missingParent (parent : Nat)
  | unselectedKey (key : String) (parent : Nat) (path : ResponsePath)
  | foreignSibling (sibling : Nat)
deriving DecidableEq

def PlanFault.message : PlanFault → String
  | specCount specs nodes => idText specs ++ " merge specs for " ++ idText nodes ++ " nodes"
  | misplaced position => "sits at position " ++ idText position
  | lateParent parent => "depends on node " ++ idText parent ++ " which does not precede it"
  | missingParent parent => "depends on missing node " ++ idText parent
  | unselectedKey key parent path => "key field `" ++ key ++ "` is not selected by node " ++
      idText parent ++ " at " ++ path.text
  | foreignSibling sibling => "node " ++ idText sibling ++ " cannot be batched with it"

namespace Plan

/-- The selection of the parent that an entity of the child comes from. It is reached by response
keys; the type that the last of them returns encloses it. -/
def keyScope (parent child : FetchFragment) : Option (SelectionSet × Option String) :=
  match child.providedPath.keysBelow? parent.providedPath with
  | none => none
  | some keys =>
    match keys.getLast? with
    | none => some (parent.selection, none)
    | some last =>
      ((parent.selection.findPath? keys.dropLast).bind (·.find? last)).map fun field =>
        (field.children, some field.ofType)

def selectsKey (type key : String) (scope : SelectionSet × Option String) : Bool :=
  scope.1.any fun field =>
    field.name = key && field.alias?.isNone && (field.onType = type || scope.2 = some field.onType)

def validateKeys (p : Plan) (n : PlanNode) (parentId : Nat) : Validated PlanFault Unit :=
  match p.mergeSpec? n.id with
  | none => .valid ()
  | some m =>
    if m.keyForwarding.isEmpty then .valid ()
    else
      match p.node? parentId with
      | none => .fail (.missingParent parentId)
      | some parent =>
        let scope := keyScope parent.fragment n.fragment
        (Validated.traverse (fun (k : KeyForwarding) =>
          Validated.check (scope.any (selectsKey n.fragment.onType k.sourceField))
            (PlanFault.unselectedKey k.sourceField parent.id n.fragment.providedPath))
          m.keyForwarding).discard

def validateParent (p : Plan) (n : PlanNode) (parentId : Nat) : Validated PlanFault Unit :=
  if parentId < n.id then p.validateKeys n parentId else .fail (.lateParent parentId)

def areSiblings (n other : PlanNode) : Bool :=
  other.id ≠ n.id && other.source = n.source && other.dependsOn = n.dependsOn

def validateSibling (p : Plan) (n : PlanNode) (sibling : Nat) : Validated PlanFault Unit :=
  Validated.check ((p.node? sibling).any (areSiblings n)) (PlanFault.foreignSibling sibling)

def validateNode (p : Plan) (position : Nat) (n : PlanNode) : Validated PlanFault Unit :=
  ((Validated.check (n.id = position) (PlanFault.misplaced position)).zip
    (Validated.traverse (p.validateParent n) n.dependsOn)).zip
    (Validated.traverse (p.validateSibling n) n.batchSiblings) |>.discard

/-- Ids match positions, parents come first and select every key handed on, batch siblings share
source and parents. -/
def validate (p : Plan) : Validated PlanFault Unit :=
  ((Validated.check (p.mergeSpecs.length = p.nodes.length)
      (PlanFault.specCount p.mergeSpecs.length p.nodes.length)).zip
    (Validated.traverse (fun (n, position) =>
      (p.validateNode position n).within ("node " ++ idText n.id)) p.nodes.zipIdx)).discard

end Plan
end FederatedQuery
