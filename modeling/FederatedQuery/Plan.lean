import FederatedQuery.Decomposition.Split
import FederatedQuery.FetchOperation
import FederatedQuery.Grouping

/-!
Plans: fetches in an order in which every one follows those it depends on, and how their results are
merged.
-/
namespace FederatedQuery

structure PlanNode where
  id : Nat
  source : Source
  fragment : FetchFragment
  fetch : FetchOperation
  dependsOn : List Nat
  batchSiblings : List Nat

structure Plan where
  operationKind : OperationKind
  nodes : List PlanNode
  mergeSpecs : List MergeSpec

namespace Plan

def rootPath (_ : Plan) : ResponsePath := .root

def node? (p : Plan) (id : Nat) : Option PlanNode := p.nodes[id]?

def mergeSpec? (p : Plan) (id : Nat) : Option MergeSpec := p.mergeSpecs[id]?

/-- The level of each node, given the levels of the nodes in front: one above the highest of the
nodes it depends on. -/
def levelsFrom (levels : List Nat) : List PlanNode → List Nat
  | [] => levels
  | n :: rest =>
    levelsFrom (levels ++ [((n.dependsOn.filterMap (levels[·]?)).map (· + 1)).foldl max 0]) rest

def levels (p : Plan) : List Nat := levelsFrom [] p.nodes

def waves (p : Plan) : List (List Nat) :=
  (List.range ((p.levels.map (· + 1)).max?.getD 0)).map fun level =>
    ((p.nodes.zip p.levels).filter (·.2 = level)).map (·.1.id)

end Plan

namespace Planner

def dependsOn (d : Decomposition) (child : Nat) : List Nat :=
  ascending ((d.parentsOf child).map (·.parent))

def node (p : Planner) (o : Operation) (d : Decomposition) (f : FetchFragment) (id : Nat) :
    Except PlanError (PlanNode × MergeSpec) := do
  let m ← MergeSpec.emit p.index f
  return (⟨id, f.source, f, .make o f m, dependsOn d id, []⟩, m)

/-- Whether a node may share a request. Root fetches of a mutation run alone. -/
def isBatchable (kind : OperationKind) (n : PlanNode) : Bool :=
  kind ≠ .mutation || !n.fragment.isRoot

def batches (kind : OperationKind) (nodes : List PlanNode) : List (List Nat) :=
  (gather ((nodes.filter (isBatchable kind)).map fun n => ((n.source, n.dependsOn), n.id))).map (·.2)

def siblings (batches : List (List Nat)) (id : Nat) : List Nat :=
  ascending (((batches.find? (id ∈ ·)).getD []).filter (· ≠ id))

def assignBatches (kind : OperationKind) (nodes : List PlanNode) : List PlanNode :=
  let bs := batches kind nodes
  nodes.map fun n => { n with batchSiblings := siblings bs n.id }

def build (p : Planner) (o : Operation) (d : Decomposition) : Except PlanError Plan := do
  let nodes ← d.fragments.zipIdx.mapM fun (f, id) => p.node o d f id
  let plain := nodes.map (·.1)
  return ⟨o.kind, if p.config.batchSiblings then assignBatches o.kind plain else plain,
    nodes.map (·.2)⟩

def plan (p : Planner) (o : Operation) : Except PlanError Plan :=
  if o.kind = .subscription then .error (.unsupported o.kind)
  else do p.build o (← p.decompose o)

def planQuery (p : Planner) (text : String) (name? : Option String) : Except PlanError Plan :=
  match Operation.parse text name? p.index with
  | .error e => .error (.query e)
  | .ok o => p.plan o

end Planner
end FederatedQuery
