import FederatedQuery.Proofs.Decomposition.Mirroring
import FederatedQuery.Proofs.Plan.Documents

/-!
What a caller cannot change in a plan. Operations of one shape have plans of one structure: which
sources are asked for which types and keys, and what waits for what, depends on nothing else.
-/
namespace FederatedQuery

structure MergeSpec.Mirrors (m m' : MergeSpec) : Prop where
  marks : m.attachPath.marks = m'.attachPath.marks
  keyForwarding : m.keyForwarding = m'.keyForwarding
  entryField : m.entryField = m'.entryField

structure PlanNode.Mirrors (n m : PlanNode) : Prop where
  id : n.id = m.id
  source : n.source = m.source
  fragment : n.fragment.Mirrors m.fragment
  dependsOn : n.dependsOn = m.dependsOn
  batchSiblings : n.batchSiblings = m.batchSiblings

structure Plan.Mirrors (plan other : Plan) : Prop where
  operationKind : plan.operationKind = other.operationKind
  nodes : List.Forall₂ PlanNode.Mirrors plan.nodes other.nodes
  mergeSpecs : List.Forall₂ MergeSpec.Mirrors plan.mergeSpecs other.mergeSpecs

theorem FetchFragment.Mirrors.isRoot_eq {f g : FetchFragment} (h : f.Mirrors g) :
    f.isRoot = g.isRoot := by
  rw [isRoot, isRoot, h.requiredKeys]

theorem MergeSpec.emit_mirrors (x : SchemaIndex) {f g : FetchFragment} (h : f.Mirrors g) :
    BothOrNeither PlanError.Mirrors MergeSpec.Mirrors (emit x f) (emit x g) := by
  unfold emit
  rw [h.isRoot_eq, h.onType, h.source, h.requiredKeys]
  split
  · exact .ok ⟨h.marks, rfl, rfl⟩
  · split
    · exact .error (.keyForwarding _ _ _ h.marks)
    · exact .ok ⟨h.marks, rfl, rfl⟩

namespace Planner
variable {p : Planner} {o o' : Operation} {d d' : Decomposition}

theorem node_mirrors (hd : d.dependencies = d'.dependencies) {f g : FetchFragment}
    (h : f.Mirrors g) (id : Nat) :
    BothOrNeither PlanError.Mirrors (fun r r' => r.1.Mirrors r'.1 ∧ r.2.Mirrors r'.2)
      (p.node o d f id) (p.node o' d' g id) := by
  have hdepends : dependsOn d id = dependsOn d' id := by
    rw [dependsOn, dependsOn, Decomposition.parentsOf, Decomposition.parentsOf, hd]
  exact (MergeSpec.emit_mirrors p.index h).bind fun m m' hm =>
    .ok ⟨⟨rfl, h.source, h, hdepends, rfl⟩, hm⟩

theorem assignBatches_mirrors (kind : OperationKind) {nodes others : List PlanNode}
    (h : List.Forall₂ PlanNode.Mirrors nodes others) :
    List.Forall₂ PlanNode.Mirrors (assignBatches kind nodes) (assignBatches kind others) := by
  have hbatches : batches kind nodes = batches kind others :=
    batches_congr (h.imp fun n m hn => ⟨hn.id, hn.source, hn.dependsOn, hn.fragment.isRoot_eq⟩)
  rw [assignBatches, assignBatches, hbatches]
  refine List.rel_map (fun n m hn => ?_) h
  exact { hn with batchSiblings := by rw [hn.id] }

theorem build_mirrors (kind : o.kind = o'.kind) (h : d.Mirrors d') :
    BothOrNeither PlanError.Mirrors Plan.Mirrors (p.build o d) (p.build o' d') := by
  have hnodes := BothOrNeither.mapM (forall₂_zipIdx h.fragments 0)
    (E := PlanError.Mirrors) (S := fun r r' => r.1.Mirrors r'.1 ∧ r.2.Mirrors r'.2)
    (f := fun e => p.node o d e.1 e.2) (g := fun e => p.node o' d' e.1 e.2) fun e e' he => by
      rw [he.2]
      exact node_mirrors h.dependencies he.1 e'.2
  refine hnodes.bind fun ns ms hns => .ok ?_
  have hplain : List.Forall₂ PlanNode.Mirrors (ns.map (·.1)) (ms.map (·.1)) :=
    List.rel_map (fun n m hn => hn.1) hns
  refine ⟨kind, ?_, List.rel_map (fun n m hn => hn.2) hns⟩
  dsimp only
  rw [kind]
  split
  · exact assignBatches_mirrors _ hplain
  · exact hplain

end Planner

/-- Operations of one kind, root type and shape have decompositions and plans of one structure,
whatever their aliases, arguments, response paths and hidden fields are. Either both fail, for the
same reason, or both have the same fragments and nodes up to response keys and selections. -/
theorem plan_mirrors (p : Planner) {o o' : Operation} (kind : o.kind = o'.kind)
    (rootType : o.rootType = o'.rootType)
    (shape : SelectionSet.SameShape o.selection o'.selection) :
    BothOrNeither PlanError.Mirrors Decomposition.Mirrors (p.decompose o) (p.decompose o') ∧
    BothOrNeither PlanError.Mirrors Plan.Mirrors (p.plan o) (p.plan o') := by
  have hdecompose := p.decompose_mirrors kind rootType shape
  refine ⟨hdecompose, ?_⟩
  unfold Planner.plan
  rw [kind]
  split
  · exact .error (.unsupported _)
  · exact hdecompose.bind fun d d' hd => Planner.build_mirrors kind hd

def renamedText : String :=
  "{ reviews(n: 5) { product { upc: estimate weight } author { id: name email } __typename id } }"

theorem plan_mirrors_shop :
    (shop.planOf renamedText).nodes.length = 4 ∧
    shopFragments.Mirrors (shop.fragmentsOf renamedText) ∧
    shopPlan.Mirrors (shop.planOf renamedText) := by
  obtain ⟨kind, rootType, shape⟩ : shopQuery.kind = (shop.operationOf renamedText).kind ∧
      shopQuery.rootType = (shop.operationOf renamedText).rootType ∧
      SelectionSet.SameShape shopQuery.selection (shop.operationOf renamedText).selection := by
    decide +kernel
  obtain ⟨hdecompose, hplan, hcount⟩ :
      (shop.decompose (shop.operationOf renamedText)).isOk = true ∧
      (shop.plan (shop.operationOf renamedText)).isOk = true ∧
      (shop.planOf renamedText).nodes.length = 4 := by
    decide +kernel
  obtain ⟨hfragments, hnodes⟩ := plan_mirrors shop kind rootType shape
  exact ⟨hcount, hfragments.of_ok shop_decompose (Planner.fragmentsOf_of_isOk hdecompose),
    hnodes.of_ok shop_plan (ok_of_isOk hplan _)⟩

end FederatedQuery
