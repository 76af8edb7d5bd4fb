import FederatedQuery.Proofs.Decomposition.Configuration
import FederatedQuery.Proofs.Plan.Validity

/-!
What the configuration changes in a plan: which nodes are recorded as batch siblings, and the type
names that are carried next to keys. Whether there is a plan does not depend on it.
-/
namespace FederatedQuery

def Plan.withoutBatches (plan : Plan) : Plan :=
  { plan with nodes := plan.nodes.map fun n => { n with batchSiblings := [] } }

structure PlanNode.SameTask (n m : PlanNode) : Prop where
  id : n.id = m.id
  source : n.source = m.source
  onType : n.fragment.onType = m.fragment.onType
  requiredKeys : n.fragment.requiredKeys = m.fragment.requiredKeys
  providedPath : n.fragment.providedPath = m.fragment.providedPath
  dependsOn : n.dependsOn = m.dependsOn
  batchSiblings : n.batchSiblings = m.batchSiblings
  variableUsages : n.fetch.variableUsages = m.fetch.variableUsages
  selection : SelectionSet.withoutTypenames n.fragment.selection =
    SelectionSet.withoutTypenames m.fragment.selection

structure Plan.SameTasks (plan other : Plan) : Prop where
  kind : plan.operationKind = other.operationKind
  nodes : List.Forall₂ PlanNode.SameTask plan.nodes other.nodes
  mergeSpecs : plan.mergeSpecs = other.mergeSpecs

structure PlanNode.Alike (differ : Prop) (n m : PlanNode) : Prop where
  id : n.id = m.id
  source : n.source = m.source
  fragment : n.fragment.Alike differ m.fragment
  variableUsages : n.fetch.variableUsages = m.fetch.variableUsages
  document : ¬differ → n.fetch.document = m.fetch.document
  dependsOn : n.dependsOn = m.dependsOn
  batchSiblings : n.batchSiblings = m.batchSiblings

theorem FetchFragment.Alike.eq {differ : Prop} {f g : FetchFragment} (h : f.Alike differ g)
    (hsame : ¬differ) : f = g := by
  rw [h.same, ← h.selection.eq hsame]

namespace PlanNode.Alike
variable {differ : Prop} {n m : PlanNode}

theorem eq (h : n.Alike differ m) (hsame : ¬differ) : n = m := by
  obtain ⟨id, source, fragment, ⟨usages, document⟩, dependsOn, siblings⟩ := n
  obtain ⟨id', source', fragment', ⟨usages', document'⟩, dependsOn', siblings'⟩ := m
  obtain ⟨hid, hsource, hfragment, husages, hdocument, hdepends, hsiblings⟩ := h
  dsimp only at hid hsource hfragment husages hdocument hdepends hsiblings
  rw [hid, hsource, hfragment.eq hsame, husages, hdocument hsame, hdepends, hsiblings]

theorem sameTask (h : n.Alike differ m) : n.SameTask m where
  id := h.id
  source := h.source
  onType := (congrArg (·.onType) h.fragment.same).symm
  requiredKeys := (congrArg (·.requiredKeys) h.fragment.same).symm
  providedPath := (congrArg (·.providedPath) h.fragment.same).symm
  dependsOn := h.dependsOn
  batchSiblings := h.batchSiblings
  variableUsages := h.variableUsages
  selection := h.fragment.selection.withoutTypenames

end PlanNode.Alike

namespace Planner
variable {p q : Planner} {o : Operation} {d d' : Decomposition}

theorem node_alike (hindex : p.index = q.index) (hd : d.dependencies = d'.dependencies)
    {f g : FetchFragment} (h : f.Alike (p.Differ q) g) (id : Nat) :
    SameOutcome (fun r r' => r.1.Alike (p.Differ q) r'.1 ∧ r.2 = r'.2) (p.node o d f id)
      (q.node o d' g id) := by
  have hemit : MergeSpec.emit p.index f = MergeSpec.emit q.index g := by
    rw [hindex, h.same]
    rfl
  have hdepends : dependsOn d id = dependsOn d' id := by
    rw [dependsOn, dependsOn, Decomposition.parentsOf, Decomposition.parentsOf, hd]
  unfold node
  rw [hemit, hdepends]
  refine (SameOutcome.refl _).bind fun m m' heq => ?_
  subst heq
  refine .ok ⟨⟨rfl, (congrArg (·.source) h.same).symm, h, h.selection.usedVariables,
    fun hsame => ?_, rfl, rfl⟩, rfl⟩
  rw [h.eq hsame]

theorem assignBatches_alike {differ : Prop} {nodes others : List PlanNode} (kind : OperationKind)
    (h : List.Forall₂ (PlanNode.Alike differ) nodes others) :
    List.Forall₂ (PlanNode.Alike differ) (assignBatches kind nodes)
      (assignBatches kind others) := by
  have hbatches : batches kind nodes = batches kind others := by
    refine batches_congr (h.imp fun n m hn => ⟨hn.id, hn.source, hn.dependsOn, ?_⟩)
    rw [hn.fragment.same]
    rfl
  rw [assignBatches, assignBatches, hbatches]
  refine List.rel_map (fun n m hn => ?_) h
  exact { hn with batchSiblings := by rw [hn.id] }

structure SamePlan (p q : Planner) (plan other : Plan) : Prop where
  kind : plan.operationKind = other.operationKind
  mergeSpecs : plan.mergeSpecs = other.mergeSpecs
  plain : List.Forall₂ (PlanNode.Alike (p.Differ q)) plan.withoutBatches.nodes
    other.withoutBatches.nodes
  nodes : p.config.batchSiblings = q.config.batchSiblings →
    List.Forall₂ (PlanNode.Alike (p.Differ q)) plan.nodes other.nodes

theorem SamePlan.of_nodes {plan other : Plan} (hkind : plan.operationKind = other.operationKind)
    (hmerges : plan.mergeSpecs = other.mergeSpecs) {nodes others : List PlanNode}
    (h : List.Forall₂ (PlanNode.Alike (p.Differ q)) nodes others)
    (hnodes : plan.nodes = if p.config.batchSiblings then assignBatches plan.operationKind nodes
      else nodes)
    (hothers : other.nodes = if q.config.batchSiblings then
      assignBatches other.operationKind others else others) : SamePlan p q plan other := by
  have hclear : ∀ (kind : OperationKind) (batch : Bool) (nodes : List PlanNode),
      ((if batch then assignBatches kind nodes else nodes).map fun n =>
        { n with batchSiblings := [] }) = nodes.map fun n => { n with batchSiblings := [] } := by
    intro kind batch nodes
    cases batch
    · rfl
    · simp [assignBatches, Function.comp_def]
  refine ⟨hkind, hmerges, ?_, fun hbatch => ?_⟩
  · rw [Plan.withoutBatches, Plan.withoutBatches, hnodes, hothers, hclear, hclear]
    refine List.rel_map (fun n m hn => ?_) h
    exact { hn with batchSiblings := rfl }
  · rw [hnodes, hothers, hbatch, hkind]
    split
    · exact assignBatches_alike _ h
    · exact h

theorem build_alike (hindex : p.index = q.index) (hd : d.dependencies = d'.dependencies)
    (h : List.Forall₂ (FetchFragment.Alike (p.Differ q)) d.fragments d'.fragments) :
    SameOutcome (SamePlan p q) (p.build o d) (q.build o d') := by
  have hnodes := SameOutcome.mapM (forall₂_zipIdx h 0)
    (S := fun r r' => PlanNode.Alike (p.Differ q) r.1 r'.1 ∧ r.2 = r'.2)
    (f := fun e => p.node o d e.1 e.2) (g := fun e => q.node o d' e.1 e.2) fun e e' he => by
      rw [he.2]
      exact node_alike hindex hd he.1 e'.2
  refine hnodes.bind fun ns ms hns => .ok ?_
  refine .of_nodes rfl ?_ (List.rel_map (fun n m hn => hn.1) hns) rfl rfl
  exact List.forall₂_eq_eq_eq ▸ List.rel_map (fun n m hn => hn.2) hns

theorem plan_alike (hindex : p.index = q.index) (o : Operation) :
    SameOutcome (SamePlan p q) (p.plan o) (q.plan o) := by
  unfold plan
  split
  · exact .error _
  · exact (decompose_alike hindex o).bind fun d d' hd => build_alike hindex hd.2 hd.1

end Planner

/-- Whatever the configuration, an operation has a plan or fails with the same error. Where only the
batches are configured otherwise, plans differ in nothing but batch siblings. Where only the type
names are, their nodes stand for the same tasks. -/
theorem plan_configuration (x : SchemaIndex) (o : Operation) (c c' : PlannerConfig) :
    (∀ e, Planner.plan ⟨x, c⟩ o = .error e ↔ Planner.plan ⟨x, c'⟩ o = .error e) ∧
    (c.typenameInRepresentations = c'.typenameInRepresentations → ∀ plan other,
      Planner.plan ⟨x, c⟩ o = .ok plan → Planner.plan ⟨x, c'⟩ o = .ok other →
        plan.withoutBatches = other.withoutBatches) ∧
    (c.batchSiblings = c'.batchSiblings → ∀ plan other,
      Planner.plan ⟨x, c⟩ o = .ok plan → Planner.plan ⟨x, c'⟩ o = .ok other →
        plan.SameTasks other) := by
  have halike := Planner.plan_alike (p := ⟨x, c⟩) (q := ⟨x, c'⟩) rfl o
  refine ⟨halike.error_iff, fun htypename plan other hplan hother => ?_,
    fun hbatch plan other hplan hother => ?_⟩
  · have hsame : ¬Planner.Differ ⟨x, c⟩ ⟨x, c'⟩ := not_not_intro htypename
    obtain ⟨hkind, hmerges, hplain, -⟩ := halike.of_ok hplan hother
    have hnodes : plan.withoutBatches.nodes = other.withoutBatches.nodes :=
      List.forall₂_eq_eq_eq ▸ hplain.imp fun n m hn => hn.eq hsame
    show (⟨plan.operationKind, plan.withoutBatches.nodes, plan.mergeSpecs⟩ : Plan) =
      ⟨other.operationKind, other.withoutBatches.nodes, other.mergeSpecs⟩
    rw [hkind, hmerges, hnodes]
  · obtain ⟨hkind, hmerges, -, hnodes⟩ := halike.of_ok hplan hother
    exact ⟨hkind, (hnodes hbatch).imp fun n m hn => hn.sameTask, hmerges⟩

def namedShop : Planner := ⟨shop.index, { typenameInRepresentations := true }⟩

def namedShopPlan : Plan := (namedShop.plan shopQuery).toOption.getD ⟨.query, [], []⟩

/-- With type names the shop sends other documents for the same tasks. -/
theorem plan_configuration_shop : shop.plan shopQuery = .ok shopPlan ∧
    namedShop.plan shopQuery = .ok namedShopPlan ∧
    shopPlan.nodes.map (·.fetch.document) ≠ namedShopPlan.nodes.map (·.fetch.document) ∧
    shopPlan.SameTasks namedShopPlan := by
  have hplan : namedShop.plan shopQuery = .ok namedShopPlan := by
    rw [namedShopPlan]
    exact ok_of_isOk (by decide +kernel) _
  refine ⟨shop_plan, hplan, by decide +kernel, ?_⟩
  exact (plan_configuration shop.index shopQuery shop.config namedShop.config).2.2 rfl _ _ shop_plan
    hplan

end FederatedQuery
