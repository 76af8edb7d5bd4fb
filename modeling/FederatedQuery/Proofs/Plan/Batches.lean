import FederatedQuery.Proofs.Plan.RootOrder
import FederatedQuery.Proofs.Plan.Validity

/-!
Batches of a plan. The siblings of a node are the other nodes of its source that wait for the same
nodes, except that a root fetch of a mutation has none and is nobody's sibling.
-/
namespace FederatedQuery

namespace Planner
variable {kind : OperationKind} {nodes : List PlanNode} {n a b : PlanNode} {i j : Nat}
  {batch : List Nat}

theorem isBatchable_iff :
    isBatchable kind n = true ↔ kind ≠ .mutation ∨ n.fragment.isRoot = false := by
  simp [isBatchable]

def peers (kind : OperationKind) (nodes : List PlanNode) (n : PlanNode) : List Nat :=
  (nodes.filter fun m =>
    isBatchable kind m && (m.source = n.source && m.dependsOn = n.dependsOn)).map (·.id)

/-- A batch holds all the peers of a node. -/
theorem mem_batches_iff : batch ∈ batches kind nodes ↔
    ∃ n ∈ nodes, isBatchable kind n = true ∧ batch = peers kind nodes n := by
  generalize hitems : (nodes.filter (isBatchable kind)).map
    (fun n => ((n.source, n.dependsOn), n.id)) = items
  have hbatches : batches kind nodes = (gather items).map (·.2) := by rw [batches, hitems]
  have hgroup : ∀ g ∈ gather items, ∀ n, (n.source, n.dependsOn) = g.1 →
      g.2 = peers kind nodes n := by
    intro g hg n hkey
    rw [items_of_mem_gather hg, ← hitems, ← hkey]
    simp [peers, List.filter_map, List.filter_filter, Function.comp_def, Bool.and_comm]
  have hkeyed : ∀ e, e ∈ items ↔ ∃ g ∈ gather items, g.1 = e.1 ∧ e.2 ∈ g.2 := by
    intro e
    rw [← (ungroup_gather_perm items).mem_iff, mem_ungroup]
  rw [hbatches, List.mem_map]
  constructor
  · rintro ⟨g, hg, rfl⟩
    obtain ⟨id, hid⟩ := List.exists_mem_of_ne_nil _ (ne_nil_of_mem_gather g hg)
    have hmem := (hkeyed (g.1, id)).2 ⟨g, hg, rfl, hid⟩
    rw [← hitems, List.mem_map] at hmem
    obtain ⟨n, hn, heq⟩ := hmem
    obtain ⟨hn, hbatchable⟩ := List.mem_filter.1 hn
    exact ⟨n, hn, hbatchable, hgroup g hg n (Prod.mk.inj heq).1⟩
  · rintro ⟨n, hn, hbatchable, rfl⟩
    have hmem : ((n.source, n.dependsOn), n.id) ∈ items := by
      rw [← hitems]
      exact List.mem_map_of_mem (List.mem_filter.2 ⟨hn, hbatchable⟩)
    obtain ⟨g, hg, hkey, -⟩ := (hkeyed _).1 hmem
    exact ⟨g, hg, hgroup g hg n hkey.symm⟩

section Numbered
variable (hnumbered : ∀ (i : Nat) n, nodes[i]? = some n → n.id = i)
include hnumbered

theorem mem_peers_iff (hj : nodes[j]? = some b) : j ∈ peers kind nodes n ↔
    isBatchable kind b = true ∧ b.source = n.source ∧ b.dependsOn = n.dependsOn := by
  simp only [peers, List.mem_map, List.mem_filter, Bool.and_eq_true, decide_eq_true_eq]
  constructor
  · rintro ⟨m, ⟨hm, hpeer⟩, hid⟩
    obtain ⟨k, hk⟩ := List.mem_iff_getElem?.1 hm
    obtain rfl : k = j := (hnumbered k m hk).symm.trans hid
    cases hk.symm.trans hj
    exact hpeer
  · exact fun hpeer => ⟨b, ⟨List.mem_of_getElem? hj, hpeer⟩, hnumbered j b hj⟩

/-- A node stands in one batch at most, so its siblings are its peers but for itself. -/
theorem mem_siblings_iff (hi : nodes[i]? = some a) (hj : nodes[j]? = some b) :
    j ∈ siblings (batches kind nodes) i ↔ i ≠ j ∧ a.source = b.source ∧
      a.dependsOn = b.dependsOn ∧ isBatchable kind a = true ∧ isBatchable kind b = true := by
  rw [siblings, mem_ascending, List.mem_filter, decide_eq_true_eq]
  cases hfind : (batches kind nodes).find? (i ∈ ·) with
  | none =>
    refine iff_of_false (fun h => List.not_mem_nil h.1) fun h => ?_
    have hbatch := mem_batches_iff.2 ⟨a, List.mem_of_getElem? hi, h.2.2.2.1, rfl⟩
    have hself := (mem_peers_iff hnumbered hi).2 ⟨h.2.2.2.1, rfl, rfl⟩
    exact List.find?_eq_none.1 hfind _ hbatch (decide_eq_true hself)
  | some batch =>
    obtain ⟨n, -, -, rfl⟩ := mem_batches_iff.1 (List.mem_of_find?_eq_some hfind)
    have hself : i ∈ peers kind nodes n := by simpa using List.find?_some hfind
    obtain ⟨hbatchable, hsource, hdepends⟩ := (mem_peers_iff hnumbered hi).1 hself
    rw [Option.getD_some, mem_peers_iff hnumbered hj, hsource, hdepends]
    constructor
    · rintro ⟨⟨hpeer, hsource, hdepends⟩, hne⟩
      exact ⟨hne.symm, hsource.symm, hdepends.symm, hbatchable, hpeer⟩
    · rintro ⟨hne, hsource, hdepends, -, hpeer⟩
      exact ⟨⟨hpeer, hsource.symm, hdepends.symm⟩, hne.symm⟩

end Numbered

/-- With batches, the nodes of a built plan are numbered nodes to which siblings were assigned. -/
theorem build_assigned {p : Planner} {o : Operation} {d : Decomposition} {plan : Plan}
    (h : p.build o d = .ok plan) (hbatch : p.config.batchSiblings = true) :
    ∃ plain, plan.nodes = assignBatches o.kind plain ∧
      ∀ (i : Nat) n, plain[i]? = some n → n.id = i := by
  obtain ⟨pairs, -, hplan⟩ := bind_eq_ok.1 h
  have hnodes : plan.nodes = assignBatches o.kind (pairs.map (·.1)) := by
    simp only [hbatch, if_true] at hplan
    cases hplan
    rfl
  refine ⟨_, hnodes, fun i n hn => ?_⟩
  have hassigned : plan.nodes[i]? =
      some { n with batchSiblings := siblings (batches o.kind (pairs.map (·.1))) n.id } := by
    rw [hnodes, assignBatches, List.getElem?_map, hn, Option.map_some]
  exact ((build_follows h).node i _ hassigned).id

end Planner

namespace Plan
variable {plan : Plan} {kind : OperationKind}

/-- The siblings of a node are other nodes, and exactly those of its source that wait for the same
nodes, unless one of the two is a root fetch of a mutation. So siblings are siblings of each other,
and so are any two siblings of a third node. -/
structure Batched (plan : Plan) (kind : OperationKind) : Prop where
  peers : ∀ {i j a b}, plan.node? i = some a → plan.node? j = some b → (j ∈ a.batchSiblings ↔
    i ≠ j ∧ a.source = b.source ∧ (∀ id, id ∈ a.dependsOn ↔ id ∈ b.dependsOn) ∧
      (kind ≠ .mutation ∨ (a.fragment.isRoot = false ∧ b.fragment.isRoot = false)))
  present : ∀ {i a}, plan.node? i = some a → ∀ j ∈ a.batchSiblings, ∃ b, plan.node? j = some b
  symm : ∀ {i j a b}, plan.node? i = some a → plan.node? j = some b →
    (j ∈ a.batchSiblings ↔ i ∈ b.batchSiblings)
  together : ∀ {i j k a b}, plan.node? i = some a → plan.node? j = some b → j ∈ a.batchSiblings →
    k ∈ a.batchSiblings → j ≠ k → k ∈ b.batchSiblings

/-- The first law of batches implies the others. -/
theorem Batched.of_peers (hpresent : ∀ {i a}, plan.node? i = some a → ∀ j ∈ a.batchSiblings,
      ∃ b, plan.node? j = some b)
    (hpeers : ∀ {i j a b}, plan.node? i = some a → plan.node? j = some b → (j ∈ a.batchSiblings ↔
      i ≠ j ∧ a.source = b.source ∧ (∀ id, id ∈ a.dependsOn ↔ id ∈ b.dependsOn) ∧
        (kind ≠ .mutation ∨ (a.fragment.isRoot = false ∧ b.fragment.isRoot = false)))) :
    plan.Batched kind where
  peers := hpeers
  present := hpresent
  symm := by
    intro i j a b ha hb
    rw [hpeers ha hb, hpeers hb ha, ne_comm, eq_comm (a := a.source),
      and_comm (a := a.fragment.isRoot = false)]
    simp only [iff_comm]
  together := by
    intro i j k a b ha hb hj hk hne
    obtain ⟨c, hc⟩ := hpresent ha k hk
    obtain ⟨-, hsource, hdepends, hkind⟩ := (hpeers ha hb).1 hj
    obtain ⟨-, hsource', hdepends', hkind'⟩ := (hpeers ha hc).1 hk
    refine (hpeers hb hc).2 ⟨hne, hsource.symm.trans hsource',
      fun id => (hdepends id).symm.trans (hdepends' id), ?_⟩
    cases hkind with
    | inl hkind => exact .inl hkind
    | inr hroots => exact hkind'.imp_right fun hroots' => ⟨hroots.2, hroots'.2⟩

end Plan

/-- In every plan that is built with batches, whatever its nodes depend on, siblings are exactly the
peers of a node, and the check of siblings passes in every plan that is built at all. -/
theorem build_batched {p : Planner} {o : Operation} {d : Decomposition} {plan : Plan}
    (h : p.build o d = .ok plan) : (p.config.batchSiblings = true → plan.Batched o.kind) ∧
      ∀ n ∈ plan.nodes, ∀ id ∈ n.batchSiblings, plan.validateSibling n id = .valid () := by
  have hplan := Planner.build_follows h
  constructor
  · intro hbatch
    obtain ⟨plain, hnodes, hnumbered⟩ := Planner.build_assigned h hbatch
    refine Plan.Batched.of_peers ?_ ?_
    · intro i a ha j hj
      obtain ⟨b, hb, -⟩ := hplan.siblings a (List.mem_of_getElem? ha) j hj
      exact ⟨b, hb⟩
    · intro i j a b ha hb
      -- what nodes wait for is listed in order, so equal sets are equal lists
      have hdepends : (∀ id, id ∈ a.dependsOn ↔ id ∈ b.dependsOn) ↔ a.dependsOn = b.dependsOn := by
        rw [(hplan.node i a ha).dependsOn, (hplan.node j b hb).dependsOn]
        exact ascending_eq_iff.symm
      rw [Plan.node?, hnodes, Planner.assignBatches, List.getElem?_map,
        Option.map_eq_some_iff] at ha hb
      obtain ⟨a, ha, rfl⟩ := ha
      obtain ⟨b, hb, rfl⟩ := hb
      rw [hdepends, hnumbered i a ha, Planner.mem_siblings_iff hnumbered ha hb,
        Planner.isBatchable_iff, Planner.isBatchable_iff, or_and_left]
  · intro n hn id hid
    obtain ⟨other, hother, halike⟩ := hplan.siblings n hn id hid
    rw [Plan.validateSibling, Plan.node?, hother, Option.any_some, halike]
    rfl

/-- Fragments 2 and 3 wait for the same fetches, named in another order and one of them twice. One
of these is missing and one is fragment 3 itself. Fragment 4 only waits for one of them. The fetches
of the mutation go to one source as well. -/
def crowd : Decomposition :=
  ⟨[⟨"people", "Mutation", [], [], .root⟩, ⟨"people", "Mutation", [], [], .root⟩,
    ⟨"doors", "Member", [], ["id"], [.field "join"]⟩,
    ⟨"doors", "Member", [], ["id"], [.field "again"]⟩,
    ⟨"doors", "Member", [], ["id"], [.field "bill"]⟩],
   [⟨0, 2, ["id"]⟩, ⟨9, 2, ["id"]⟩, ⟨3, 2, ["id"]⟩, ⟨9, 3, ["id"]⟩, ⟨3, 3, ["id"]⟩, ⟨0, 3, ["id"]⟩,
    ⟨9, 3, []⟩, ⟨0, 4, ["id"]⟩]⟩

def crowdPlan : Plan :=
  (club.build (club.operationOf clubText) crowd).toOption.getD ⟨.mutation, [], []⟩

theorem build_batched_crowd : club.config.batchSiblings = true ∧
    crowdPlan.nodes.map (·.batchSiblings) = [[], [], [3], [2], []] ∧
    crowdPlan.Batched .mutation ∧
    ∀ n ∈ crowdPlan.nodes, ∀ id ∈ n.batchSiblings, crowdPlan.validateSibling n id = .valid () := by
  have hbuild : club.build (club.operationOf clubText) crowd = .ok crowdPlan := by
    rw [crowdPlan]
    exact ok_of_isOk (by decide +kernel) _
  have hkind : (club.operationOf clubText).kind = .mutation := by decide +kernel
  obtain ⟨hbatched, hsiblings⟩ := build_batched hbuild
  exact ⟨rfl, by decide +kernel, hkind ▸ hbatched rfl, hsiblings⟩

end FederatedQuery
