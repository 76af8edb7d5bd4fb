import FederatedQuery.Plan.Validate
import FederatedQuery.Proofs.Decomposition.Run

/-!
What a built plan takes over from the decomposition: one node for each fragment at its position,
with the merge instructions of the fragment and the nodes it waits for. Batch siblings go to one
source after the same nodes.
-/
namespace FederatedQuery

theorem getElem?_of_mapM {ε α β : Type} {f : α → Except ε β} {xs : List α} {ys : List β}
    (h : xs.mapM f = .ok ys) : xs.length = ys.length ∧
      ∀ (i : Nat) (y : β), ys[i]? = some y → ∃ x, xs[i]? = some x ∧ f x = .ok y := by
  induction xs generalizing ys with
  | nil =>
    cases h
    simp
  | cons x xs ih =>
    rw [List.mapM_cons] at h
    obtain ⟨y, hy, h⟩ := bind_eq_ok.1 h
    obtain ⟨rest, hrest, h⟩ := bind_eq_ok.1 h
    cases h
    obtain ⟨hlength, hget⟩ := ih hrest
    refine ⟨by simp [hlength], fun i z hz => ?_⟩
    cases i with
    | zero =>
      cases hz
      exact ⟨x, rfl, hy⟩
    | succ i => exact hget i z hz

/-- Related items are related at the same positions. -/
theorem forall₂_zipIdx {α β : Type} {R : α → β → Prop} {as : List α} {bs : List β}
    (h : List.Forall₂ R as bs) (start : Nat) :
    List.Forall₂ (fun e e' => R e.1 e'.1 ∧ e.2 = e'.2) (as.zipIdx start) (bs.zipIdx start) := by
  induction h generalizing start with
  | nil => exact .nil
  | cons first _ ih => exact .cons ⟨first, rfl⟩ (ih (start + 1))

namespace MergeSpec

/-- The keys that the instructions forward are those of the fragment. -/
theorem emit_keys {x : SchemaIndex} {f : FetchFragment} {m : MergeSpec} (h : emit x f = .ok m) :
    m.keyForwarding.map (·.sourceField) = f.requiredKeys := by
  unfold emit at h
  by_cases hroot : f.isRoot = true
  · rw [if_pos hroot] at h
    cases h
    exact (List.isEmpty_iff.1 hroot).symm
  · rw [if_neg hroot] at h
    cases he : x.entryPoint? f.onType f.source with
    | none =>
      rw [he] at h
      exact nomatch h
    | some e =>
      rw [he] at h
      cases h
      simp [Function.comp_def]

end MergeSpec

structure PlanNode.Represents (d : Decomposition) (position : Nat) (n : PlanNode) : Prop where
  id : n.id = position
  fragment : d.fragments[position]? = some n.fragment
  source : n.source = n.fragment.source
  dependsOn : n.dependsOn = Planner.dependsOn d position

structure Plan.Follows (x : SchemaIndex) (d : Decomposition) (plan : Plan) : Prop where
  count : plan.nodes.length = d.fragments.length
  specs : plan.mergeSpecs.length = plan.nodes.length
  node : ∀ (i : Nat) (n : PlanNode), plan.nodes[i]? = some n → n.Represents d i
  spec : ∀ (i : Nat) (n : PlanNode) (m : MergeSpec), plan.nodes[i]? = some n →
    plan.mergeSpecs[i]? = some m → MergeSpec.emit x n.fragment = .ok m
  siblings : ∀ n ∈ plan.nodes, ∀ id ∈ n.batchSiblings, ∃ other,
    plan.nodes[id]? = some other ∧ Plan.areSiblings n other = true

theorem Planner.mem_dependsOn {d : Decomposition} {parent child : Nat} :
    parent ∈ Planner.dependsOn d child ↔
      ∃ dep ∈ d.dependencies, dep.child = child ∧ dep.parent = parent := by
  simp [Planner.dependsOn, Decomposition.parentsOf, and_assoc]

/-- A node waits for another exactly if a dependency says so. -/
theorem Plan.Follows.mem_dependsOn {x : SchemaIndex} {d : Decomposition} {plan : Plan} {i id : Nat}
    {n : PlanNode} (h : plan.Follows x d) (hn : plan.nodes[i]? = some n) :
    id ∈ n.dependsOn ↔ ∃ dep ∈ d.dependencies, dep.child = i ∧ dep.parent = id := by
  rw [(h.node i n hn).dependsOn, Planner.mem_dependsOn]

namespace Planner

variable {kind : OperationKind} {nodes : List PlanNode}

/-- Two members of a batch are nodes of one source after the same nodes. -/
theorem batches_alike {batch : List Nat} {id other : Nat} (h : batch ∈ batches kind nodes)
    (hid : id ∈ batch) (hother : other ∈ batch) :
    ∃ n ∈ nodes, ∃ m ∈ nodes, n.id = id ∧ m.id = other ∧ m.source = n.source ∧
      m.dependsOn = n.dependsOn := by
  obtain ⟨g, hg, rfl⟩ := List.mem_map.1 h
  have hmem : ∀ k ∈ g.2, ∃ n ∈ nodes, n.id = k ∧ (n.source, n.dependsOn) = g.1 := by
    intro k hk
    have hin := (ungroup_gather_perm _).subset (mem_ungroup.2 ⟨g, hg, rfl, hk⟩ : (g.1, k) ∈ _)
    obtain ⟨n, hn, he⟩ := List.mem_map.1 hin
    obtain ⟨hkey, hid⟩ := Prod.mk.inj he
    exact ⟨n, (List.mem_filter.1 hn).1, hid, hkey⟩
  obtain ⟨n, hn, hnid, hnkey⟩ := hmem id hid
  obtain ⟨m, hm, hmid, hmkey⟩ := hmem other hother
  have hkey := Prod.mk.inj (hmkey.trans hnkey.symm)
  exact ⟨n, hn, m, hm, hnid, hmid, hkey.1, hkey.2⟩

/-- Batches are known by what nodes wait for and where they go. -/
theorem batches_congr {others : List PlanNode} (h : List.Forall₂ (fun n m => n.id = m.id ∧
      n.source = m.source ∧ n.dependsOn = m.dependsOn ∧ n.fragment.isRoot = m.fragment.isRoot)
      nodes others) : batches kind nodes = batches kind others := by
  have hfilter := List.rel_filter (p := isBatchable kind) (q := isBatchable kind)
    (fun n m ⟨_, _, _, hroot⟩ => by simp [isBatchable, hroot]) h
  have hkeyed : ((nodes.filter (isBatchable kind)).map fun n => ((n.source, n.dependsOn), n.id)) =
      (others.filter (isBatchable kind)).map fun n => ((n.source, n.dependsOn), n.id) := by
    refine List.forall₂_eq_eq_eq ▸ List.rel_map (fun n m hn => ?_) hfilter
    obtain ⟨hid, hsource, hdepends, -⟩ := hn
    rw [hid, hsource, hdepends]
  rw [batches, batches, hkeyed]

theorem mem_siblings {bs : List (List Nat)} {id other : Nat} (h : other ∈ siblings bs id) :
    other ≠ id ∧ ∃ batch ∈ bs, id ∈ batch ∧ other ∈ batch := by
  rw [siblings, mem_ascending, List.mem_filter] at h
  obtain ⟨hmem, hne⟩ := h
  refine ⟨by simpa using hne, ?_⟩
  cases hfind : bs.find? (id ∈ ·) with
  | none =>
    rw [hfind] at hmem
    exact nomatch hmem
  | some batch =>
    rw [hfind] at hmem
    exact ⟨batch, List.mem_of_find?_eq_some hfind, by simpa using List.find?_some hfind, hmem⟩

theorem assignBatches_siblings (hpos : ∀ (i : Nat) n, nodes[i]? = some n → n.id = i) :
    ∀ n ∈ assignBatches kind nodes, ∀ id ∈ n.batchSiblings, ∃ other,
      (assignBatches kind nodes)[id]? = some other ∧ Plan.areSiblings n other = true := by
  intro n' hn id hid
  obtain ⟨n, hmem, rfl⟩ := List.mem_map.1 hn
  obtain ⟨hne, batch, hbatch, hin, hother⟩ := mem_siblings hid
  obtain ⟨k, hk, m, hm, hsame, rfl, hsource, hdepends⟩ := batches_alike hbatch hin hother
  -- nodes of one number are one node
  have hget : ∀ k ∈ nodes, nodes[k.id]? = some k := by
    intro k hk
    obtain ⟨i, hi, rfl⟩ := List.mem_iff_getElem.1 hk
    rw [hpos i _ (List.getElem?_eq_getElem hi)]
    exact List.getElem?_eq_getElem hi
  have heq : k = n := by
    have hfirst := hget k hk
    rw [hsame, hget n hmem] at hfirst
    exact (Option.some.inj hfirst).symm
  subst heq
  refine ⟨{ m with batchSiblings := siblings (batches kind nodes) m.id }, ?_, ?_⟩
  · simp [assignBatches, hget m hm]
  · simp [Plan.areSiblings, hne, hsource, hdepends]

structure Made (p : Planner) (o : Operation) (d : Decomposition) (position : Nat) (n : PlanNode)
    (m : MergeSpec) : Prop where
  represents : n.Represents d position
  spec : MergeSpec.emit p.index n.fragment = .ok m
  fetch : n.fetch = .make o n.fragment m

theorem made_of_node {p : Planner} {o : Operation} {d : Decomposition} {f : FetchFragment}
    {id : Nat} {r : PlanNode × MergeSpec} (h : p.node o d f id = .ok r)
    (hf : d.fragments[id]? = some f) : p.Made o d id r.1 r.2 ∧ r.1.batchSiblings = [] := by
  obtain ⟨m, hm, h⟩ := bind_eq_ok.1 h
  cases h
  exact ⟨⟨⟨rfl, hf, rfl, rfl⟩, hm, rfl⟩, rfl⟩

theorem assignBatches_getElem? {i : Nat} {n : PlanNode}
    (h : (assignBatches kind nodes)[i]? = some n) :
    ∃ m, nodes[i]? = some m ∧ n = { m with batchSiblings := n.batchSiblings } := by
  rw [assignBatches, List.getElem?_map] at h
  obtain ⟨m, hm, rfl⟩ := Option.map_eq_some_iff.1 h
  exact ⟨m, hm, rfl⟩

theorem Made.withSiblings {p : Planner} {o : Operation} {d : Decomposition} {i : Nat}
    {n n' : PlanNode} {m : MergeSpec} (h : p.Made o d i n m)
    (hn : n' = { n with batchSiblings := n'.batchSiblings }) : p.Made o d i n' m := by
  obtain ⟨⟨id, fragment, source, dependsOn⟩, spec, fetch⟩ := h
  rw [hn]
  exact ⟨⟨id, fragment, source, dependsOn⟩, spec, fetch⟩

/-- A built plan has a node for each fragment and its merge instructions at the same position. -/
theorem build_made {p : Planner} {o : Operation} {d : Decomposition} {plan : Plan}
    (h : p.build o d = .ok plan) :
    plan.nodes.length = d.fragments.length ∧ plan.mergeSpecs.length = plan.nodes.length ∧
      (∀ (i : Nat) n, plan.nodes[i]? = some n → ∃ m, plan.mergeSpecs[i]? = some m ∧
        p.Made o d i n m) ∧
      ∀ n ∈ plan.nodes, ∀ id ∈ n.batchSiblings, ∃ other,
        plan.nodes[id]? = some other ∧ Plan.areSiblings n other = true := by
  obtain ⟨pairs, hpairs, hplan⟩ := bind_eq_ok.1 h
  obtain ⟨hlength, hget⟩ := getElem?_of_mapM hpairs
  have hcount : pairs.length = d.fragments.length := by simpa using hlength.symm
  have hpair : ∀ (i : Nat) r, pairs[i]? = some r →
      p.Made o d i r.1 r.2 ∧ r.1.batchSiblings = [] := by
    intro i r hr
    obtain ⟨⟨f, id⟩, hf, hr⟩ := hget i r hr
    rw [List.getElem?_zipIdx] at hf
    obtain ⟨g, hg, he⟩ := Option.map_eq_some_iff.1 hf
    obtain ⟨rfl, hid⟩ := Prod.mk.inj he
    have hid : i = id := by omega
    subst hid
    exact made_of_node hr hg
  have hmade : ∀ (i : Nat) n, (pairs.map (·.1))[i]? = some n →
      ∃ m, (pairs.map (·.2))[i]? = some m ∧ p.Made o d i n m := by
    intro i n hn
    rw [List.getElem?_map] at hn
    obtain ⟨r, hr, rfl⟩ := Option.map_eq_some_iff.1 hn
    exact ⟨r.2, by rw [List.getElem?_map, hr, Option.map_some], (hpair i r hr).1⟩
  by_cases hb : p.config.batchSiblings = true
  · simp only [hb, if_true] at hplan
    cases hplan
    refine ⟨by simp [assignBatches, hcount], by simp [assignBatches], fun i n hn => ?_,
      assignBatches_siblings fun i n hn => ?_⟩
    · obtain ⟨k, hk, hsiblings⟩ := assignBatches_getElem? hn
      obtain ⟨m, hm, hmade⟩ := hmade i k hk
      exact ⟨m, hm, hmade.withSiblings hsiblings⟩
    · obtain ⟨m, -, hmade⟩ := hmade i n hn
      exact hmade.represents.id
  · simp only [hb] at hplan
    cases hplan
    refine ⟨by simp [hcount], by simp, hmade, fun n hn id hid => ?_⟩
    obtain ⟨r, hr, rfl⟩ := List.mem_map.1 hn
    obtain ⟨i, hi, rfl⟩ := List.mem_iff_getElem.1 hr
    rw [(hpair i _ (List.getElem?_eq_getElem hi)).2] at hid
    exact nomatch hid

theorem build_follows {p : Planner} {o : Operation} {d : Decomposition} {plan : Plan}
    (h : p.build o d = .ok plan) : plan.Follows p.index d := by
  obtain ⟨hcount, hspecs, hmade, hsiblings⟩ := build_made h
  refine ⟨hcount, hspecs, fun i n hn => ?_, fun i n m hn hm => ?_, hsiblings⟩
  · obtain ⟨m, -, hmade⟩ := hmade i n hn
    exact hmade.represents
  · obtain ⟨m', hm', hmade⟩ := hmade i n hn
    rw [hm] at hm'
    cases hm'
    exact hmade.spec

end Planner
end FederatedQuery
