import Mathlib.Order.Bounds.Basic
import FederatedQuery.Proofs.Decomposition.Routing
import FederatedQuery.Proofs.ExecutionTree.Schedule
import FederatedQuery.Proofs.Plan.Validity

/-!
Waves as levels. The wave of a node of a built plan is the length of the longest chain of
dependencies that ends in it, where a dependency on a later node or on one that is not there does not
count; a valid plan has none of those.
-/
namespace FederatedQuery

/-- A chain of so many dependencies ends in the fragment. Each of them leads to a larger number, so
what comes before a fragment of the plan in a chain is one of the plan as well. -/
inductive Decomposition.ChainTo (d : Decomposition) : Nat → Nat → Prop
  | start (id : Nat) : d.ChainTo id 0
  | next {parent child edges : Nat} (chain : d.ChainTo parent edges)
      (waits : d.Waits child parent) (ascends : parent < child) : d.ChainTo child (edges + 1)

namespace Plan
variable {x : SchemaIndex} {d : Decomposition} {plan : Plan} {i id level edges : Nat}
  {n : PlanNode}

structure LeveledBy (plan : Plan) (d : Decomposition) : Prop where
  once : plan.waves.flatten.Perm (plan.nodes.map (·.id))
  apart : plan.waves.flatten.Nodup
  ascending : ∀ wave ∈ plan.waves, wave.Pairwise (· < ·)
  inhabited : ∀ wave ∈ plan.waves, wave ≠ []
  level : ∀ n ∈ plan.nodes, ∀ wave, plan.InWave n.id wave ↔
    IsGreatest {edges | d.ChainTo n.id edges} wave

namespace Follows

/-- No chain to a node is longer than its level. -/
theorem chain_le_level (h : plan.Follows x d) (hchain : d.ChainTo id edges)
    (hlevel : plan.levels[id]? = some level) : edges ≤ level := by
  induction hchain generalizing level with
  | start id => exact Nat.zero_le _
  | @next parent child edges chain waits ascends ih =>
    have hchild := lt_of_level hlevel
    have hn := List.getElem?_eq_getElem hchild
    obtain ⟨lower, hlower⟩ := exists_level (ascends.trans hchild)
    have hlt := level_lt hn ((h.mem_dependsOn hn).2 waits) ascends hlower hlevel
    exact (Nat.succ_le_succ (ih hlower)).trans hlt

/-- A chain as long as the level of the node leads to it. -/
theorem chain_of_level (h : plan.Follows x d) (hlevel : plan.levels[i]? = some level) :
    d.ChainTo i level := by
  induction level generalizing i with
  | zero => exact .start i
  | succ level ih =>
    have hn := List.getElem?_eq_getElem (lt_of_level hlevel)
    obtain ⟨id, hid, hlt, hbelow⟩ := exists_dependsOn_below hn hlevel
    exact .next (ih hbelow) ((h.mem_dependsOn hn).1 hid) hlt

theorem isGreatest_level (h : plan.Follows x d) (hlevel : plan.levels[id]? = some level) :
    IsGreatest {edges | d.ChainTo id edges} level :=
  ⟨h.chain_of_level hlevel, fun _ hchain => h.chain_le_level hchain hlevel⟩

theorem numbered (h : plan.Follows x d) : plan.Numbered := fun i n hn => (h.node i n hn).id

theorem leveled (h : plan.Follows x d) : plan.LeveledBy d where
  once := by
    rw [h.numbered.ids]
    exact h.numbered.waves_perm
  apart := h.numbered.waves_perm.symm.nodup List.nodup_range
  ascending := fun _ hwave => List.pairwise_lt_range.sublist (h.numbered.wave_sublist hwave)
  inhabited := fun _ hwave => h.numbered.wave_ne_nil hwave
  level := by
    intro n hn wave
    obtain ⟨i, hi⟩ := List.mem_iff_getElem?.1 hn
    obtain ⟨level, hlevel⟩ := exists_level (List.getElem?_eq_some_iff.1 hi).1
    have hgreatest := h.isGreatest_level hlevel
    rw [h.numbered i n hi, h.numbered.inWave_iff, hlevel, Option.some_inj]
    constructor
    · intro heq
      exact heq ▸ hgreatest
    · intro hwave
      exact hgreatest.unique hwave

end Follows

/-- Only a node in front of another passes as one that it waits for. -/
theorem lt_of_validateParent (h : (plan.validateParent n id).causes = []) : id < n.id := by
  by_contra hle
  rw [validateParent, if_neg hle, Validated.causes_fail] at h
  exact List.cons_ne_nil _ _ h

/-- In a valid plan a node waits for nodes of earlier waves. -/
theorem Numbered.earlier_of_valid (h : plan.Numbered) (hvalid : plan.validate = .valid ()) :
    ∀ n ∈ plan.nodes, ∀ id ∈ n.dependsOn, (∃ parent ∈ plan.nodes, parent.id = id) ∧
      ∃ wave later, plan.InWave id wave ∧ plan.InWave n.id later ∧ wave < later := by
  intro n hn id hid
  obtain ⟨i, hi⟩ := List.mem_iff_getElem?.1 hn
  obtain ⟨hposition, hparents, -⟩ := (validate_eq_valid_iff.1 hvalid).2 i n hi
  have hbound := (List.getElem?_eq_some_iff.1 hi).1
  have hlt : id < i := hposition ▸ lt_of_validateParent (hparents id hid)
  have hparent := List.getElem?_eq_getElem (hlt.trans hbound)
  obtain ⟨wave, hwave⟩ := h.exists_inWave (hlt.trans hbound)
  obtain ⟨later, hlater⟩ := h.exists_inWave hbound
  exact ⟨⟨_, List.mem_of_getElem? hparent, h id _ hparent⟩, wave, later, hwave,
    hposition ▸ hlater, h.inWave_lt_of_dependsOn hi hid hlt hwave hlater⟩

end Plan

/-- The waves of every plan that is built are the levels of its dependencies, whatever those are, and
in a valid plan a node only waits for nodes of earlier waves. -/
theorem build_waves {p : Planner} {o : Operation} {d : Decomposition} {plan : Plan}
    (h : p.build o d = .ok plan) : plan.LeveledBy d ∧ (plan.validate = .valid () →
      ∀ n ∈ plan.nodes, ∀ id ∈ n.dependsOn, (∃ parent ∈ plan.nodes, parent.id = id) ∧
        ∃ wave later, plan.InWave id wave ∧ plan.InWave n.id later ∧ wave < later) := by
  have hplan := Planner.build_follows h
  exact ⟨hplan.leveled, hplan.numbered.earlier_of_valid⟩

/-- A cycle, a loop and a fragment that is not there do not count, and no node is lost to them. -/
theorem build_waves_tangled :
    (tangledPlan.waves = [[0], [1, 3], [2]] ∧ tangledPlan.LeveledBy tangled) ∧
    shopPlan.validate = .valid () ∧ ∀ n ∈ shopPlan.nodes, ∀ id ∈ n.dependsOn,
      (∃ parent ∈ shopPlan.nodes, parent.id = id) ∧
        ∃ wave later, shopPlan.InWave id wave ∧ shopPlan.InWave n.id later ∧ wave < later := by
  have htangled : shop.build shopQuery tangled = .ok tangledPlan := by
    rw [tangledPlan]
    exact ok_of_isOk (by decide +kernel) _
  obtain ⟨d, -, hshop⟩ := Planner.build_of_plan shop_plan
  have hvalid : shopPlan.validate = .valid () := by decide +kernel
  exact ⟨⟨by decide +kernel, (build_waves htangled).1⟩, hvalid, (build_waves hshop).2 hvalid⟩

end FederatedQuery
