import FederatedQuery.Proofs.Decomposition.Completeness
import FederatedQuery.Proofs.ExecutionTree.Minify
import FederatedQuery.Proofs.Plan.Build
import FederatedQuery.Proofs.Plan.Waves

/-!
The execution tree of a built plan: every node is fetched once, at the places where its result is
attached, after what it depends on and side by side with the other nodes of its wave.
-/
namespace FederatedQuery

def PlanNode.occurrence (n : PlanNode) (m : MergeSpec) : Occurrence :=
  ⟨n.id, n.source, if m.attachPath.isRoot then [] else [m.attachPath]⟩

namespace ExecutionTree

structure Schedules (t : ExecutionTree) (plan : Plan) : Prop where
  order : t.fetches = plan.waves.flatten
  once : t.fetches.Perm (plan.nodes.map (·.id))
  apart : t.fetches.Nodup
  runs : ∀ o ∈ t.occurrences, ∃ n m, plan.node? o.node = some n ∧
    plan.mergeSpec? o.node = some m ∧ o = n.occurrence m
  after : ∀ n ∈ plan.nodes, ∀ parent ∈ n.dependsOn, parent < n.id → t.Before parent n.id
  together : ∀ {first second wave : Nat}, plan.InWave first wave → plan.InWave second wave →
    ¬t.Before first second

section Nodes
variable (n : PlanNode) (m : MergeSpec)

@[simp] theorem occurrences_ofNode : (ofNode n m).occurrences = [n.occurrence m] := by
  unfold ofNode PlanNode.occurrence
  split
  · rfl
  · rfl

@[simp] theorem fetches_ofNode : (ofNode n m).fetches = [n.id] := by
  rw [← map_node_occurrences, occurrences_ofNode]
  rfl

@[simp] theorem emptySteps_ofNode : (ofNode n m).emptySteps = [] := by
  unfold ofNode
  split
  · rfl
  · rfl

theorem unordered_ofNode : (ofNode n m).Unordered := by
  unfold ofNode
  split
  · exact nofun
  · exact nofun

end Nodes

def ofWave (plan : Plan) (wave : List Nat) : ExecutionTree :=
  step .parallel (wave.filterMap (ofId? plan))

def ofWaves (plan : Plan) : ExecutionTree := step .sequence (plan.waves.map (ofWave plan))

section Plans
variable {plan : Plan} {t : ExecutionTree} {wave : List Nat} {id : Nat}

theorem ofPlan_eq (h : plan.nodes ≠ []) : ofPlan plan = (minify (ofWaves plan)).map some := by
  rw [ofPlan, if_neg (by simpa using h)]
  rfl

theorem ofId?_eq_some (h : ofId? plan id = some t) :
    ∃ n m, plan.node? id = some n ∧ plan.mergeSpec? id = some m ∧ t = ofNode n m := by
  obtain ⟨n, hn, h⟩ := Option.bind_eq_some_iff.1 h
  obtain ⟨m, hm, rfl⟩ := Option.map_eq_some_iff.1 h
  exact ⟨n, m, hn, hm, rfl⟩

theorem ofWave_unordered (plan : Plan) (wave : List Nat) : (ofWave plan wave).Unordered := by
  refine Unordered.parallel fun t ht => ?_
  obtain ⟨id, -, hid⟩ := List.mem_filterMap.1 ht
  obtain ⟨n, m, -, -, rfl⟩ := ofId?_eq_some hid
  exact unordered_ofNode n m

variable (hnumbered : plan.Numbered) (hspecs : plan.mergeSpecs.length = plan.nodes.length)
include hspecs

theorem ofId?_of_lt (h : id < plan.nodes.length) :
    ∃ n m, plan.node? id = some n ∧ ofId? plan id = some (ofNode n m) := by
  have hspec : id < plan.mergeSpecs.length := hspecs ▸ h
  have hn : plan.node? id = some plan.nodes[id] := List.getElem?_eq_getElem h
  have hm : plan.mergeSpec? id = some plan.mergeSpecs[id] := List.getElem?_eq_getElem hspec
  refine ⟨plan.nodes[id], plan.mergeSpecs[id], hn, ?_⟩
  rw [ofId?, hn, hm]
  rfl

/-- No node of a wave is lost. -/
theorem emptySteps_ofWave (hne : wave ≠ []) (hwave : ∀ id ∈ wave, id < plan.nodes.length) :
    (ofWave plan wave).emptySteps = [] := by
  have hitems : ∀ t ∈ wave.filterMap (ofId? plan), t.emptySteps = [] := by
    intro t ht
    obtain ⟨id, -, hid⟩ := List.mem_filterMap.1 ht
    obtain ⟨n, m, -, -, rfl⟩ := ofId?_eq_some hid
    exact emptySteps_ofNode n m
  obtain ⟨id, rest, rfl⟩ := List.exists_cons_of_ne_nil hne
  obtain ⟨n, m, -, hid⟩ := ofId?_of_lt hspecs (hwave id List.mem_cons_self)
  rw [ofWave, List.filterMap_cons_some hid] at *
  exact emptySteps_step hitems

include hnumbered

theorem fetches_ofWave (hwave : ∀ id ∈ wave, id < plan.nodes.length) :
    (ofWave plan wave).fetches = wave := by
  rw [ofWave, fetches]
  induction wave with
  | nil => rfl
  | cons id rest ih =>
    obtain ⟨hfirst, hrest⟩ := List.forall_mem_cons.1 hwave
    obtain ⟨n, m, hn, hid⟩ := ofId?_of_lt hspecs hfirst
    rw [List.filterMap_cons_some hid, fetchesOfList, fetches_ofNode, ih hrest, hnumbered id n hn]
    rfl

theorem fetches_ofWaves : (ofWaves plan).fetches = plan.waves.flatten := by
  rw [ofWaves, fetches, fetchesOfList_eq, List.flatMap_map, ← List.flatMap_id]
  refine List.flatMap_congr fun wave hwave => ?_
  exact fetches_ofWave hnumbered hspecs (hnumbered.lt_of_mem_wave hwave)

theorem emptySteps_ofWaves (hne : plan.nodes ≠ []) : (ofWaves plan).emptySteps = [] := by
  have hwaves : plan.waves ≠ [] := by
    obtain ⟨wave, ids, hids, -⟩ := hnumbered.exists_inWave (List.length_pos_iff.2 hne)
    exact List.ne_nil_of_mem (List.mem_of_getElem? hids)
  obtain ⟨first, rest, hcons⟩ := List.exists_cons_of_ne_nil hwaves
  have hitems : ∀ t ∈ plan.waves.map (ofWave plan), t.emptySteps = [] := by
    intro t ht
    obtain ⟨wave, hwave, rfl⟩ := List.mem_map.1 ht
    exact emptySteps_ofWave hspecs (hnumbered.wave_ne_nil hwave) (hnumbered.lt_of_mem_wave hwave)
  rw [ofWaves]
  rw [hcons, List.map_cons] at hitems ⊢
  exact emptySteps_step hitems

theorem mem_fetches_of_inWave {number : Nat} {waves : List (List Nat)}
    (hsub : waves ⊆ plan.waves) (hmem : waves[number]? = some wave) (hid : id ∈ wave) :
    id ∈ fetchesOfList (waves.map (ofWave plan)) := by
  have hwave := List.mem_of_getElem? hmem
  rw [fetchesOfList_eq]
  refine List.mem_flatMap.2 ⟨_, List.mem_map_of_mem hwave, ?_⟩
  rwa [fetches_ofWave hnumbered hspecs (hnumbered.lt_of_mem_wave (hsub hwave))]

/-- A node of an earlier wave comes first. -/
theorem before_ofWaves {first second number later : Nat} (hlt : number < later)
    (hfirst : plan.InWave first number) (hsecond : plan.InWave second later) :
    (ofWaves plan).Before first second := by
  obtain ⟨wave, hwave, hfirst⟩ := hfirst
  obtain ⟨other, hother, hsecond⟩ := hsecond
  have htake : (plan.waves.take later)[number]? = some wave :=
    (List.getElem?_take_of_lt hlt).trans hwave
  have hdrop : (plan.waves.drop later)[0]? = some other := by
    rw [List.getElem?_drop, Nat.add_zero, hother]
  rw [ofWaves, ← List.take_append_drop later plan.waves, List.map_append]
  exact before_of_append
    (mem_fetches_of_inWave hnumbered hspecs (List.take_subset _ _) htake hfirst)
    (mem_fetches_of_inWave hnumbered hspecs (List.drop_subset _ _) hdrop hsecond)

theorem not_before_ofWaves {first second number : Nat} (hfirst : plan.InWave first number)
    (hsecond : plan.InWave second number) : ¬(ofWaves plan).Before first second := by
  intro hbefore
  have hunordered : ∀ t ∈ plan.waves.map (ofWave plan), t.Unordered := by
    intro t ht
    obtain ⟨wave, -, rfl⟩ := List.mem_map.1 ht
    exact ofWave_unordered plan wave
  obtain ⟨k, l, t, u, hlt, ht, hmem, hu, hmem'⟩ := hbefore.of_unordered hunordered
  have hwave : ∀ {k : Nat} {t : ExecutionTree} {id : Nat},
      (plan.waves.map (ofWave plan))[k]? = some t → id ∈ t.fetches → plan.InWave id k := by
    intro k t id ht hid
    rw [List.getElem?_map] at ht
    obtain ⟨wave, hwave, rfl⟩ := Option.map_eq_some_iff.1 ht
    rw [fetches_ofWave hnumbered hspecs
      (hnumbered.lt_of_mem_wave (List.mem_of_getElem? hwave))] at hid
    exact ⟨wave, hwave, hid⟩
  have hk := hnumbered.eq_of_inWave hfirst (hwave ht hmem)
  have hl := hnumbered.eq_of_inWave hsecond (hwave hu hmem')
  omega

theorem schedules_ofWaves : (ofWaves plan).Schedules plan where
  order := fetches_ofWaves hnumbered hspecs
  once := by
    rw [fetches_ofWaves hnumbered hspecs, hnumbered.ids]
    exact hnumbered.waves_perm
  apart := by
    rw [fetches_ofWaves hnumbered hspecs]
    exact hnumbered.waves_perm.symm.nodup List.nodup_range
  runs := by
    intro o ho
    rw [ofWaves, occurrences, occurrencesOfList_eq, List.flatMap_map] at ho
    obtain ⟨wave, -, ho⟩ := List.mem_flatMap.1 ho
    rw [ofWave, occurrences, occurrencesOfList_eq] at ho
    obtain ⟨t, ht, ho⟩ := List.mem_flatMap.1 ho
    obtain ⟨id, -, hid⟩ := List.mem_filterMap.1 ht
    obtain ⟨n, m, hn, hm, rfl⟩ := ofId?_eq_some hid
    rw [occurrences_ofNode, List.mem_singleton] at ho
    subst ho
    have hsame : (n.occurrence m).node = id := hnumbered id n hn
    exact ⟨n, m, hsame ▸ hn, hsame ▸ hm, rfl⟩
  after := by
    intro n hn parent hparent hlt
    obtain ⟨i, hi⟩ := List.mem_iff_getElem?.1 hn
    rw [hnumbered i n hi] at hlt ⊢
    have hbound := (List.getElem?_eq_some_iff.1 hi).1
    obtain ⟨number, hnumber⟩ := hnumbered.exists_inWave (hlt.trans hbound)
    obtain ⟨later, hlater⟩ := hnumbered.exists_inWave hbound
    exact before_ofWaves hnumbered hspecs
      (hnumbered.inWave_lt_of_dependsOn hi hparent hlt hnumber hlater) hnumber hlater
  together := not_before_ofWaves hnumbered hspecs

end Plans

/-- Trees that mean the same schedule the same plans. -/
theorem Schedules.of_agrees {t u : ExecutionTree} {plan : Plan} (h : t.Schedules plan)
    (hagrees : t.Agrees u) : u.Schedules plan where
  order := hagrees.fetches.trans h.order
  once := hagrees.fetches ▸ h.once
  apart := hagrees.fetches ▸ h.apart
  runs := hagrees.occurrences ▸ h.runs
  after := fun n hn parent hparent hlt => hagrees.before_iff.2 (h.after n hn parent hparent hlt)
  together := fun hfirst hsecond hbefore =>
    h.together hfirst hsecond (hagrees.before_iff.1 hbefore)

end ExecutionTree

/-- Every plan that is built has an execution tree that schedules it, whatever its nodes depend on;
only a plan without nodes has nothing to run. -/
theorem build_schedule {p : Planner} {o : Operation} {d : Decomposition} {plan : Plan}
    (h : p.build o d = .ok plan) : ∃ tree?, ExecutionTree.ofPlan plan = .valid tree? ∧
      (tree? = none ↔ plan.nodes = []) ∧ ∀ t, tree? = some t → t.Schedules plan := by
  have hplan := Planner.build_follows h
  have hnumbered : plan.Numbered := fun i n hn => (hplan.node i n hn).id
  by_cases hne : plan.nodes = []
  · refine ⟨none, ?_, ?_, ?_⟩
    · rw [ExecutionTree.ofPlan, if_pos (List.isEmpty_iff.2 hne)]
    · simp [hne]
    · exact nofun
  · obtain ⟨t, ht⟩ := ExecutionTree.exists_minify
      (ExecutionTree.emptySteps_ofWaves hnumbered hplan.specs hne)
    refine ⟨some t, ?_, ?_, ?_⟩
    · rw [ExecutionTree.ofPlan_eq hne, ht]
      rfl
    · simp [hne]
    · intro u hu
      cases hu
      exact (ExecutionTree.schedules_ofWaves hnumbered hplan.specs).of_agrees
        (ExecutionTree.minify_agrees ht)

/-- The reviews wait for a later fragment, products and shipping for each other, and users for
themselves and for a fragment that is not there. -/
def tangled : Decomposition :=
  ⟨[⟨"reviews", "Query", [], [], .root⟩,
    ⟨"products", "Product", [], ["upc"], [.field "reviews", .each, .field "product"]⟩,
    ⟨"shipping", "Product", [], ["upc"], [.field "reviews", .each, .field "product"]⟩,
    ⟨"accounts", "User", [], ["id"], [.field "reviews", .each, .field "author"]⟩],
   [⟨2, 0, []⟩, ⟨0, 1, ["upc"]⟩, ⟨2, 1, ["upc"]⟩, ⟨1, 2, ["upc"]⟩, ⟨0, 3, ["id"]⟩, ⟨3, 3, ["id"]⟩,
    ⟨7, 3, ["id"]⟩]⟩

def tangledPlan : Plan := (shop.build shopQuery tangled).toOption.getD ⟨.query, [], []⟩

theorem build_schedule_tangled : tangledPlan.waves = [[0], [1, 3], [2]] ∧
    ∃ t, ExecutionTree.ofPlan tangledPlan = .valid (some t) ∧ t.Schedules tangledPlan := by
  have hbuild : shop.build shopQuery tangled = .ok tangledPlan := by
    rw [tangledPlan]
    exact ok_of_isOk (by decide +kernel) _
  obtain ⟨tree?, htree, hnone, hschedules⟩ := build_schedule hbuild
  refine ⟨by decide +kernel, ?_⟩
  cases tree? with
  | none =>
    have hempty : tangledPlan.nodes.length = 0 := congrArg List.length (hnone.1 rfl)
    have hcount : tangledPlan.nodes.length = 4 := by decide +kernel
    omega
  | some t => exact ⟨t, htree, hschedules t rfl⟩

end FederatedQuery
