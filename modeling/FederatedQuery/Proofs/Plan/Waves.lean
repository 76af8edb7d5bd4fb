import Mathlib.Data.List.Nodup
import Mathlib.Logic.Relation
import FederatedQuery.Plan

/-!
The waves of a plan. A node stands in the wave of its level, and its level is above the levels of
all nodes that it depends on.
-/
namespace FederatedQuery.Plan
variable {levels : List Nat} {nodes : List PlanNode} {n : PlanNode} {plan : Plan} {i level : Nat}

def levelOf (levels : List Nat) (n : PlanNode) : Nat :=
  ((n.dependsOn.filterMap (levels[·]?)).map (· + 1)).foldl max 0

theorem prefix_levelsFrom (levels : List Nat) (nodes : List PlanNode) :
    levels <+: levelsFrom levels nodes := by
  induction nodes generalizing levels with
  | nil => exact List.prefix_rfl
  | cons n nodes ih => exact (List.prefix_append levels _).trans (ih _)

theorem length_levelsFrom (levels : List Nat) (nodes : List PlanNode) :
    (levelsFrom levels nodes).length = levels.length + nodes.length := by
  induction nodes generalizing levels with
  | nil => rfl
  | cons n nodes ih =>
    have hrest := ih (levels ++ [levelOf levels n])
    rw [List.length_append, List.length_singleton] at hrest
    rw [List.length_cons]
    exact hrest.trans (by omega)

/-- The level of a node is made from the levels of the nodes in front of it. -/
theorem levelsFrom_getElem? (h : nodes[i]? = some n) :
    (levelsFrom levels nodes)[levels.length + i]? =
      some (levelOf ((levelsFrom levels nodes).take (levels.length + i)) n) := by
  induction nodes generalizing levels i with
  | nil => exact nomatch h
  | cons m nodes ih =>
    have hprefix := prefix_levelsFrom (levels ++ [levelOf levels m]) nodes
    cases i with
    | zero =>
      cases h
      obtain ⟨more, hmore⟩ := hprefix
      have heq : levelsFrom levels (n :: nodes) = levels ++ levelOf levels n :: more := by
        rw [List.append_cons]
        exact hmore.symm
      simp [heq]
    | succ i =>
      have hrest : (levelsFrom (levels ++ [levelOf levels m]) nodes)[_]? = some _ := ih h
      have hlength : (levels ++ [levelOf levels m]).length + i = levels.length + (i + 1) := by
        rw [List.length_append, List.length_singleton]
        omega
      rw [hlength] at hrest
      exact hrest

theorem length_levels (plan : Plan) : plan.levels.length = plan.nodes.length :=
  (length_levelsFrom [] plan.nodes).trans (Nat.zero_add _)

theorem exists_level (h : i < plan.nodes.length) : ∃ level, plan.levels[i]? = some level := by
  rw [← length_levels] at h
  exact ⟨_, List.getElem?_eq_getElem h⟩

theorem lt_of_level (h : plan.levels[i]? = some level) : i < plan.nodes.length := by
  rw [← length_levels]
  exact (List.getElem?_eq_some_iff.1 h).1

theorem levels_getElem? (h : plan.nodes[i]? = some n) :
    plan.levels[i]? = some (levelOf (plan.levels.take i) n) := by
  have hlevel : (levelsFrom [] plan.nodes)[_]? = some _ := levelsFrom_getElem? h
  rwa [List.length_nil, Nat.zero_add] at hlevel

theorem lt_levelOf {id : Nat} (hid : id ∈ n.dependsOn) (hlevel : levels[id]? = some level) :
    level < levelOf levels n := by
  have hmem : level + 1 ∈ (n.dependsOn.filterMap (levels[·]?)).map (· + 1) :=
    List.mem_map_of_mem (List.mem_filterMap.2 ⟨id, hid, hlevel⟩)
  have hle := List.le_max?_getD_of_mem (k := 0) hmem
  rw [levelOf, List.foldl_max]
  omega

/-- A level above the lowest comes from a dependency on the level below. -/
theorem exists_of_levelOf (h : levelOf levels n = level + 1) :
    ∃ id ∈ n.dependsOn, levels[id]? = some level := by
  rw [levelOf, List.foldl_max] at h
  cases hmax : ((n.dependsOn.filterMap (levels[·]?)).map (· + 1)).max? with
  | none =>
    rw [hmax] at h
    simp at h
  | some top =>
    have htop : top = level + 1 := by
      rw [hmax, Option.getD_some] at h
      omega
    obtain ⟨below, hbelow, hsucc⟩ := List.mem_map.1 (List.max?_mem hmax)
    obtain ⟨id, hid, hlevel⟩ := List.mem_filterMap.1 hbelow
    have hsame : below = level := by omega
    exact ⟨id, hid, hsame ▸ hlevel⟩

/-- A node is above what it depends on in front of it. -/
theorem level_lt {id lower : Nat} (hn : plan.nodes[i]? = some n) (hid : id ∈ n.dependsOn)
    (hlt : id < i) (hlower : plan.levels[id]? = some lower) (hlevel : plan.levels[i]? = some level) :
    lower < level := by
  have htake : (plan.levels.take i)[id]? = some lower :=
    (List.getElem?_take_of_lt hlt).trans hlower
  rw [levels_getElem? hn] at hlevel
  cases hlevel
  exact lt_levelOf hid htake

/-- A node above the lowest level depends on a node in front of it, one level below. -/
theorem exists_dependsOn_below (hn : plan.nodes[i]? = some n)
    (h : plan.levels[i]? = some (level + 1)) :
    ∃ id ∈ n.dependsOn, id < i ∧ plan.levels[id]? = some level := by
  rw [levels_getElem? hn] at h
  obtain ⟨id, hid, hlevel⟩ := exists_of_levelOf (Option.some.inj h)
  rw [List.getElem?_take] at hlevel
  split at hlevel
  next hlt => exact ⟨id, hid, hlt, hlevel⟩
  next => exact nomatch hlevel

/-- There is a node on every level up to the highest. -/
theorem exists_of_level_le {wave : Nat} (h : plan.levels[i]? = some level) (hle : wave ≤ level) :
    ∃ id : Nat, plan.levels[id]? = some wave := by
  induction level generalizing i with
  | zero => exact ⟨i, by rwa [Nat.le_zero.1 hle]⟩
  | succ level ih =>
    by_cases htop : wave = level + 1
    · exact ⟨i, htop ▸ h⟩
    · have hn := List.getElem?_eq_getElem (lt_of_level h)
      obtain ⟨id, -, -, hid⟩ := exists_dependsOn_below hn h
      exact ih hid (by omega)

def InWave (plan : Plan) (id wave : Nat) : Prop := ∃ ids, plan.waves[wave]? = some ids ∧ id ∈ ids

def Numbered (plan : Plan) : Prop := ∀ (i : Nat) n, plan.nodes[i]? = some n → n.id = i

namespace Numbered

theorem ids (h : plan.Numbered) : plan.nodes.map (·.id) = List.range plan.nodes.length := by
  refine List.ext_getElem? fun i => ?_
  rw [List.getElem?_map]
  cases hn : plan.nodes[i]? with
  | none =>
    have hle := List.getElem?_eq_none_iff.1 hn
    simp [hle]
  | some n =>
    have hlt := (List.getElem?_eq_some_iff.1 hn).1
    rw [List.getElem?_range hlt, Option.map_some, h i n hn]

/-- A wave lists nodes in the order of their numbers. -/
theorem wave_sublist (h : plan.Numbered) {wave : List Nat} (hwave : wave ∈ plan.waves) :
    wave.Sublist (List.range plan.nodes.length) := by
  obtain ⟨level, -, rfl⟩ := List.mem_map.1 hwave
  have hzip : (plan.nodes.zip plan.levels).map (·.1.id) = List.range plan.nodes.length := by
    have hfst : (plan.nodes.zip plan.levels).map Prod.fst = plan.nodes :=
      List.map_fst_zip (Nat.le_of_eq (length_levels plan).symm)
    calc
      (plan.nodes.zip plan.levels).map (·.1.id)
          = ((plan.nodes.zip plan.levels).map Prod.fst).map (·.id) := List.map_map.symm
      _ = List.range plan.nodes.length := by rw [hfst, h.ids]
  exact hzip ▸ List.filter_sublist.map _

theorem lt_of_mem_wave (h : plan.Numbered) {wave : List Nat} (hwave : wave ∈ plan.waves) :
    ∀ id ∈ wave, id < plan.nodes.length :=
  fun _ hid => List.mem_range.1 ((h.wave_sublist hwave).subset hid)

theorem inWave_iff (h : plan.Numbered) {id wave : Nat} :
    plan.InWave id wave ↔ plan.levels[id]? = some wave := by
  have hmem : ∀ level, id ∈ ((plan.nodes.zip plan.levels).filter (·.2 = level)).map (·.1.id) ↔
      plan.levels[id]? = some level := by
    intro level
    constructor
    · intro hin
      obtain ⟨e, he, rfl⟩ := List.mem_map.1 hin
      obtain ⟨he, hlevel⟩ := List.mem_filter.1 he
      obtain ⟨i, hi⟩ := List.mem_iff_getElem?.1 he
      obtain ⟨hn, hl⟩ := List.getElem?_zip_eq_some.1 hi
      rw [h i _ hn, hl, of_decide_eq_true hlevel]
    · intro hlevel
      have hlt := lt_of_level hlevel
      have hn := List.getElem?_eq_getElem hlt
      have hzip : (plan.nodes[id], level) ∈ plan.nodes.zip plan.levels :=
        List.mem_iff_getElem?.2 ⟨id, List.getElem?_zip_eq_some.2 ⟨hn, hlevel⟩⟩
      exact List.mem_map.2 ⟨_, List.mem_filter.2 ⟨hzip, decide_eq_true rfl⟩, h id _ hn⟩
  rw [InWave, waves]
  constructor
  · intro hwave
    obtain ⟨ids, hids, hid⟩ := hwave
    rw [List.getElem?_map] at hids
    obtain ⟨w, hw, rfl⟩ := Option.map_eq_some_iff.1 hids
    obtain ⟨hlt, rfl⟩ := List.getElem?_eq_some_iff.1 hw
    rw [List.getElem_range] at hid
    exact (hmem wave).1 hid
  · intro hlevel
    have hlt : wave < (plan.levels.map (· + 1)).max?.getD 0 := by
      have hin : wave + 1 ∈ plan.levels.map (· + 1) :=
        List.mem_map_of_mem (List.mem_of_getElem? hlevel)
      exact List.le_max?_getD_of_mem hin
    refine ⟨_, ?_, (hmem wave).2 hlevel⟩
    rw [List.getElem?_map, List.getElem?_range hlt, Option.map_some]

theorem exists_inWave (h : plan.Numbered) {id : Nat} (hid : id < plan.nodes.length) :
    ∃ wave, plan.InWave id wave := by
  obtain ⟨level, hlevel⟩ := exists_level hid
  exact ⟨level, h.inWave_iff.2 hlevel⟩

theorem eq_of_inWave (h : plan.Numbered) {id wave other : Nat} (hwave : plan.InWave id wave)
    (hother : plan.InWave id other) : wave = other :=
  Option.some.inj ((h.inWave_iff.1 hwave).symm.trans (h.inWave_iff.1 hother))

/-- A node runs in a later wave than what it depends on in front of it. -/
theorem inWave_lt_of_dependsOn (h : plan.Numbered) {id wave laterWave : Nat}
    (hn : plan.nodes[i]? = some n) (hid : id ∈ n.dependsOn) (hlt : id < i)
    (hwave : plan.InWave id wave) (hlater : plan.InWave i laterWave) : wave < laterWave :=
  level_lt hn hid hlt (h.inWave_iff.1 hwave) (h.inWave_iff.1 hlater)

theorem wave_ne_nil (h : plan.Numbered) {wave : List Nat} (hwave : wave ∈ plan.waves) :
    wave ≠ [] := by
  obtain ⟨number, hnumber⟩ := List.mem_iff_getElem?.1 hwave
  have hlt : number < (plan.levels.map (· + 1)).max?.getD 0 := by
    have hlength := (List.getElem?_eq_some_iff.1 hnumber).1
    simpa [waves] using hlength
  obtain ⟨top, htop⟩ : ∃ top, (plan.levels.map (· + 1)).max? = some top := by
    cases hmax : (plan.levels.map (· + 1)).max? with
    | none => simp [hmax] at hlt
    | some top => exact ⟨top, rfl⟩
  obtain ⟨level, hlevel, rfl⟩ := List.mem_map.1 (List.max?_mem htop)
  obtain ⟨i, hi⟩ := List.mem_iff_getElem?.1 hlevel
  rw [htop, Option.getD_some] at hlt
  obtain ⟨id, hid⟩ := exists_of_level_le hi (Nat.le_of_lt_succ hlt)
  obtain ⟨ids, hids, hmem⟩ := h.inWave_iff.2 hid
  rw [hnumber] at hids
  cases hids
  exact List.ne_nil_of_mem hmem

theorem mem_waves (h : plan.Numbered) {id : Nat} :
    id ∈ plan.waves.flatten ↔ id < plan.nodes.length := by
  constructor
  · intro hid
    obtain ⟨wave, hwave, hmem⟩ := List.mem_flatten.1 hid
    exact h.lt_of_mem_wave hwave id hmem
  · intro hid
    obtain ⟨wave, ids, hids, hmem⟩ := h.exists_inWave hid
    exact List.mem_flatten.2 ⟨ids, List.mem_of_getElem? hids, hmem⟩

/-- Every node runs in one wave. -/
theorem waves_perm (h : plan.Numbered) :
    plan.waves.flatten.Perm (List.range plan.nodes.length) := by
  have hnodup : plan.waves.flatten.Nodup := by
    refine List.nodup_flatten.2 ⟨fun wave hwave => ?_, ?_⟩
    · exact (h.wave_sublist hwave).nodup List.nodup_range
    · refine List.pairwise_iff_getElem.2 fun i j hi hj hlt id hfirst hsecond => ?_
      have heq := h.eq_of_inWave ⟨_, List.getElem?_eq_getElem hi, hfirst⟩
        ⟨_, List.getElem?_eq_getElem hj, hsecond⟩
      omega
  refine (List.perm_ext_iff_of_nodup hnodup List.nodup_range).2 fun id => ?_
  rw [h.mem_waves, List.mem_range]

end Numbered

structure Ordered (plan : Plan) : Prop where
  position : ∀ (i : Nat) n, plan.nodes[i]? = some n → n.id = i
  earlier : ∀ (i : Nat) n, plan.nodes[i]? = some n → ∀ id ∈ n.dependsOn, id < i

theorem Ordered.numbered (h : plan.Ordered) : plan.Numbered := h.position

/-- A node that depends on another runs in a later wave, and so does one that does over others. -/
theorem Ordered.inWave_lt (h : plan.Ordered) {id later wave laterWave : Nat}
    (hdepends : Relation.TransGen
      (fun i j => ∃ n, plan.nodes[i]? = some n ∧ j ∈ n.dependsOn) later id)
    (hlater : plan.InWave later laterWave) (hid : plan.InWave id wave) : wave < laterWave := by
  have hnumbered := h.numbered
  induction hdepends generalizing wave with
  | single hij =>
    obtain ⟨n, hn, hmem⟩ := hij
    exact hnumbered.inWave_lt_of_dependsOn hn hmem (h.earlier _ n hn _ hmem) hid hlater
  | @tail j k _ hjk ih =>
    obtain ⟨n, hn, hk⟩ := hjk
    obtain ⟨between, hbetween⟩ :=
      hnumbered.exists_inWave (List.getElem?_eq_some_iff.1 hn).1
    exact Nat.lt_trans (hnumbered.inWave_lt_of_dependsOn hn hk (h.earlier _ n hn _ hk) hid hbetween)
      (ih hbetween)

end FederatedQuery.Plan
