import FederatedQuery.Proofs.Decomposition.KeyForwarding
import FederatedQuery.Proofs.Plan.Build
import FederatedQuery.Proofs.Validation

/-!
When the plan of an operation is valid. Positions, order and batches always are; keys are looked for
below the first field of each response key only, so siblings that share a key can hide them.
-/
namespace FederatedQuery

namespace SelectionSet

theorem findPath?_eq_some {s t : SelectionSet} {keys : List String} :
    s.findPath? keys = some t ↔
      ∃ way, DescendsFirst s way ∧ way.map (·.responseKey) = keys ∧ after s way = t := by
  induction keys generalizing s with
  | nil =>
    constructor
    · intro h
      cases h
      exact ⟨[], trivial, rfl, rfl⟩
    · rintro ⟨way, -, hkeys, rfl⟩
      rw [List.map_eq_nil_iff.1 hkeys]
      rfl
  | cons key keys ih =>
    rw [findPath?, Option.bind_eq_some_iff]
    constructor
    · rintro ⟨n, hn, h⟩
      obtain ⟨way, hway, rfl, hafter⟩ := ih.1 h
      have hkey := (mem_of_find? hn).2
      subst hkey
      exact ⟨n :: way, ⟨hn, hway⟩, rfl, hafter⟩
    · rintro ⟨way, hway, hkeys, hafter⟩
      cases way with
      | nil => exact nomatch hkeys
      | cons n way =>
        obtain ⟨rfl, hrest⟩ := List.cons.inj hkeys
        exact ⟨n, hway.1, ih.2 ⟨way, hway.2, hrest, hafter⟩⟩

theorem descendsFirst_concat {s : SelectionSet} {way : List SelectionNode} {n : SelectionNode} :
    DescendsFirst s (way ++ [n]) ↔
      DescendsFirst s way ∧ (after s way).find? n.responseKey = some n := by
  induction way generalizing s with
  | nil => simp [DescendsFirst, after]
  | cons m way ih => simp [DescendsFirst, after, ih, and_assoc]

end SelectionSet

namespace Plan

/-- The scope of a key is the end of the first way that leads from the parent to the child. -/
theorem keyScope_eq_some {parent child : FetchFragment} {scope : SelectionSet × Option String} :
    keyScope parent child = some scope ↔ ∃ way : List SelectionNode,
      child.providedPath.keysBelow? parent.providedPath = some (way.map (·.responseKey)) ∧
      SelectionSet.DescendsFirst parent.selection way ∧
      scope = (SelectionSet.after parent.selection way, way.getLast?.map (·.ofType)) := by
  unfold keyScope
  cases hkeys : child.providedPath.keysBelow? parent.providedPath with
  | none => simp
  | some keys =>
    cases hlast : keys.getLast? with
    | none =>
      obtain rfl : keys = [] := List.getLast?_eq_none_iff.1 hlast
      constructor
      · intro h
        cases h
        exact ⟨[], rfl, trivial, rfl⟩
      · intro h
        obtain ⟨way, hway, -, rfl⟩ := h
        have hnil : way = [] := List.map_eq_nil_iff.1 (Option.some.inj hway).symm
        rw [hnil]
        rfl
    | some last =>
      -- the field of the last key is found by itself, since its type counts as well
      obtain ⟨front, rfl⟩ := List.getLast?_eq_some_iff.1 hlast
      simp only [List.getLast?_concat, List.dropLast_concat, Option.map_eq_some_iff,
        Option.bind_eq_some_iff]
      constructor
      · intro h
        obtain ⟨n, ⟨s, hs, hn⟩, rfl⟩ := h
        obtain ⟨way, hway, rfl, rfl⟩ := SelectionSet.findPath?_eq_some.1 hs
        have hkey := (SelectionSet.mem_of_find? hn).2
        subst hkey
        refine ⟨way ++ [n], by simp, SelectionSet.descendsFirst_concat.2 ⟨hway, hn⟩, ?_⟩
        rw [SelectionSet.after_concat]
        simp
      · intro h
        obtain ⟨way, hkeys, hfirst, rfl⟩ := h
        have hkeys := Option.some.inj hkeys
        cases List.eq_nil_or_concat way with
        | inl hnil =>
          rw [hnil] at hkeys
          simp at hkeys
        | inr hconcat =>
          obtain ⟨way, n, rfl⟩ := hconcat
          rw [List.concat_eq_append] at hkeys hfirst ⊢
          rw [List.map_append, List.map_singleton] at hkeys
          obtain ⟨rfl, hkey⟩ := List.append_inj' hkeys rfl
          obtain ⟨hway, hn⟩ := SelectionSet.descendsFirst_concat.1 hfirst
          refine ⟨n, ⟨_, SelectionSet.findPath?_eq_some.2 ⟨way, hway, rfl, rfl⟩, ?_⟩, ?_⟩
          · rw [List.singleton_inj.1 hkey]
            exact hn
          · rw [SelectionSet.after_concat]
            simp

theorem selectsKey_iff {type key : String} {scope : SelectionSet × Option String} :
    selectsKey type key scope = true ↔ ∃ n ∈ scope.1, n.name = key ∧ n.alias? = none ∧
      (n.onType = type ∨ scope.2 = some n.onType) := by
  simp [selectsKey, List.any_eq_true, and_assoc]

/-- The checker finds every key exactly if they stand at the end of the first way. -/
theorem selectsKeys_iff {parent child : FetchFragment} (hkeys : child.requiredKeys ≠ []) :
    (∀ k ∈ child.requiredKeys,
      (keyScope parent child).any (selectsKey child.onType k) = true) ↔
    ∃ way, SelectionSet.DescendsFirst parent.selection way ∧ KeysStand parent child way := by
  constructor
  · intro h
    cases hscope : keyScope parent child with
    | none =>
      obtain ⟨k, hk⟩ := List.exists_mem_of_ne_nil _ hkeys
      have hany := h k hk
      rw [hscope] at hany
      exact nomatch hany
    | some scope =>
      obtain ⟨way, hbelow, hfirst, rfl⟩ := keyScope_eq_some.1 hscope
      refine ⟨way, hfirst, hbelow, fun k hk => ?_⟩
      have hany := h k hk
      rw [hscope, Option.any_some] at hany
      exact selectsKey_iff.1 hany
  · intro h
    obtain ⟨way, hfirst, hbelow, hheld⟩ := h
    have hscope := keyScope_eq_some.2 ⟨way, hbelow, hfirst, rfl⟩
    intro k hk
    rw [hscope, Option.any_some]
    exact selectsKey_iff.2 (hheld k hk)

variable {plan : Plan}

theorem validate_eq_valid_iff :
    plan.validate = .valid () ↔ plan.mergeSpecs.length = plan.nodes.length ∧
      ∀ (i : Nat) n, plan.nodes[i]? = some n → n.id = i ∧
        (∀ id ∈ n.dependsOn, (plan.validateParent n id).causes = []) ∧
        ∀ id ∈ n.batchSiblings, (plan.validateSibling n id).causes = [] := by
  rw [validate, ((Validated.Explained.check _ _).zip
    (Validated.Explained.traverse _ _)).discard_eq_valid]
  simp only [Validated.causes_zip, List.append_eq_nil_iff, Validated.causes_check,
    decide_eq_true_eq, Validated.causes_traverse, List.flatMap_eq_nil_iff,
    Validated.causes_within, List.map_eq_nil_iff, validateNode, Validated.causes_discard,
    Prod.forall, List.mem_zipIdx_iff_getElem?, and_assoc]
  constructor
  · intro h
    exact ⟨h.1, fun i n hn => h.2 n i hn⟩
  · intro h
    exact ⟨h.1, fun n i hn => h.2 i n hn⟩

/-- A node passes the check of a node before it if its keys stand at the end of the first way. -/
theorem Follows.validateParent_iff {x : SchemaIndex} {d : Decomposition} (h : plan.Follows x d)
    {i id : Nat} {n parent : PlanNode} (hn : plan.nodes[i]? = some n) (hid : id < i)
    (hparent : plan.nodes[id]? = some parent) :
    (plan.validateParent n id).causes = [] ↔ (n.fragment.requiredKeys ≠ [] →
      ∃ way, SelectionSet.DescendsFirst parent.fragment.selection way ∧
        KeysStand parent.fragment n.fragment way) := by
  have hni : n.id = i := (h.node i n hn).id
  have hlt : i < plan.mergeSpecs.length := by
    rw [h.specs]
    exact (List.getElem?_eq_some_iff.1 hn).1
  have hm : plan.mergeSpecs[i]? = some plan.mergeSpecs[i] := List.getElem?_eq_getElem hlt
  have hkeys := MergeSpec.emit_keys (h.spec i n _ hn hm)
  rw [validateParent, if_pos (by omega), validateKeys, mergeSpec?, hni, hm]
  -- without keys to forward nothing is looked for, and neither does the fragment require any
  by_cases hempty : plan.mergeSpecs[i].keyForwarding.isEmpty = true
  · have hnil : n.fragment.requiredKeys = [] := by
      rw [← hkeys, List.isEmpty_iff.1 hempty]
      rfl
    simp [hempty, hnil]
  · have hsome : plan.mergeSpecs[i].keyForwarding ≠ [] := fun hnil =>
      hempty (List.isEmpty_iff.2 hnil)
    have hne : n.fragment.requiredKeys ≠ [] := by
      rw [← hkeys]
      exact fun hnil => hsome (List.map_eq_nil_iff.1 hnil)
    rw [← selectsKeys_iff hne, ← hkeys]
    simp [hsome, node?, hparent, Validated.causes_check]

end Plan

namespace Planner
variable {p : Planner} {o : Operation} {d : Decomposition} {plan : Plan}

theorem build_of_plan (h : p.plan o = .ok plan) :
    ∃ d, p.decompose o = .ok d ∧ p.build o d = .ok plan := by
  unfold Planner.plan at h
  by_cases hkind : o.kind = .subscription
  · rw [if_pos hkind] at h
    exact nomatch h
  · rw [if_neg hkind] at h
    exact bind_eq_ok.1 h

theorem plan_of_ok (h : p.plan o = .ok plan) :
    ∃ d, p.decompose o = .ok d ∧ plan.Follows p.index d := by
  obtain ⟨d, hd, hbuild⟩ := build_of_plan h
  exact ⟨d, hd, build_follows hbuild⟩

/-- A node waits for earlier nodes. They supply its keys, by first ways if no siblings share a
response key. -/
theorem dependsOn_supplied (hd : p.decompose o = .ok d) (hplan : plan.Follows p.index d)
    {i id : Nat} {n : PlanNode} (hn : plan.nodes[i]? = some n) (hid : id ∈ n.dependsOn) :
    id < i ∧ ∃ parent, plan.nodes[id]? = some parent ∧
      (o.selection.DistinctKeys → n.fragment.requiredKeys ≠ [] →
        ∃ way, SelectionSet.DescendsFirst parent.fragment.selection way ∧
          KeysStand parent.fragment n.fragment way) := by
  obtain ⟨drafts, rfl, groups, -, htraced⟩ := decompose_traced hd
  have hnode := hplan.node i n hn
  obtain ⟨dep, hdep, hchild, rfl⟩ := (hplan.mem_dependsOn hn).1 hid
  obtain ⟨c, hc, hparent, -⟩ := Decomposition.mem_dependencies_ofDrafts.1 hdep
  rw [hchild] at hc
  have hcn : c.fragment = n.fragment :=
    Option.some.inj ((Decomposition.fragment?_ofDrafts hc).symm.trans hnode.fragment)
  have hlt : dep.parent < i := by
    cases htraced _ hc with
    | inl hroot => exact hroot.earlier _ hparent
    | inr hentered =>
      obtain ⟨_, -, _, _, _, -, hentered⟩ := hentered
      exact hentered.earlier _ hparent
  have hbound : dep.parent < plan.nodes.length :=
    Nat.lt_trans hlt (List.getElem?_eq_some_iff.1 hn).1
  refine ⟨hlt, plan.nodes[dep.parent], List.getElem?_eq_getElem hbound, fun hdistinct hkeys => ?_⟩
  cases htraced _ hc with
  | inl hroot => exact absurd (hcn ▸ hroot.keys) hkeys
  | inr hentered =>
    obtain ⟨f, hf, -, way, -, hfirst, hstand⟩ := hentered.supplied hparent
    have hfragment := (hplan.node _ _ (List.getElem?_eq_getElem hbound)).fragment
    rw [Decomposition.fragment?_ofDrafts hf] at hfragment
    rw [← Option.some.inj hfragment, ← hcn]
    exact ⟨way, hfirst hdistinct, hstand⟩

end Planner

/-- The plan of an operation is valid exactly if the keys of every node stand where the first fields
of their response keys lead, and they do if no siblings in the operation share a response key. -/
theorem plan_valid_iff {p : Planner} {o : Operation} {plan : Plan} (h : p.plan o = .ok plan) :
    (plan.validate = .valid () ↔ ∀ child ∈ plan.nodes, child.fragment.requiredKeys ≠ [] →
      ∀ id ∈ child.dependsOn, ∃ parent, plan.node? id = some parent ∧
        ∃ way, SelectionSet.DescendsFirst parent.fragment.selection way ∧
          KeysStand parent.fragment child.fragment way) ∧
    (o.selection.DistinctKeys → plan.validate = .valid ()) := by
  obtain ⟨d, hd, hplan⟩ := Planner.plan_of_ok h
  have hvalid : plan.validate = .valid () ↔ ∀ (i : Nat) n, plan.nodes[i]? = some n →
      ∀ id ∈ n.dependsOn, (plan.validateParent n id).causes = [] := by
    rw [Plan.validate_eq_valid_iff]
    constructor
    · intro hall i n hn
      exact (hall.2 i n hn).2.1
    · intro hall
      -- siblings are of one batch, which has one source and one set of dependencies
      refine ⟨hplan.specs, fun i n hn => ⟨(hplan.node i n hn).id, hall i n hn, fun id hid => ?_⟩⟩
      obtain ⟨other, hother, halike⟩ := hplan.siblings n (List.mem_of_getElem? hn) id hid
      rw [Plan.validateSibling, Plan.node?, hother, Option.any_some, halike]
      rfl
  rw [hvalid]
  constructor
  · constructor
    · intro hall child hchild hkeys id hid
      obtain ⟨i, hi, rfl⟩ := List.mem_iff_getElem.1 hchild
      have hn := List.getElem?_eq_getElem hi
      obtain ⟨hlt, parent, hparent, -⟩ := Planner.dependsOn_supplied hd hplan hn hid
      have hcheck := (hplan.validateParent_iff hn hlt hparent).1 (hall i _ hn id hid)
      exact ⟨parent, hparent, hcheck hkeys⟩
    · intro hall i n hn id hid
      obtain ⟨hlt, parent, hparent, -⟩ := Planner.dependsOn_supplied hd hplan hn hid
      refine (hplan.validateParent_iff hn hlt hparent).2 fun hkeys => ?_
      obtain ⟨parent', hparent', hway⟩ := hall n (List.mem_of_getElem? hn) hkeys id hid
      rw [Plan.node?, hparent] at hparent'
      cases hparent'
      exact hway
  · intro hdistinct i n hn id hid
    obtain ⟨hlt, parent, hparent, hway⟩ := Planner.dependsOn_supplied hd hplan hn hid
    exact (hplan.validateParent_iff hn hlt hparent).2 (hway hdistinct)

def shopPlan : Plan := (shop.plan shopQuery).toOption.getD ⟨.query, [], []⟩

theorem shop_plan : shop.plan shopQuery = .ok shopPlan := by
  rw [shopPlan]
  exact ok_of_isOk (by decide +kernel) _

theorem plan_valid_shop : shopPlan.nodes.length = 4 ∧ shopPlan.validate = .valid () :=
  ⟨by decide +kernel, (plan_valid_iff shop_plan).2 (by decide +kernel)⟩

def homesSchema : Blueprint :=
  ⟨"Query", none, none, ["s1", "s2"],
    [⟨"Query", [{ graph := "s1" }], [⟨"node", .named "Node" false, []⟩]⟩,
     ⟨"Node", [{ graph := "s1" }], [⟨"id", .named "ID" true, []⟩]⟩,
     ⟨"A", [{ graph := "s1" }], [⟨"owner", .named "User" false, []⟩]⟩,
     ⟨"B", [{ graph := "s1" }], [⟨"owner", .named "User" false, []⟩]⟩,
     ⟨"User", [{ graph := "s1", key := some "id" }, { graph := "s2", key := some "id" }],
       [⟨"id", .named "ID" true, []⟩, ⟨"name", .named "String" false, [{ graph := some "s1" }]⟩,
        ⟨"bio", .named "String" false, [{ graph := some "s2" }]⟩]⟩]⟩

def homes : Planner := ⟨homesSchema.index.value?.getD ⟨"", none, none, .empty⟩, {}⟩

def homesQuery : String :=
  "{ node { ... on A { owner { name } } ... on B { owner { bio } } } }"

def homesPlan : Plan := (homes.planQuery homesQuery none).toOption.getD ⟨.query, [], []⟩

/-- The key for `bio` stands below the owner of a `B`, but it is looked for below that of an `A`. -/
theorem homes_plan_invalid : homesSchema.index.isValid = true ∧
    homes.planQuery homesQuery none = .ok homesPlan ∧ homesPlan.validate.isValid = false := by
  refine ⟨by decide +kernel, ?_, by decide +kernel⟩
  rw [homesPlan]
  exact ok_of_isOk (by decide +kernel) _

end FederatedQuery
