import FederatedQuery.Proofs.Plan.Documents

/-!
The variables of a plan. Every fetch lists those of its fragment in the order in which they appear
first. All fetches together list those of the operation, as no field is lost between fragments and
keys have no arguments.
-/
namespace FederatedQuery

namespace Planner
variable {p : Planner} {o : Operation} {d : Decomposition}

/-- What fragments ask for together is what the operation asks for. -/
theorem decompose_asks (h : p.decompose o = .ok d) :
    (d.fragments.flatMap fun f => SelectionSet.visible f.providedPath.keys f.selection).Perm
      (SelectionSet.visible [] (o.selection.filter (!·.isTypename))) := by
  cases decomposes_of_ok p.complete_asks h with
  | @mk roots drafts fields _ enters =>
    have hgroups : ((rootGroups o roots).flatMap (·.2)).Perm
        (o.selection.filter (!·.isTypename)) := by
      rw [← map_snd_ungroup, ← fields]
      exact (ungroup_rootGroups_perm o roots).map _
    rw [Decomposition.asked_ofDrafts]
    exact enters.asks.trans (SelectionSet.visible_perm [] hgroups)

/-- Hidden fields of a fragment are keys. -/
theorem decompose_hidden_arguments (h : p.decompose o = .ok d)
    (hs : SelectionSet.Everywhere SelectionSet.Collected o.selection) :
    ∀ f ∈ d.fragments, ∀ n ∈ SelectionSet.allFields f.selection, n.isHidden = true →
      n.arguments = [] := by
  intro f hf n hn hidden
  obtain ⟨t, hassembled, hn⟩ := (decompose_assembled h hs f hf).exists_of_mem hn
  exact (hassembled.keys n hn hidden).2.2

/-- A variable is used by a fragment exactly if a field of the operation uses it, apart from type
names at the root. -/
theorem decompose_uses_iff (h : p.decompose o = .ok d)
    (hs : SelectionSet.Everywhere SelectionSet.Collected o.selection) (name : String) :
    (∃ f ∈ d.fragments, f.selection.Uses name) ↔
      SelectionSet.Uses (o.selection.filter (!·.isTypename)) name := by
  have hkeys := decompose_hidden_arguments h hs
  have hshown : ∀ n ∈ SelectionSet.allFields (o.selection.filter (!·.isTypename)),
      n.isHidden = true → n.arguments = [] := by
    intro n hn hidden
    obtain ⟨t, hcollected, hmem⟩ :=
      hs.exists_of_mem (SelectionSet.allFields_subset List.filter_sublist.subset hn)
    rw [hcollected.visible n hmem] at hidden
    exact nomatch hidden
  rw [SelectionSet.uses_iff_visible [] hshown]
  have hasks := decompose_asks h
  constructor
  · rintro ⟨f, hf, huses⟩
    obtain ⟨e, he, hmentions⟩ :=
      (SelectionSet.uses_iff_visible f.providedPath.keys (hkeys f hf)).1 huses
    exact ⟨e, hasks.subset (List.mem_flatMap.2 ⟨f, hf, he⟩), hmentions⟩
  · rintro ⟨e, he, hmentions⟩
    obtain ⟨f, hf, he⟩ := List.mem_flatMap.1 (hasks.symm.subset he)
    exact ⟨f, hf, (SelectionSet.uses_iff_visible f.providedPath.keys (hkeys f hf)).2
      ⟨e, he, hmentions⟩⟩

end Planner

/-- Every fetch of a plan lists the variables of its fragment, each once and in the order in which a
walk from the top meets them. A variable is listed by some fetch exactly if a field of the operation
uses it, apart from type names at the root. -/
theorem plan_variables {text : String} {name? : Option String} {p : Planner} {o : Operation}
    {plan : Plan} (ho : Operation.parse text name? p.index = .ok o) (h : p.plan o = .ok plan) :
    (∀ n ∈ plan.nodes, n.fragment.selection.ListsVariables n.fetch.variableUsages) ∧
    ∀ name, (∃ n ∈ plan.nodes, name ∈ n.fetch.variableUsages) ↔
      SelectionSet.Uses (o.selection.filter (!·.isTypename)) name := by
  obtain ⟨d, hd, hbuild⟩ := Planner.build_of_plan h
  obtain ⟨hcount, -, hmade, -⟩ := Planner.build_made hbuild
  have husages : ∀ (i : Nat) n, plan.nodes[i]? = some n →
      n.fetch.variableUsages = n.fragment.selection.usedVariables := by
    intro i n hn
    obtain ⟨m, -, hmade⟩ := hmade i n hn
    rw [hmade.fetch]
    rfl
  refine ⟨fun n hn => ?_, fun name => ?_⟩
  · obtain ⟨i, hi⟩ := List.mem_iff_getElem?.1 hn
    rw [husages i n hi]
    exact SelectionSet.listsVariables _
  · rw [← Planner.decompose_uses_iff hd (Operation.parse_everywhere ho)]
    constructor
    · rintro ⟨n, hn, hname⟩
      obtain ⟨i, hi⟩ := List.mem_iff_getElem?.1 hn
      obtain ⟨m, -, hmade⟩ := hmade i n hi
      rw [husages i n hi, SelectionSet.mem_usedVariables] at hname
      exact ⟨n.fragment, List.mem_of_getElem? hmade.represents.fragment, hname⟩
    · rintro ⟨f, hf, huses⟩
      -- the fragment has a node at its position
      obtain ⟨i, hi, rfl⟩ := List.mem_iff_getElem.1 hf
      obtain ⟨n, hn⟩ : ∃ n, plan.nodes[i]? = some n :=
        Option.isSome_iff_exists.1 (by simp [hcount, hi])
      obtain ⟨m, -, hmade⟩ := hmade i n hn
      have hfragment := hmade.represents.fragment
      rw [List.getElem?_eq_getElem hi] at hfragment
      refine ⟨n, List.mem_of_getElem? hn, ?_⟩
      rw [husages i n hn, SelectionSet.mem_usedVariables, ← Option.some.inj hfragment]
      exact huses

def tourText : String :=
  "query($kind: Int, $page: Int, $size: Int) " ++
  "{ __typename(k: $kind) node(by: $size) { ... on A { owner { bio(by: [{p: $page}, $size]) } } } }"

theorem plan_variables_homes :
    (homes.planOf tourText).nodes.map (·.fetch.variableUsages) = [["size"], ["page", "size"]] ∧
    (∀ n ∈ (homes.planOf tourText).nodes,
      n.fragment.selection.ListsVariables n.fetch.variableUsages) ∧
    ∀ name, (∃ n ∈ (homes.planOf tourText).nodes, name ∈ n.fetch.variableUsages) ↔
      SelectionSet.Uses ((homes.operationOf tourText).selection.filter (!·.isTypename)) name :=
  ⟨by decide +kernel, plan_variables (Planner.operationOf_of_isOk (by decide +kernel))
    (ok_of_isOk (by decide +kernel) _)⟩

end FederatedQuery
