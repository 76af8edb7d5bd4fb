import FederatedQuery.Proofs.Grouping
import FederatedQuery.Proofs.Selection

/-!
Variables: where a value mentions one, inside of lists and objects as well, and which ones the
arguments of a selection use.
-/
namespace FederatedQuery

inductive Value.Mentions (name : String) : Value → Prop
  | reference : Mentions name (.reference name)
  | item {v : Value} {items : List Value} (mem : v ∈ items) (inside : Mentions name v) :
      Mentions name (.list items)
  | member {key : String} {v : Value} {members : List (String × Value)}
      (mem : (key, v) ∈ members) (inside : Mentions name v) : Mentions name (.object members)

def SelectionSet.Uses (s : SelectionSet) (name : String) : Prop :=
  ∃ n ∈ s.allFields, ∃ a ∈ n.arguments, a.value.Mentions name

namespace Value

theorem referencesOfList_eq (items : List Value) :
    referencesOfList items = items.flatMap references := by
  induction items with
  | nil => rfl
  | cons v rest ih => rw [referencesOfList, ih, List.flatMap_cons]

theorem referencesOfMembers_eq (members : List (String × Value)) :
    referencesOfMembers members = members.flatMap fun m => m.2.references := by
  induction members with
  | nil => rfl
  | cons m rest ih => rw [referencesOfMembers, ih, List.flatMap_cons]

mutual
theorem mentions_of_mem {name : String} : (v : Value) → name ∈ v.references → v.Mentions name
  | .reference other, h => by
    rw [List.mem_singleton.1 h]
    exact .reference
  | .list items, h => by
    obtain ⟨v, hv, hmentions⟩ := exists_of_mem_list items h
    exact .item hv hmentions
  | .object members, h => by
    obtain ⟨key, v, hv, hmentions⟩ := exists_of_mem_members members h
    exact .member hv hmentions
  | .null, h | .boolean _, h | .number _, h | .string _, h | .enumerant _, h => nomatch h

theorem exists_of_mem_list {name : String} : (items : List Value) →
    name ∈ referencesOfList items → ∃ v ∈ items, v.Mentions name
  | v :: rest, h => by
    cases List.mem_append.1 h with
    | inl hfirst => exact ⟨v, List.mem_cons_self, mentions_of_mem v hfirst⟩
    | inr hrest =>
      obtain ⟨w, hw, hmentions⟩ := exists_of_mem_list rest hrest
      exact ⟨w, List.mem_cons_of_mem v hw, hmentions⟩

theorem exists_of_mem_members {name : String} : (members : List (String × Value)) →
    name ∈ referencesOfMembers members → ∃ key v, (key, v) ∈ members ∧ v.Mentions name
  | (key, v) :: rest, h => by
    cases List.mem_append.1 h with
    | inl hfirst => exact ⟨key, v, List.mem_cons_self, mentions_of_mem v hfirst⟩
    | inr hrest =>
      obtain ⟨other, w, hw, hmentions⟩ := exists_of_mem_members rest hrest
      exact ⟨other, w, List.mem_cons_of_mem _ hw, hmentions⟩
end

theorem mem_references {name : String} {v : Value} : name ∈ v.references ↔ v.Mentions name := by
  refine ⟨mentions_of_mem v, fun h => ?_⟩
  induction h with
  | reference => exact List.mem_singleton_self name
  | item mem _ ih =>
    rw [references, referencesOfList_eq]
    exact List.mem_flatMap.2 ⟨_, mem, ih⟩
  | member mem _ ih =>
    rw [references, referencesOfMembers_eq]
    exact List.mem_flatMap.2 ⟨_, mem, ih⟩

end Value

namespace SelectionNode

theorem references_eq (n : SelectionNode) : n.references =
    n.arguments.flatMap Argument.references ++ SelectionSet.usedVariables n.children := by
  cases n
  rfl

end SelectionNode

namespace SelectionSet

def appearances (s : SelectionSet) : List String :=
  s.allFields.flatMap fun n => n.arguments.flatMap Argument.references

theorem appearances_cons (n : SelectionNode) (s : SelectionSet) : appearances (n :: s) =
    n.arguments.flatMap Argument.references ++ (appearances n.children ++ appearances s) := by
  rw [appearances, allFields_cons, List.flatMap_cons, List.flatMap_append]
  rfl

theorem appearances_singleton (n : SelectionNode) : appearances [n] =
    n.arguments.flatMap Argument.references ++ appearances n.children := by
  rw [appearances_cons, show appearances [] = [] from rfl, List.append_nil]

theorem mem_appearances {s : SelectionSet} {name : String} :
    name ∈ s.appearances ↔ s.Uses name := by
  simp only [appearances, List.mem_flatMap, Uses]
  exact exists_congr fun n => and_congr_right fun _ => exists_congr fun a =>
    and_congr_right fun _ => Value.mem_references

/-- If every field adds what is new in its appearances, so does the selection. -/
theorem addReferences_distinct {s : SelectionSet} (front : List String)
    (h : ∀ n ∈ s, ∀ front : List String,
      addNew (distinct front) n.references = distinct (front ++ appearances [n])) :
    SelectionNode.addReferences (distinct front) s = distinct (front ++ s.appearances) := by
  induction s generalizing front with
  | nil => exact (congrArg distinct (List.append_nil front)).symm
  | cons n s ih =>
    obtain ⟨hn, hs⟩ := List.forall_mem_cons.1 h
    rw [SelectionNode.addReferences, hn front, ih _ hs, appearances_singleton, appearances_cons]
    simp only [List.append_assoc]

theorem addNew_references (n : SelectionNode) : ∀ front : List String,
    addNew (distinct front) n.references = distinct (front ++ appearances [n]) := by
  induction n using SelectionNode.ofChildren with
  | step n ih =>
    intro front
    have hbelow : usedVariables n.children = distinct (appearances n.children) :=
      addReferences_distinct [] ih
    rw [SelectionNode.references_eq, hbelow, addNew_distinct, ← List.append_assoc,
      distinct_append_distinct, appearances_singleton, List.append_assoc]

/-- Copies are dropped level by level, and what is left is the first of each in the whole walk. -/
theorem usedVariables_eq (s : SelectionSet) : s.usedVariables = distinct s.appearances :=
  addReferences_distinct [] fun n _ => addNew_references n

/-- The variables listed for a selection are those that it uses. -/
theorem mem_usedVariables {s : SelectionSet} {name : String} :
    name ∈ s.usedVariables ↔ s.Uses name := by
  rw [usedVariables_eq, mem_distinct, mem_appearances]

structure ListsVariables (s : SelectionSet) (names : List String) : Prop where
  distinct : names.Nodup
  used : ∀ name, name ∈ names ↔ s.Uses name
  ordered : names.Pairwise fun a b => s.appearances.idxOf a < s.appearances.idxOf b

theorem listsVariables (s : SelectionSet) : s.ListsVariables s.usedVariables where
  distinct := usedVariables_eq s ▸ nodup_distinct _
  used _ := mem_usedVariables
  ordered := usedVariables_eq s ▸ pairwise_idxOf_distinct _

/-- Fields that are no part of the answer use no variable if they have no arguments. -/
theorem uses_iff_visible {s : SelectionSet} (above : List String) {name : String}
    (h : ∀ n ∈ s.allFields, n.isHidden = true → n.arguments = []) :
    s.Uses name ↔ ∃ e ∈ s.visible above, ∃ a ∈ e.2.arguments, a.value.Mentions name := by
  constructor
  · rintro ⟨n, hn, a, ha, hmentions⟩
    have hvisible : n.isHidden = false := by
      rw [← Bool.not_eq_true]
      intro hidden
      rw [h n hn hidden] at ha
      exact nomatch ha
    rw [← map_snd_located above] at hn
    obtain ⟨e, he, rfl⟩ := List.mem_map.1 hn
    refine ⟨(e.1, e.2.asked), List.mem_map_of_mem (List.mem_filter.2 ⟨he, ?_⟩), a, ha, hmentions⟩
    rw [hvisible]
    rfl
  · rintro ⟨_, hv, a, ha, hmentions⟩
    obtain ⟨e, he, rfl⟩ := List.mem_map.1 hv
    have hfield : e.2 ∈ s.allFields :=
      map_snd_located above s ▸ List.mem_map_of_mem (List.mem_filter.1 he).1
    exact ⟨e.2, hfield, a, ha, hmentions⟩

end SelectionSet

end FederatedQuery
