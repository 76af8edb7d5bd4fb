import FederatedQuery.Document
import FederatedQuery.Proofs.Grouping
import FederatedQuery.Proofs.Selection

/-!
The order in which a selection is rendered, and the selections of a document that it stands for.
-/
namespace FederatedQuery

namespace SelectionSet

/-- Fields on the enclosing type stand in front. The others follow type by type, the types in the
order in which they appear. -/
def arrange (enclosing : String) (s : SelectionSet) : SelectionSet :=
  s.filter (·.onType = enclosing) ++
    (gather ((s.filter (·.onType ≠ enclosing)).map fun n => (n.onType, n))).flatMap (·.2)

end SelectionSet

namespace SelectionNode

mutual
def arranged : SelectionNode → SelectionNode
  | ⟨name, alias?, arguments, responsePath, onType, ofType, children, isHidden⟩ =>
    ⟨name, alias?, arguments, responsePath, onType, ofType,
      SelectionSet.arrange ofType (arrangedList children), isHidden⟩

def arrangedList : List SelectionNode → List SelectionNode
  | [] => []
  | n :: rest => n.arranged :: arrangedList rest
end

end SelectionNode

def SelectionSet.arranged (enclosing : String) (s : SelectionSet) : SelectionSet :=
  arrange enclosing (SelectionNode.arrangedList s)

def Selection.grouped (enclosing : String) (selections : List (String × Selection)) :
    List Selection :=
  (selections.filter (·.1 = enclosing)).map (·.2) ++
    (gather (selections.filter (·.1 ≠ enclosing))).map fun g => .inline (some g.1) [] g.2

namespace SelectionNode

mutual
def written : SelectionNode → Selection
  | ⟨name, alias?, arguments, _, _, ofType, children, _⟩ =>
    .field alias? name arguments [] (Selection.grouped ofType (writtenList children))

def writtenList : List SelectionNode → List (String × Selection)
  | [] => []
  | n :: rest => (n.onType, n.written) :: writtenList rest
end

variable {n : SelectionNode}

theorem arrangedList_eq (s : SelectionSet) : arrangedList s = s.map arranged := by
  induction s with
  | nil => rfl
  | cons n s ih => rw [arrangedList, ih, List.map_cons]

theorem writtenList_eq (s : SelectionSet) :
    writtenList s = s.map fun n => (n.onType, n.written) := by
  induction s with
  | nil => rfl
  | cons n s ih => rw [writtenList, ih, List.map_cons]

theorem arranged_eq (n : SelectionNode) :
    n.arranged = { n with children := SelectionSet.arranged n.ofType n.children } := by
  cases n
  rfl

theorem written_eq (n : SelectionNode) : n.written = .field n.alias? n.name n.arguments []
    (Selection.grouped n.ofType (writtenList n.children)) := by
  cases n
  rfl

@[simp] theorem onType_arranged (n : SelectionNode) : n.arranged.onType = n.onType := by
  rw [arranged_eq]

@[simp] theorem responseKey_arranged (n : SelectionNode) :
    n.arranged.responseKey = n.responseKey := by
  rw [arranged_eq]
  rfl

end SelectionNode

namespace SelectionSet
variable {enclosing : String} {s : SelectionSet}

def foreign (enclosing : String) (s : SelectionSet) : List (String × SelectionNode) :=
  (s.filter (·.onType ≠ enclosing)).map fun n => (n.onType, n)

/-- A group holds fields of its type. -/
theorem mem_of_mem_group {g : String × List SelectionNode} (hg : g ∈ gather (s.foreign enclosing))
    {n : SelectionNode} (hn : n ∈ g.2) : n ∈ s ∧ n.onType = g.1 := by
  rw [items_of_mem_gather hg] at hn
  obtain ⟨e, he, rfl⟩ := List.mem_map.1 hn
  obtain ⟨he, hkey⟩ := List.mem_filter.1 he
  obtain ⟨m, hm, rfl⟩ := List.mem_map.1 he
  exact ⟨(List.mem_filter.1 hm).1, by simpa using hkey⟩

/-- There are groups for the types of fields, and none for the enclosing type. -/
theorem exists_of_mem_gather {g : String × List SelectionNode}
    (hg : g ∈ gather (s.foreign enclosing)) : ∃ n ∈ s, n.onType = g.1 ∧ n.onType ≠ enclosing := by
  have hkey := List.mem_map_of_mem (f := (·.1)) hg
  rw [map_fst_gather, mem_distinct, foreign, List.map_map] at hkey
  obtain ⟨n, hn, htype⟩ := List.mem_map.1 hkey
  obtain ⟨hn, hother⟩ := List.mem_filter.1 hn
  exact ⟨n, hn, htype, by simpa using hother⟩

theorem arrange_eq (enclosing : String) (s : SelectionSet) : s.arrange enclosing =
    s.filter (·.onType = enclosing) ++ (gather (s.foreign enclosing)).flatMap (·.2) := rfl

/-- No field is lost. -/
theorem arrange_perm (enclosing : String) (s : SelectionSet) : (s.arrange enclosing).Perm s := by
  have hforeign : ((gather (s.foreign enclosing)).flatMap (·.2)).Perm
      (s.filter (·.onType ≠ enclosing)) := by
    have hgroups := (ungroup_gather_perm (s.foreign enclosing)).map (·.2)
    rw [map_snd_ungroup, foreign, List.map_map] at hgroups
    exact hgroups.trans (.of_eq (List.map_id _))
  rw [arrange_eq]
  refine (hforeign.append_left _).trans ?_
  simpa using List.filter_append_perm (fun n : SelectionNode => decide (n.onType = enclosing)) s

theorem arranged_eq (enclosing : String) (s : SelectionSet) : s.arranged enclosing =
    (s.filter (·.onType = enclosing)).map SelectionNode.arranged ++
      (gather (s.foreign enclosing)).flatMap fun g => g.2.map SelectionNode.arranged := by
  have hforeign : foreign enclosing (s.map SelectionNode.arranged) =
      (s.foreign enclosing).map fun e => (e.1, e.2.arranged) := by
    simp [foreign, List.filter_map, Function.comp_def]
  rw [arranged, SelectionNode.arrangedList_eq, arrange_eq, hforeign, gather_map, List.flatMap_map,
    List.filter_map]
  simp [Function.comp_def]

theorem grouped_writtenList (enclosing : String) (s : SelectionSet) :
    Selection.grouped enclosing (SelectionNode.writtenList s) =
      (s.filter (·.onType = enclosing)).map SelectionNode.written ++
        (gather (s.foreign enclosing)).map fun g =>
          .inline (some g.1) [] (g.2.map SelectionNode.written) := by
  have hforeign : (SelectionNode.writtenList s).filter (·.1 ≠ enclosing) =
      (s.foreign enclosing).map fun e => (e.1, e.2.written) := by
    simp [foreign, SelectionNode.writtenList_eq, List.filter_map, Function.comp_def]
  rw [Selection.grouped, hforeign, gather_map, List.map_map, SelectionNode.writtenList_eq]
  simp [List.filter_map, Function.comp_def]

theorem grouped_ne_nil (enclosing : String) (h : s ≠ []) :
    Selection.grouped enclosing (SelectionNode.writtenList s) ≠ [] := by
  intro hnil
  rw [grouped_writtenList, List.append_eq_nil_iff, List.map_eq_nil_iff, List.map_eq_nil_iff] at hnil
  have hperm := s.arrange_perm enclosing
  rw [arrange_eq, hnil.1, hnil.2] at hperm
  exact h hperm.symm.eq_nil

theorem isEmpty_grouped (enclosing : String) (s : SelectionSet) :
    (Selection.grouped enclosing (SelectionNode.writtenList s)).isEmpty = s.isEmpty := by
  cases s with
  | nil => rfl
  | cons n s => exact List.isEmpty_eq_false_iff.2 (grouped_ne_nil enclosing (List.cons_ne_nil n s))

end SelectionSet
end FederatedQuery
