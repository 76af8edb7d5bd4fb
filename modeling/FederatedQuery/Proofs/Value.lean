import FederatedQuery.Value

/-!
Merging of object members: every name of an object stands once afterwards, and a second merge
changes nothing.
-/
namespace FederatedQuery.Value

theorem mergedList_eq (items : List Value) : mergedList items = items.map merged := by
  induction items with
  | nil => rfl
  | cons v items ih => rw [mergedList, ih, List.map_cons]

theorem mergedMembers_eq (members : List (String × Value)) :
    mergedMembers members = members.map fun m => (m.1, m.2.merged) := by
  induction members with
  | nil => rfl
  | cons m members ih => rw [mergedMembers, ih, List.map_cons]

/-! ### Members put one after the other -/

def settled (members : List (String × Value)) : List (String × Value) :=
  members.foldl (fun ms m => put m.1 m.2 ms) []

variable {name : String} {v : Value} {m : String × Value} {members more : List (String × Value)}

theorem mem_of_mem_put (h : m ∈ put name v members) : m = (name, v) ∨ m ∈ members := by
  induction members with
  | nil => exact .inl (List.mem_singleton.1 h)
  | cons e members ih =>
    rw [put] at h
    split at h
    · rename_i hname
      cases List.mem_cons.1 h with
      | inl heq => exact .inl (by rw [heq, hname])
      | inr hmem => exact .inr (List.mem_cons_of_mem e hmem)
    · cases List.mem_cons.1 h with
      | inl heq => exact .inr (heq ▸ List.mem_cons_self)
      | inr hmem => exact (ih hmem).imp_right (List.mem_cons_of_mem e)

theorem put_of_fresh (h : ∀ m ∈ members, m.1 ≠ name) :
    put name v members = members ++ [(name, v)] := by
  induction members with
  | nil => rfl
  | cons e members ih =>
    rw [List.forall_mem_cons] at h
    rw [put, if_neg h.1, ih h.2, List.cons_append]

theorem nodup_put (h : (members.map (·.1)).Nodup) : ((put name v members).map (·.1)).Nodup := by
  induction members with
  | nil => simp [put]
  | cons e members ih =>
    obtain ⟨he, hmembers⟩ := List.nodup_cons.1 h
    rw [put]
    by_cases hname : e.1 = name
    · rwa [if_pos hname]
    · rw [if_neg hname]
      refine List.nodup_cons.2 ⟨fun hmem => ?_, ih hmembers⟩
      obtain ⟨m, hm, hkey⟩ := List.mem_map.1 hmem
      cases mem_of_mem_put hm with
      | inl heq =>
        subst heq
        exact hname hkey.symm
      | inr hm => exact he (List.mem_map.2 ⟨m, hm, hkey⟩)

theorem subset_of_settled (members : List (String × Value)) : settled members ⊆ members := by
  refine List.foldlRecOn (motive := (· ⊆ members)) members _ (List.nil_subset members)
    fun settled h e he m hm => ?_
  cases mem_of_mem_put hm with
  | inl heq => exact heq ▸ he
  | inr hmem => exact h hmem

theorem nodup_settled (members : List (String × Value)) : ((settled members).map (·.1)).Nodup := by
  refine List.foldlRecOn (motive := fun ms : List (String × Value) => (ms.map (·.1)).Nodup) members
    (fun ms m => put m.1 m.2 ms) (b := []) ?_ ?_
  · exact List.nodup_nil
  · exact fun _ h _ _ => nodup_put h

theorem settled_of_nodup (h : (members.map (·.1)).Nodup) : settled members = members := by
  have hall : ∀ more : List (String × Value), ((more ++ members).map (·.1)).Nodup →
      members.foldl (fun ms m => put m.1 m.2 ms) more = more ++ members := by
    clear h
    induction members with
    | nil => simp
    | cons e members ih =>
      intro more h
      have hfresh : ∀ m ∈ more, m.1 ≠ e.1 := by
        rw [List.map_append, List.nodup_append] at h
        exact fun m hm => h.2.2 _ (List.mem_map_of_mem hm) _ List.mem_cons_self
      rw [List.foldl_cons, put_of_fresh hfresh, ih, List.append_assoc, List.singleton_append]
      simpa using h
  exact hall [] h

/-! ### Values merged -/

mutual
theorem merged_merged : (v : Value) → v.merged.merged = v.merged
  | .list items => by
    have hitems : mergedList (mergedList items) = mergedList items := by
      rw [mergedList_eq (mergedList items)]
      exact (List.map_congr_left (merged_of_mem_list items)).trans (List.map_id _)
    rw [merged, merged, hitems]
  | .object members => by
    have hmembers : mergedMembers (settled (mergedMembers members)) =
        settled (mergedMembers members) := by
      rw [mergedMembers_eq (settled _)]
      refine (List.map_congr_left fun m hm => ?_).trans (List.map_id _)
      rw [merged_of_mem_members members m (subset_of_settled _ hm)]
      rfl
    change ofMembers (mergedMembers (settled (mergedMembers members))) =
      object (settled (mergedMembers members))
    rw [hmembers]
    exact congrArg object (settled_of_nodup (nodup_settled _))
  | .reference _ | .null | .boolean _ | .number _ | .string _ | .enumerant _ => rfl

theorem merged_of_mem_list : (items : List Value) → ∀ v ∈ mergedList items, v.merged = v
  | [] => by simp [mergedList]
  | v :: rest => List.forall_mem_cons.2 ⟨merged_merged v, merged_of_mem_list rest⟩

theorem merged_of_mem_members : (members : List (String × Value)) →
    ∀ m ∈ mergedMembers members, m.2.merged = m.2
  | [] => by simp [mergedMembers]
  | (_, v) :: rest => List.forall_mem_cons.2 ⟨merged_merged v, merged_of_mem_members rest⟩
end

end FederatedQuery.Value

namespace FederatedQuery.Argument

theorem merged_merged (a : Argument) : a.merged.merged = a.merged := by
  simp [merged, Value.merged_merged]

end FederatedQuery.Argument
