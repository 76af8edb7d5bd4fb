import FederatedQuery.Proofs.ExecutionTree.Minify

/-!
The steps inside a tree. Minifying refuses a tree for its empty steps, each of them named once. What
it returns has no step that could be left out, and is returned as it stands when minified again.
-/
namespace FederatedQuery
namespace ExecutionTree

mutual
def subtrees : ExecutionTree → List ExecutionTree
  | step kind items => step kind items :: subtreesOfList items
  | fetch node service => [fetch node service]
  | flatten path inner => flatten path inner :: inner.subtrees

def subtreesOfList : List ExecutionTree → List ExecutionTree
  | [] => []
  | t :: rest => t.subtrees ++ subtreesOfList rest
end

theorem subtreesOfList_eq (items : List ExecutionTree) :
    subtreesOfList items = items.flatMap subtrees := by
  induction items with
  | nil => rfl
  | cons t rest ih => rw [subtreesOfList, ih, List.flatMap_cons]

variable {kind : StepKind} {items : List ExecutionTree} {t u : ExecutionTree}

/-! ### Refusals -/

def refusal? : ExecutionTree → Option (Cause String)
  | step .parallel [] => some ⟨"Empty Parallel", []⟩
  | step .sequence [] => some ⟨"Empty Sequence", []⟩
  | _ => none

theorem refusal?_cons {rest : List ExecutionTree} : (step kind (t :: rest)).refusal? = none := by
  cases kind with
  | parallel => rfl
  | sequence => rfl

theorem refusal?_eq_none_iff : t.refusal? = none ↔ ∀ kind, t ≠ step kind [] := by
  constructor
  · intro h kind heq
    subst heq
    cases kind with
    | parallel => exact nomatch h
    | sequence => exact nomatch h
  · intro h
    cases t with
    | step kind items =>
      cases items with
      | nil => exact absurd rfl (h kind)
      | cons t rest => exact refusal?_cons
    | fetch node service => rfl
    | flatten path inner => rfl

/-- The causes of a refusal are those of the empty steps, in pre-order. -/
theorem messages_minify (t : ExecutionTree) :
    (minify t).causes.map (Cause.map EmptyStep.message) = t.subtrees.filterMap refusal? := by
  induction t using ofItems with
  | step kind items ih =>
    cases items with
    | nil =>
      cases kind with
      | parallel => rfl
      | sequence => rfl
    | cons t rest =>
      rw [minify_step kind (List.cons_ne_nil t rest), Validated.causes_map,
        Validated.causes_traverse, List.map_flatMap, subtrees, subtreesOfList_eq,
        List.filterMap_cons_none refusal?_cons, List.filterMap_flatMap]
      exact List.flatMap_congr ih
  | fetch node service => rfl
  | flatten path inner ih =>
    rw [minify, Validated.causes_map, ih, subtrees, List.filterMap_cons_none rfl]

theorem causes_minify_eq_nil_iff :
    (minify t).causes = [] ↔ ∀ kind, step kind [] ∉ t.subtrees := by
  rw [← List.map_eq_nil_iff, messages_minify, List.filterMap_eq_nil_iff]
  simp only [refusal?_eq_none_iff]
  constructor
  · intro h kind hmem
    exact h _ hmem kind rfl
  · intro h s hs kind heq
    exact h kind (heq ▸ hs)

/-- Minifying refuses a tree exactly if a step in it has no items, and says so of each of them. -/
theorem minify_refuses_iff (t : ExecutionTree) (causes : List (Cause String)) :
    (minify t).mapError EmptyStep.message = .invalid causes ↔
      (∃ kind, step kind [] ∈ t.subtrees) ∧ causes = t.subtrees.filterMap refusal? := by
  rw [(explained_minify t).mapError_eq_invalid, messages_minify, Ne, causes_minify_eq_nil_iff,
    not_forall_not]

example : (minify (step .sequence [fetch 0 "users", step .parallel [], flatten [.field "me"]
    (step .parallel [step .sequence [], fetch 1 "posts"])])).mapError EmptyStep.message =
    .invalid [⟨"Empty Parallel", []⟩, ⟨"Empty Sequence", []⟩] := rfl

/-! ### Normal form -/

def Minified (t : ExecutionTree) : Prop :=
  ∀ kind items, step kind items ∈ t.subtrees →
    2 ≤ items.length ∧ ∀ inner, step kind inner ∉ items

theorem minified_fetch (node : Nat) (service : Source) : (fetch node service).Minified := by
  intro kind items h
  simp [subtrees] at h

theorem minified_flatten {path : ResponsePath} : (flatten path t).Minified ↔ t.Minified := by
  simp [Minified, subtrees]

theorem minified_step : (step kind items).Minified ↔
    (2 ≤ items.length ∧ ∀ inner, step kind inner ∉ items) ∧ ∀ t ∈ items, t.Minified := by
  constructor
  · intro h
    refine ⟨h kind items (by simp [subtrees]), fun t ht k inner hinner => h k inner ?_⟩
    rw [subtrees, subtreesOfList_eq]
    exact List.mem_cons_of_mem _ (List.mem_flatMap.2 ⟨t, ht, hinner⟩)
  · intro h k inner hinner
    rw [subtrees, subtreesOfList_eq] at hinner
    cases List.mem_cons.1 hinner with
    | inl heq =>
      cases heq
      exact h.1
    | inr hbelow =>
      obtain ⟨t, ht, hinner⟩ := List.mem_flatMap.1 hbelow
      exact h.2 t ht k inner hinner

theorem spliced_of_ne (h : ∀ inner, t ≠ step kind inner) : spliced kind t = [t] := by
  cases t with
  | step k inner => exact if_neg fun heq => h inner (by rw [heq])
  | fetch node service => rfl
  | flatten path inner => rfl

theorem flatMap_spliced_of_notMem (h : ∀ inner, step kind inner ∉ items) :
    items.flatMap (spliced kind) = items := by
  calc
    items.flatMap (spliced kind) = items.flatMap fun t => [t] :=
      List.flatMap_congr fun t ht => spliced_of_ne fun inner heq => h inner (heq ▸ ht)
    _ = items := List.flatMap_singleton' items

theorem join_eq_step (hcount : 2 ≤ items.length) (hkind : ∀ inner, step kind inner ∉ items) :
    join kind items = step kind items := by
  rw [join, flatMap_spliced_of_notMem hkind]
  split
  next hone => simp at hcount
  next => rfl

namespace Minified

/-- What a minified tree is spliced to is minified, and no step of the kind is left. -/
theorem spliced (h : t.Minified) (kind : StepKind) : spliced kind t ≠ [] ∧
    ∀ s ∈ spliced kind t, s.Minified ∧ ∀ inner, s ≠ step kind inner := by
  by_cases hkind : ∃ inner, t = step kind inner
  · obtain ⟨inner, rfl⟩ := hkind
    obtain ⟨⟨hcount, hnone⟩, hitems⟩ := minified_step.1 h
    rw [ExecutionTree.spliced, if_pos rfl]
    refine ⟨List.ne_nil_of_length_pos (by omega), fun s hs => ⟨hitems s hs, ?_⟩⟩
    rintro deeper rfl
    exact hnone deeper hs
  · have hother : ∀ inner, t ≠ step kind inner := fun inner heq => hkind ⟨inner, heq⟩
    rw [spliced_of_ne hother]
    simp [h, hother]

theorem join (hne : items ≠ []) (h : ∀ t ∈ items, t.Minified) : (join kind items).Minified := by
  have hflat : ∀ s ∈ items.flatMap (ExecutionTree.spliced kind),
      s.Minified ∧ ∀ inner, s ≠ step kind inner := by
    intro s hs
    obtain ⟨t, ht, hs⟩ := List.mem_flatMap.1 hs
    exact ((h t ht).spliced kind).2 s hs
  have hsome : items.flatMap (ExecutionTree.spliced kind) ≠ [] := by
    obtain ⟨t, rest, rfl⟩ := List.exists_cons_of_ne_nil hne
    rw [List.flatMap_cons]
    exact List.append_ne_nil_of_left_ne_nil ((h t List.mem_cons_self).spliced kind).1 _
  rw [ExecutionTree.join]
  split
  next t hone => exact (hflat t (hone ▸ List.mem_singleton_self t)).1
  next flat hmany =>
    -- neither empty nor a single item
    have hcount : 2 ≤ (items.flatMap (ExecutionTree.spliced kind)).length := by
      have hpos := List.length_pos_iff.2 hsome
      have hone : (items.flatMap (ExecutionTree.spliced kind)).length ≠ 1 := by
        intro hlength
        obtain ⟨t, ht⟩ := List.length_eq_one_iff.1 hlength
        exact hmany t ht
      omega
    exact minified_step.2
      ⟨⟨hcount, fun inner hinner => (hflat _ hinner).2 inner rfl⟩, fun t ht => (hflat t ht).1⟩

/-- A minified tree is left as it stands. -/
theorem minify_eq (h : t.Minified) : minify t = .valid t := by
  induction t using ofItems with
  | step kind items ih =>
    obtain ⟨⟨hcount, hnone⟩, hitems⟩ := minified_step.1 h
    have hsame : items.map minify = items.map Validated.valid :=
      List.map_congr_left fun t ht => ih t ht (hitems t ht)
    rw [minify_step kind (List.ne_nil_of_length_pos (by omega)), Validated.traverse, hsame,
      Validated.all_valid, Validated.map, join_eq_step hcount hnone]
  | fetch node service => rfl
  | flatten path inner ih =>
    rw [minify, ih (minified_flatten.1 h)]
    rfl

end Minified

theorem minified_of_minify (h : minify t = .valid u) : u.Minified := by
  induction t using ofItems generalizing u with
  | step kind items ih =>
    obtain ⟨hne, us, hitems, rfl⟩ := exists_of_minify_step h
    have hminified : ∀ v ∈ us, v.Minified := by
      intro v hv
      obtain ⟨i, hi, rfl⟩ := List.mem_iff_getElem.1 hv
      have hlt : i < items.length := hitems.length_eq ▸ hi
      exact ih _ (List.getElem_mem hlt) (hitems.get hlt hi)
    have hsome : us ≠ [] := by
      rw [← List.length_pos_iff, ← hitems.length_eq]
      exact List.length_pos_iff.2 hne
    exact .join hsome hminified
  | fetch node service =>
    cases h
    exact minified_fetch node service
  | flatten path inner ih =>
    obtain ⟨v, hv, rfl⟩ := Validated.map_eq_valid.1 h
    exact minified_flatten.2 (ih hv)

/-- Minifying reaches its normal form at once. -/
theorem minify_normal {t u : ExecutionTree} (h : minify t = .valid u) :
    u.Minified ∧ minify u = .valid u := by
  have hminified := minified_of_minify h
  exact ⟨hminified, hminified.minify_eq⟩

theorem minify_normal_wrapped : minify wrapped = .valid unwrapped ∧ unwrapped.Minified ∧
    minify unwrapped = .valid unwrapped := by
  have hminify : minify wrapped = .valid unwrapped := rfl
  exact ⟨hminify, minify_normal hminify⟩

end ExecutionTree
end FederatedQuery
