import Mathlib.Data.List.Chain
import Mathlib.Data.List.Forall2
import FederatedQuery.Grouping

/-!
Grouping loses no item: `gather` rearranges a list, `runs` only cuts it.
-/
namespace FederatedQuery
variable {κ α β : Type}

def ungroup (groups : List (κ × List α)) : List (κ × α) :=
  groups.flatMap fun g => g.2.map fun a => (g.1, a)

theorem mem_ungroup {groups : List (κ × List α)} {e : κ × α} :
    e ∈ ungroup groups ↔ ∃ g ∈ groups, g.1 = e.1 ∧ e.2 ∈ g.2 := by
  obtain ⟨k, a⟩ := e
  simp only [ungroup, List.mem_flatMap, List.mem_map, Prod.mk.injEq]
  constructor
  · rintro ⟨g, hg, b, hb, rfl, rfl⟩
    exact ⟨g, hg, rfl, hb⟩
  · rintro ⟨g, hg, rfl, ha⟩
    exact ⟨g, hg, a, ha, rfl, rfl⟩

theorem map_snd_ungroup (groups : List (κ × List α)) :
    (ungroup groups).map (·.2) = groups.flatMap (·.2) := by
  simp [ungroup, List.map_flatMap, Function.comp_def]

def Keyed (R : α → β → Prop) (e : κ × α) (f : κ × β) : Prop := e.1 = f.1 ∧ R e.2 f.2

variable [DecidableEq κ]

theorem ungroup_filter_ne (k : κ) (groups : List (κ × List α)) :
    ungroup (groups.filter (·.1 ≠ k)) = (ungroup groups).filter (·.1 ≠ k) := by
  induction groups with
  | nil => rfl
  | cons g groups ih =>
    simp only [ungroup, List.flatMap_cons, List.filter_append, List.filter_map] at ih ⊢
    rw [← ih]
    by_cases h : g.1 = k
    · simp [h, Function.comp_def]
    · have hall : g.2.filter (fun _ => true) = g.2 := List.filter_eq_self.2 fun _ _ => rfl
      simp [h, hall, Function.comp_def]

theorem ungroup_gather_perm (l : List (κ × α)) : (ungroup (gather l)).Perm l := by
  induction l with
  | nil => exact List.Perm.nil
  | cons e l ih =>
    obtain ⟨k, a⟩ := e
    have hk : ((l.filter (·.1 = k)).map (·.2)).map (fun b => (k, b)) = l.filter (·.1 = k) := by
      rw [List.map_map]
      refine (List.map_congr_left fun e he => ?_).trans (List.map_id _)
      have : e.1 = k := by simpa using (List.mem_filter.1 he).2
      simp [← this]
    have hg : ungroup (gather ((k, a) :: l)) =
        (k, a) :: (l.filter (·.1 = k) ++ (ungroup (gather l)).filter (·.1 ≠ k)) := by
      rw [← ungroup_filter_ne, gather, lookup_gather]
      simp only [ungroup, List.flatMap_cons, List.map_cons, List.cons_append, hk]
    rw [hg]
    refine List.Perm.cons _ (((ih.filter _).append_left _).trans ?_)
    simpa using List.filter_append_perm (fun e : κ × α => decide (e.1 = k)) l

theorem items_of_mem_gather {l : List (κ × α)} {g : κ × List α} (h : g ∈ gather l) :
    g.2 = (l.filter (·.1 = g.1)).map (·.2) := by
  induction l with
  | nil => simp [gather] at h
  | cons e l ih =>
    obtain ⟨k, a⟩ := e
    rw [gather] at h
    rcases List.mem_cons.1 h with rfl | h
    · simp [lookup_gather]
    · obtain ⟨hg, hk⟩ := List.mem_filter.1 h
      have hne : ¬ k = g.1 := fun he => by simp [he] at hk
      simp [ih hg, hne]

theorem gather_map (f : α → β) (l : List (κ × α)) :
    gather (l.map fun e => (e.1, f e.2)) = (gather l).map fun g => (g.1, g.2.map f) := by
  induction l with
  | nil => rfl
  | cons e l ih =>
    obtain ⟨k, a⟩ := e
    have hf : (((l.map fun e => (e.1, f e.2)).filter (·.1 = k)).map (·.2)) =
        ((l.filter (·.1 = k)).map (·.2)).map f := by
      simp [List.filter_map, Function.comp_def]
    rw [List.map_cons, gather, lookup_gather, hf, ih, gather, lookup_gather]
    simp [List.filter_map, Function.comp_def]

/-- The items of a group, in their order. -/
theorem sublist_of_mem_gather {l : List (κ × α)} {g : κ × List α} (h : g ∈ gather l) :
    g.2.Sublist (l.map (·.2)) := by
  rw [items_of_mem_gather h]
  exact List.filter_sublist.map _

theorem ungroup_runs (l : List (κ × α)) : ungroup (runs l) = l := by
  induction l with
  | nil => rfl
  | cons e l ih =>
    obtain ⟨k, a⟩ := e
    rw [runs]
    cases h : runs l with
    | nil =>
      rw [h] at ih
      simp [← ih, ungroup]
    | cons g groups =>
      rw [h] at ih
      by_cases hk : k = g.1
      · subst hk
        simpa [ungroup] using ih
      · simpa [hk, ungroup] using ih

theorem sublist_of_mem_runs {l : List (κ × α)} {g : κ × List α} (h : g ∈ runs l) :
    g.2.Sublist (l.map (·.2)) := by
  rw [← ungroup_runs l, map_snd_ungroup, List.flatMap_def]
  exact List.sublist_flatten_of_mem (List.mem_map_of_mem h)

theorem runs_map (f : α → β) (l : List (κ × α)) :
    runs (l.map fun e => (e.1, f e.2)) = (runs l).map fun g => (g.1, g.2.map f) := by
  induction l with
  | nil => rfl
  | cons e l ih =>
    obtain ⟨k, a⟩ := e
    rw [List.map_cons, runs, ih, runs]
    cases runs l with
    | nil => rfl
    | cons g groups => by_cases hk : k = g.1 <;> simp [hk]

/-- No group is empty. -/
theorem ne_nil_of_mem_gather {l : List (κ × α)} : ∀ g ∈ gather l, g.2 ≠ [] := by
  induction l with
  | nil => simp [gather]
  | cons e l ih =>
    rw [gather]
    refine List.forall_mem_cons.2 ⟨List.cons_ne_nil _ _, fun g hg => ?_⟩
    exact ih g (List.mem_filter.1 hg).1

theorem ne_nil_of_mem_runs {l : List (κ × α)} : ∀ g ∈ runs l, g.2 ≠ [] := by
  induction l with
  | nil => simp [runs]
  | cons e l ih =>
    rw [runs]
    cases hruns : runs l with
    | nil => simp
    | cons first groups =>
      rw [hruns, List.forall_mem_cons] at ih
      dsimp only
      by_cases hkey : e.1 = first.1
      · rw [if_pos hkey]
        exact List.forall_mem_cons.2 ⟨List.cons_ne_nil _ _, ih.2⟩
      · rw [if_neg hkey]
        exact List.forall_mem_cons.2 ⟨List.cons_ne_nil _ _, List.forall_mem_cons.2 ih⟩

/-- Groups come in the order in which their keys appear. -/
theorem map_fst_gather (l : List (κ × α)) : (gather l).map (·.1) = distinct (l.map (·.1)) := by
  induction l with
  | nil => rfl
  | cons e l ih =>
    obtain ⟨k, a⟩ := e
    rw [gather, List.map_cons, List.map_cons, distinct, ← ih, List.filter_map]
    rfl

/-- Neighbouring runs have different keys. -/
theorem isChain_runs (l : List (κ × α)) : ((runs l).map (·.1)).IsChain (· ≠ ·) := by
  induction l with
  | nil => exact .nil
  | cons e l ih =>
    obtain ⟨k, a⟩ := e
    rw [runs]
    cases hruns : runs l with
    | nil => exact .singleton k
    | cons g groups =>
      rw [hruns] at ih
      by_cases hk : k = g.1
      · simpa [hk] using ih
      · simpa [hk] using ih

theorem distinct_map {f : κ → β} [DecidableEq β] (hf : f.Injective) (l : List κ) :
    distinct (l.map f) = (distinct l).map f := by
  induction l with
  | nil => rfl
  | cons a l ih =>
    rw [List.map_cons, distinct, ih, distinct, List.map_cons, List.filter_map]
    simp [Function.comp_def, hf.eq_iff]

theorem distinct_append (l m : List κ) :
    distinct (l ++ m) = distinct l ++ (distinct m).filter (· ∉ l) := by
  induction l with
  | nil => simp [distinct]
  | cons a l ih =>
    rw [List.cons_append, distinct, ih, List.filter_append, List.filter_filter, distinct,
      List.cons_append]
    simp

theorem distinct_of_nodup {l : List κ} (h : l.Nodup) : distinct l = l := by
  induction l with
  | nil => rfl
  | cons a l ih =>
    obtain ⟨hfresh, hrest⟩ := List.nodup_cons.1 h
    rw [distinct, ih hrest, List.filter_eq_self.2]
    intro b hb
    simpa using fun heq : b = a => hfresh (heq ▸ hb)

/-- Copies may be dropped from a part first. -/
theorem distinct_append_distinct (l m : List κ) :
    distinct (l ++ distinct m) = distinct (l ++ m) := by
  rw [distinct_append, distinct_append, distinct_of_nodup (nodup_distinct m)]

/-- What is added to a list without copies is what is new in it. -/
theorem addNew_distinct (l m : List κ) : addNew (distinct l) m = distinct (l ++ m) := by
  induction m generalizing l with
  | nil => rw [List.append_nil]; rfl
  | cons a m ih =>
    have hfirst : (if a ∈ distinct l then distinct l else distinct l ++ [a]) =
        distinct (l ++ [a]) := by
      rw [distinct_append]
      by_cases ha : a ∈ l <;> simp [distinct, ha]
    rw [addNew, List.foldl_cons, hfirst, List.append_cons l a m]
    exact ih (l ++ [a])

/-- The copies that stay come in the order in which the items appear first. -/
theorem pairwise_idxOf_distinct (l : List κ) :
    (distinct l).Pairwise fun a b => l.idxOf a < l.idxOf b := by
  induction l with
  | nil => exact .nil
  | cons c l ih =>
    have hlater : ∀ a ∈ (distinct l).filter (· ≠ c), (c :: l).idxOf a = l.idxOf a + 1 := by
      intro a ha
      have hne : a ≠ c := by simpa using (List.mem_filter.1 ha).2
      exact List.idxOf_cons_ne l hne.symm
    refine List.pairwise_cons.2 ⟨fun a ha => ?_, ?_⟩
    · rw [hlater a ha, List.idxOf_cons_self]
      omega
    · refine (ih.filter _).imp_of_mem fun ha hb hlt => ?_
      rw [hlater _ ha, hlater _ hb]
      omega

/-! ### Related items -/

theorem gather_keyed {R : α → β → Prop} {l : List (κ × α)} {m : List (κ × β)}
    (h : List.Forall₂ (Keyed R) l m) :
    List.Forall₂ (Keyed (List.Forall₂ R)) (gather l) (gather m) := by
  induction h with
  | nil => exact .nil
  | @cons e f l m first rest ih =>
    obtain ⟨k, a⟩ := e
    obtain ⟨_, b⟩ := f
    obtain ⟨rfl, hab⟩ := first
    have hitems : List.Forall₂ R ((l.filter (·.1 = k)).map (·.2))
        ((m.filter (·.1 = k)).map (·.2)) :=
      List.rel_map (fun _ _ h => h.2) (List.rel_filter (fun _ _ h => by simp [h.1]) rest)
    rw [gather, gather, lookup_gather, lookup_gather]
    exact .cons ⟨rfl, .cons hab hitems⟩ (List.rel_filter (fun _ _ h => by simp [h.1]) ih)

theorem runs_keyed {R : α → β → Prop} {l : List (κ × α)} {m : List (κ × β)}
    (h : List.Forall₂ (Keyed R) l m) :
    List.Forall₂ (Keyed (List.Forall₂ R)) (runs l) (runs m) := by
  induction h with
  | nil => exact .nil
  | @cons e f l m first _ ih =>
    obtain ⟨k, a⟩ := e
    obtain ⟨_, b⟩ := f
    obtain ⟨rfl, hab⟩ := first
    rw [runs, runs]
    generalize runs l = front, runs m = behind at ih ⊢
    cases ih with
    | nil => exact .cons ⟨rfl, .cons hab .nil⟩ .nil
    | @cons g g' groups groups' hg hgroups =>
      obtain ⟨k', as⟩ := g
      obtain ⟨_, bs⟩ := g'
      obtain ⟨rfl, has⟩ := hg
      dsimp only
      split
      · exact .cons ⟨rfl, .cons hab has⟩ hgroups
      · exact .cons ⟨rfl, .cons hab .nil⟩ (.cons ⟨rfl, has⟩ hgroups)

/-! ### Copies -/

theorem repeatedAfter_eq_nil {seen items : List κ} :
    repeatedAfter seen items = [] ↔ items.Nodup ∧ ∀ a ∈ items, a ∉ seen := by
  induction items generalizing seen with
  | nil => simp [repeatedAfter]
  | cons a items ih =>
    rw [repeatedAfter]
    by_cases h : a ∈ seen
    · simp [h]
    · rw [if_neg h, ih, List.nodup_cons]
      simp only [List.mem_cons, not_or, forall_eq_or_imp]
      constructor
      · rintro ⟨hnodup, hfresh⟩
        exact ⟨⟨fun hmem => (hfresh a hmem).1 rfl, hnodup⟩, h, fun c hc => (hfresh c hc).2⟩
      · rintro ⟨⟨hmem, hnodup⟩, -, hfresh⟩
        exact ⟨hnodup, fun c hc => ⟨fun heq => hmem (heq ▸ hc), hfresh c hc⟩⟩

theorem addNew_append (items more others : List κ) :
    addNew items (more ++ others) = addNew (addNew items more) others :=
  List.foldl_append

theorem nodup_addNew {items : List κ} (h : items.Nodup)
    (more : List κ) : (addNew items more).Nodup := by
  unfold addNew
  induction more generalizing items with
  | nil => exact h
  | cons a more ih =>
    rw [List.foldl_cons]
    refine ih ?_
    by_cases ha : a ∈ items
    · rwa [if_pos ha]
    · rw [if_neg ha]
      exact List.nodup_append.2 ⟨h, by simp, fun b hb c hc heq =>
        ha (List.mem_singleton.1 hc ▸ heq ▸ hb)⟩

/-- Numbers in ascending order are told by which they are. -/
theorem ascending_eq_iff {l m : List Nat} :
    ascending l = ascending m ↔ ∀ n, n ∈ ascending l ↔ n ∈ ascending m := by
  constructor
  · intro h n
    rw [h]
  · intro h
    have hl := pairwise_ascending l
    have hm := pairwise_ascending m
    have hperm : (ascending l).Perm (ascending m) :=
      (List.perm_ext_iff_of_nodup (hl.imp Nat.ne_of_lt) (hm.imp Nat.ne_of_lt)).2 h
    refine hperm.eq_of_pairwise (fun a b _ _ hab hba => ?_) hl hm
    omega

theorem two_le_length_iff {items : List α} (h : items.Nodup) :
    2 ≤ items.length ↔ ∃ a ∈ items, ∃ c ∈ items, a ≠ c := by
  cases items with
  | nil => simp
  | cons a items =>
    cases items with
    | nil => simp
    | cons c items =>
      obtain ⟨hne, -⟩ := List.nodup_cons.1 h
      have hne : a ≠ c := fun heq => hne (heq ▸ List.mem_cons_self)
      exact iff_of_true (by simp) ⟨a, by simp, c, by simp, hne⟩

end FederatedQuery
