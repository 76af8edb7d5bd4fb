/-!
Grouping of keyed lists that keeps the order of first appearance.
-/
namespace FederatedQuery
variable {κ α : Type} [DecidableEq κ]

def gather : List (κ × α) → List (κ × List α)
  | [] => []
  | (k, a) :: rest =>
    let groups := gather rest
    (k, a :: (groups.lookup k).getD []) :: groups.filter (·.1 ≠ k)

theorem lookup_filter_ne {β : Type} {k k' : κ} (h : k ≠ k') (l : List (κ × β)) :
    (l.filter (·.1 ≠ k')).lookup k = l.lookup k := by
  induction l with
  | nil => rfl
  | cons e l ih => grind

/-- A group holds the items of its key, in their order. -/
theorem lookup_gather (k : κ) (l : List (κ × α)) :
    ((gather l).lookup k).getD [] = (l.filter (·.1 = k)).map (·.2) := by
  induction l with
  | nil => rfl
  | cons e l ih =>
    obtain ⟨k', a⟩ := e
    by_cases h : k = k'
    · subst h
      simp [gather, ih]
    · have hb : (k == k') = false := by simpa using h
      simp only [gather, List.lookup_cons, hb]
      rw [lookup_filter_ne h, ih]
      simp [Ne.symm h]

def runs : List (κ × α) → List (κ × List α)
  | [] => []
  | (k, a) :: rest =>
    match runs rest with
    | [] => [(k, [a])]
    | (k', as) :: groups => if k = k' then (k, a :: as) :: groups else (k, [a]) :: (k', as) :: groups

def distinct : List κ → List κ
  | [] => []
  | a :: rest => a :: (distinct rest).filter (· ≠ a)

@[simp] theorem mem_distinct {a : κ} {items : List κ} : a ∈ distinct items ↔ a ∈ items := by
  induction items with
  | nil => rfl
  | cons b rest ih => by_cases h : a = b <;> simp [distinct, ih, h]

theorem nodup_distinct (items : List κ) : (distinct items).Nodup := by
  induction items with
  | nil => exact List.nodup_nil
  | cons b rest ih => exact List.nodup_cons.2 ⟨by simp, ih.filter _⟩

def addNew (items more : List κ) : List κ :=
  more.foldl (fun as a => if a ∈ as then as else as ++ [a]) items

@[simp] theorem mem_addNew {a : κ} {items more : List κ} :
    a ∈ addNew items more ↔ a ∈ items ∨ a ∈ more := by
  unfold addNew
  induction more generalizing items with
  | nil => simp
  | cons b rest ih =>
    rw [List.foldl_cons, ih]
    by_cases hb : b ∈ items <;> grind

/-- The items that stand in `seen` or further in front. -/
def repeatedAfter (seen : List κ) : List κ → List κ
  | [] => []
  | a :: rest => if a ∈ seen then a :: repeatedAfter seen rest else repeatedAfter (a :: seen) rest

def ascending : List Nat → List Nat
  | [] => []
  | n :: rest => place n (ascending rest)
where
  place (n : Nat) : List Nat → List Nat
    | [] => [n]
    | m :: rest => if n < m then n :: m :: rest else if n = m then m :: rest else m :: place n rest

theorem ascending.mem_place {a n : Nat} {l : List Nat} : a ∈ place n l ↔ a = n ∨ a ∈ l := by
  induction l with
  | nil => simp [place]
  | cons m rest ih => grind [place]

@[simp] theorem mem_ascending {a : Nat} {l : List Nat} : a ∈ ascending l ↔ a ∈ l := by
  induction l with
  | nil => rfl
  | cons n rest ih => rw [ascending, ascending.mem_place, ih, List.mem_cons]

theorem ascending.place_pairwise {n : Nat} {l : List Nat} (h : l.Pairwise (· < ·)) :
    (place n l).Pairwise (· < ·) := by
  induction l with
  | nil => simp [place]
  | cons m rest ih =>
    rw [List.pairwise_cons] at h
    rw [place]
    split
    · rename_i hm
      refine List.pairwise_cons.2 ⟨fun k hk => ?_, List.pairwise_cons.2 h⟩
      rcases List.mem_cons.1 hk with rfl | hk
      · exact hm
      · exact Nat.lt_trans hm (h.1 k hk)
    · split
      · exact List.pairwise_cons.2 h
      · refine List.pairwise_cons.2 ⟨fun k hk => ?_, ih h.2⟩
        rcases mem_place.1 hk with rfl | hk
        · omega
        · exact h.1 k hk

theorem pairwise_ascending (l : List Nat) : (ascending l).Pairwise (· < ·) := by
  induction l with
  | nil => exact List.Pairwise.nil
  | cons n rest ih => exact ascending.place_pairwise ih

end FederatedQuery
