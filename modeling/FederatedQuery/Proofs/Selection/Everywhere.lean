import FederatedQuery.Proofs.Selection

/-!
What holds of a selection and of every sub-selection, at whatever depth.
-/
namespace FederatedQuery.SelectionSet

def Below (Q : SelectionSet → Prop) (s : SelectionSet) : Prop := ∀ n ∈ s.allFields, Q n.children

def Everywhere (Q : SelectionSet → Prop) (s : SelectionSet) : Prop := Q s ∧ Below Q s

instance (Q : SelectionSet → Prop) [DecidablePred Q] (s : SelectionSet) : Decidable (Below Q s) :=
  inferInstanceAs (Decidable (∀ _ ∈ _, _))

instance (Q : SelectionSet → Prop) [DecidablePred Q] (s : SelectionSet) :
    Decidable (Everywhere Q s) := inferInstanceAs (Decidable (_ ∧ _))

variable {Q R : SelectionSet → Prop} {s t : SelectionSet} {n : SelectionNode}

theorem allFields_children_subset {c : SelectionNode} (h : c ∈ s.allFields) :
    allFields c.children ⊆ s.allFields := by
  have hall : ∀ n c : SelectionNode, c = n ∨ c ∈ allFields n.children →
      allFields c.children ⊆ allFields n.children := by
    intro n
    induction n using SelectionNode.ofChildren with
    | step n ih =>
      intro c hc
      cases hc with
      | inl heq => exact heq ▸ List.Subset.refl _
      | inr hbelow =>
        obtain ⟨m, hm, hc⟩ := mem_allFields_iff.1 hbelow
        exact fun d hd => mem_allFields_of_child hm (ih m hm c hc hd)
  obtain ⟨n, hn, hc⟩ := mem_allFields_iff.1 h
  exact fun d hd => mem_allFields_of_child hn (hall n c hc hd)

theorem children_subset_allFields {c : SelectionNode} (h : c ∈ s.allFields) :
    c.children ⊆ s.allFields := fun _ hd =>
  allFields_children_subset h (mem_allFields_of_mem hd)

@[simp] theorem below_nil (Q : SelectionSet → Prop) : Below Q [] := by
  intro n hn
  exact nomatch hn

theorem below_cons : Below Q (n :: s) ↔ Everywhere Q n.children ∧ Below Q s := by
  simp [Below, Everywhere, allFields_cons, or_imp, forall_and, and_assoc]

theorem below_append : Below Q (s ++ t) ↔ Below Q s ∧ Below Q t := by
  simp [Below, allFields_append, or_imp, forall_and]

theorem Below.subset (h : Below Q t) (hst : s ⊆ t) : Below Q s := by
  intro n hn
  exact h n (allFields_subset hst hn)

theorem Below.of_leaves (hnil : Q []) (h : ∀ n ∈ s, n.children = []) : Below Q s := by
  intro c hc
  obtain ⟨n, hn, hc⟩ := mem_allFields_iff.1 hc
  have hleaf := h n hn
  cases hc with
  | inl heq => rw [heq, hleaf]; exact hnil
  | inr hbelow =>
    rw [hleaf] at hbelow
    exact nomatch hbelow

theorem Below.imp (h : Below Q s) (hQR : ∀ t, Q t → R t) : Below R s := by
  intro n hn
  exact hQR _ (h n hn)

/-- What holds everywhere holds everywhere below a field. -/
theorem Everywhere.children (h : Everywhere Q s) (hn : n ∈ s.allFields) :
    Everywhere Q n.children :=
  ⟨h.2 n hn, fun c hc => h.2 c (allFields_children_subset hn hc)⟩

theorem Everywhere.after (h : Everywhere Q s) {way : List SelectionNode} (hway : Descends s way) :
    Q (s.after way) := by
  induction way generalizing s with
  | nil => exact h.1
  | cons n way ih => exact ih (h.children (mem_allFields_of_mem hway.1)) hway.2

/-- Every field stands in a selection of which it holds. -/
theorem Everywhere.exists_of_mem (h : Everywhere Q s) (hn : n ∈ s.allFields) :
    ∃ t, Q t ∧ n ∈ t := by
  have hbelow : ∀ {m : SelectionNode} {u : SelectionSet}, m ∈ u → n ∈ allFields [m] →
      Everywhere Q u → ∃ t, Q t ∧ n ∈ t := by
    intro m
    induction m using SelectionNode.ofChildren with
    | step m ih =>
      intro u hm hn hu
      obtain ⟨c, hc, hn⟩ := mem_allFields_iff.1 hn
      rw [List.mem_singleton.1 hc] at hn
      cases hn with
      | inl hself => exact ⟨u, hu.1, hself ▸ hm⟩
      | inr hbelow =>
        rw [allFields_eq_flatMap] at hbelow
        obtain ⟨c, hc, hn⟩ := List.mem_flatMap.1 hbelow
        exact ih c hc hc hn (hu.children (mem_allFields_of_mem hm))
  rw [allFields_eq_flatMap] at hn
  obtain ⟨m, hm, hn⟩ := List.mem_flatMap.1 hn
  exact hbelow hm hn h

theorem Everywhere.imp (h : Everywhere Q s) (hQR : ∀ t, Q t → R t) : Everywhere R s :=
  ⟨hQR s h.1, h.2.imp hQR⟩

end FederatedQuery.SelectionSet
