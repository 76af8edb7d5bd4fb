import FederatedQuery.Proofs.Validation

/-!
Traversals against their items. A traversal refuses for the causes that its items have, so it passes
over a refusal without a cause, and over nothing else.
-/
namespace FederatedQuery.Validated
variable {ε α β : Type} {f : α → Validated ε β} {items : List α}

theorem isValid_of_causes {v : Validated ε α} (h : v.causes ≠ []) : v.isValid = false := by
  cases v with
  | valid a => exact absurd rfl h
  | invalid cs => rfl

/-- A traversal fails for the causes of its items. -/
theorem isValid_traverse : (traverse f items).isValid = false ↔ ∃ a ∈ items, (f a).causes ≠ [] := by
  cases h : traverse f items with
  | valid bs => simpa [isValid] using (traverse_eq_valid.1 h).1
  | invalid cs =>
    obtain ⟨hsome, rfl⟩ := traverse_eq_invalid.1 h
    simpa [isValid] using hsome

/-- The items that succeed have no causes to add. -/
theorem flatMap_causes_failing :
    ((items.filter fun a => !(f a).isValid).flatMap fun a => (f a).causes) =
      items.flatMap fun a => (f a).causes := by
  induction items with
  | nil => rfl
  | cons a items ih =>
    by_cases h : (f a).isValid = true
    · have hnone : (f a).causes = [] := by
        by_contra hcause
        simp [isValid_of_causes hcause] at h
      simp [h, hnone, ih]
    · simp [h, ih]

structure Faithful (f : α → Validated ε β) (items : List α) : Prop where
  fails : (traverse f items).isValid = false ↔ ∃ a ∈ items, (f a).isValid = false
  causes : ∀ cs, traverse f items = invalid cs →
    cs = (items.filter fun a => !(f a).isValid).flatMap fun a => (f a).causes
  values : ∀ bs, traverse f items = valid bs → List.Forall₂ (fun a b => f a = valid b) items bs

/-- If the items that fail can be told by their causes, the traversal is faithful. -/
theorem faithful_of_causes
    (h : (∃ a ∈ items, (f a).isValid = false) → ∃ a ∈ items, (f a).causes ≠ []) :
    Faithful f items where
  fails := by
    refine isValid_traverse.trans ⟨?_, h⟩
    rintro ⟨a, ha, hcause⟩
    exact ⟨a, ha, isValid_of_causes hcause⟩
  causes cs hcs := by
    rw [flatMap_causes_failing]
    exact (traverse_eq_invalid.1 hcs).2.symm
  values bs hbs := by
    have hnone := (traverse_eq_valid.1 hbs).1
    refine forall₂_of_traverse (fun a ha _ => ?_) hbs
    by_contra hfails
    obtain ⟨b, hb, hcause⟩ := h ⟨a, ha, by simpa using hfails⟩
    exact hcause (hnone b hb)

/-- A traversal is faithful exactly if next to a refusal without a cause there is one with a cause.
Otherwise it has the results of the items that succeed, as if there were no others. -/
theorem traverse_faithful_iff (f : α → Validated ε β) (items : List α) :
    (Faithful f items ↔ ∀ a ∈ items, f a = invalid [] → ∃ b ∈ items, (f b).causes ≠ []) ∧
    (Faithful f items ∨ traverse f items = valid (items.filterMap fun a => (f a).value?)) := by
  refine ⟨⟨fun h a ha hbare => ?_, fun h => faithful_of_causes ?_⟩, ?_⟩
  · exact isValid_traverse.1 (h.fails.2 ⟨a, ha, by rw [hbare]; rfl⟩)
  · rintro ⟨a, ha, hfails⟩
    cases hitem : f a with
    | valid b =>
      rw [hitem] at hfails
      exact nomatch hfails
    | invalid cs =>
      cases cs with
      | nil => exact h a ha hitem
      | cons c cs => exact ⟨a, ha, by simp [hitem, Validated.causes]⟩
  · cases hresult : traverse f items with
    | valid bs => exact .inr (congrArg valid (traverse_eq_valid.1 hresult).2.symm)
    | invalid cs =>
      exact .inl (faithful_of_causes fun _ => isValid_traverse.1 (by rw [hresult]; rfl))

/-- The second item fails, and the traversal has the result of the first alone. -/
theorem causeless_refusal_dropped :
    traverse id [valid 1, invalid []] = (valid [1] : Validated String (List Nat)) ∧
    ¬Faithful id [valid 1, (invalid [] : Validated String Nat)] := by
  refine ⟨rfl, fun h => ?_⟩
  obtain ⟨-, hsecond⟩ := List.forall₂_cons.1 (h.values [1] rfl)
  cases hsecond

end FederatedQuery.Validated
