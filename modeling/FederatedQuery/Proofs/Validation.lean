import Mathlib.Data.List.Forall2
import FederatedQuery.Validation

/-!
When a validation succeeds: it has no cause, and none of its parts has one.
-/
namespace FederatedQuery
namespace Validated
variable {ε α β : Type}

@[simp] theorem causes_valid (a : α) : (valid a : Validated ε α).causes = [] := rfl

@[simp] theorem causes_fail (message : ε) :
    (fail message : Validated ε α).causes = [⟨message, []⟩] := rfl

theorem causes_check {condition : Bool} {message : ε} :
    (check condition message).causes = [] ↔ condition = true := by
  unfold check
  by_cases h : condition = true
  · simp [h]
  · simp [h]

@[simp] theorem causes_map (f : α → β) (v : Validated ε α) : (v.map f).causes = v.causes := by
  cases v with
  | valid a => rfl
  | invalid cs => rfl

@[simp] theorem causes_discard (v : Validated ε α) : v.discard.causes = v.causes :=
  causes_map _ v

@[simp] theorem causes_within (place : String) (v : Validated ε α) :
    (v.within place).causes = v.causes.map (Cause.within place) := by
  cases v with
  | valid a => rfl
  | invalid cs => rfl

@[simp] theorem causes_zip (v : Validated ε α) (w : Validated ε β) :
    (v.zip w).causes = v.causes ++ w.causes := by
  cases v with
  | valid a =>
    cases w with
    | valid b => rfl
    | invalid ds => rfl
  | invalid cs =>
    cases w with
    | valid b => simp [zip, causes]
    | invalid ds => rfl

@[simp] theorem causes_traverse (f : α → Validated ε β) (items : List α) :
    (traverse f items).causes = items.flatMap fun a => (f a).causes := by
  rw [traverse, causes_all, List.flatMap_map]

/-! ### Refusals have a cause -/

def Explained (v : Validated ε α) : Prop := v.causes = [] → v.isValid = true

theorem Explained.check (condition : Bool) (message : ε) :
    (check condition message).Explained := by
  intro h
  rw [Validated.check, if_pos (causes_check.1 h)]
  rfl

theorem Explained.traverse (f : α → Validated ε β) (items : List α) :
    (traverse f items).Explained := by
  intro h
  have hall : (items.map f).flatMap causes = [] := by rwa [Validated.traverse, causes_all] at h
  rw [Validated.traverse, all, hall]
  rfl

theorem Explained.map {v : Validated ε α} (f : α → β) (h : v.Explained) :
    (v.map f).Explained := by
  intro hnone
  rw [causes_map] at hnone
  have hvalid := h hnone
  cases v with
  | valid a => rfl
  | invalid cs => exact nomatch hvalid

theorem Explained.within {v : Validated ε α} (h : v.Explained) (place : String) :
    (v.within place).Explained := by
  cases v with
  | valid a => exact fun _ => rfl
  | invalid cs => exact fun hnone => h (List.map_eq_nil_iff.1 hnone)

theorem Explained.fail (message : ε) : (Validated.fail message : Validated ε α).Explained :=
  fun h => nomatch h

theorem Explained.zip {v : Validated ε α} {w : Validated ε β} (hv : v.Explained)
    (hw : w.Explained) : (v.zip w).Explained := by
  intro h
  obtain ⟨hcv, hcw⟩ := List.append_eq_nil_iff.1 (causes_zip v w ▸ h)
  have hvalid := hv hcv
  have hvalid' := hw hcw
  cases v with
  | invalid cs => exact nomatch hvalid
  | valid a =>
    cases w with
    | invalid ds => exact nomatch hvalid'
    | valid b => rfl

theorem Explained.discard_eq_valid {v : Validated ε α} (h : v.Explained) :
    v.discard = valid () ↔ v.causes = [] := by
  constructor
  · intro hv
    rw [← causes_discard, hv, causes_valid]
  · intro hc
    have hvalid := h hc
    cases v with
    | valid a => rfl
    | invalid cs => exact nomatch hvalid

theorem Explained.mapError_eq_invalid {δ : Type} {v : Validated ε α} (h : v.Explained) {f : ε → δ}
    {causes : List (Cause δ)} :
    v.mapError f = invalid causes ↔ v.causes ≠ [] ∧ causes = v.causes.map (Cause.map f) := by
  cases v with
  | valid a => simp [mapError]
  | invalid cs =>
    have hsome : cs ≠ [] := fun hnone => nomatch h hnone
    simp [mapError, Validated.causes, hsome, eq_comm]

/-! ### Values -/

theorem eq_valid_of_isValid {v : Validated ε α} (h : v.isValid = true) (a : α) :
    v = valid (v.value?.getD a) := by
  cases v with
  | valid b => rfl
  | invalid cs => exact nomatch h

theorem map_eq_valid {f : α → β} {v : Validated ε α} {b : β} :
    v.map f = valid b ↔ ∃ a, v = valid a ∧ f a = b := by
  cases v with
  | valid a => simp [map]
  | invalid cs => simp [map]

@[simp] theorem within_eq_valid {v : Validated ε α} {place : String} {a : α} :
    v.within place = valid a ↔ v = valid a := by
  cases v with
  | valid b => rfl
  | invalid cs => simp [within]

theorem value?_eq_some {v : Validated ε α} {a : α} : v.value? = some a ↔ v = valid a := by
  cases v with
  | valid b => simp [value?]
  | invalid cs => simp [value?]

/-- A traversal succeeds if no item has a cause. -/
theorem traverse_eq_valid {f : α → Validated ε β} {items : List α} {values : List β} :
    traverse f items = valid values ↔
      (∀ a ∈ items, (f a).causes = []) ∧ (items.filterMap fun a => (f a).value?) = values := by
  unfold traverse all
  rw [← List.flatMap_eq_nil_iff, List.flatMap_map]
  cases items.flatMap fun a => (f a).causes with
  | nil => simp [List.filterMap_map]
  | cons c cs => simp

theorem traverse_eq_invalid {f : α → Validated ε β} {items : List α} {cs : List (Cause ε)} :
    traverse f items = invalid cs ↔ cs ≠ [] ∧ (items.flatMap fun a => (f a).causes) = cs := by
  unfold traverse all
  rw [List.flatMap_map]
  cases items.flatMap fun a => (f a).causes with
  | nil => simp [eq_comm]
  | cons c rest =>
    constructor
    · intro h
      cases h
      exact ⟨List.cons_ne_nil _ _, rfl⟩
    · rintro ⟨-, rfl⟩
      rfl

theorem all_valid_cons (a : α) (outcomes : List (Validated ε α)) :
    all (valid a :: outcomes) = (all outcomes).map (a :: ·) := by
  unfold all
  rw [List.flatMap_cons, causes_valid, List.nil_append]
  cases outcomes.flatMap causes with
  | nil => rfl
  | cons c cs => rfl

/-- The values of a traversal are those of the items, in their order. -/
theorem forall₂_of_traverse {f : α → Validated ε β} {items : List α} {values : List β}
    (hf : ∀ a ∈ items, (f a).Explained) (h : traverse f items = valid values) :
    List.Forall₂ (fun a b => f a = valid b) items values := by
  induction items generalizing values with
  | nil =>
    cases h
    exact .nil
  | cons a items ih =>
    obtain ⟨hfirst, hrest⟩ := List.forall_mem_cons.1 hf
    have hnone : (f a).causes = [] := (traverse_eq_valid.1 h).1 a List.mem_cons_self
    cases ha : f a with
    | valid b =>
      rw [traverse, List.map_cons, ha, all_valid_cons, map_eq_valid] at h
      obtain ⟨more, hmore, rfl⟩ := h
      exact .cons ha (ih hrest hmore)
    | invalid cs =>
      have hvalid := hfirst hnone
      rw [ha] at hvalid
      exact nomatch hvalid

/-! ### Deciding -/

structure Decides (v : Validated ε α) (P : Prop) (a : α) : Prop where
  accepts : P → v = valid a
  refuses : ¬P → v.causes ≠ []

namespace Decides
variable {v : Validated ε α} {P Q : Prop} {a : α}

theorem of_valid (h : v.Decides P a) {c : α} (hv : v = Validated.valid c) : P ∧ c = a := by
  subst hv
  have hP : P := by
    by_contra hP
    exact h.refuses hP rfl
  have hvalue := h.accepts hP
  cases hvalue
  exact ⟨hP, rfl⟩

theorem exists_iff (h : v.Decides P a) : (∃ c, v = Validated.valid c) ↔ P :=
  ⟨fun ⟨_, hv⟩ => (h.of_valid hv).1, fun hP => ⟨a, h.accepts hP⟩⟩

theorem congr (h : v.Decides P a) (hPQ : P ↔ Q) : v.Decides Q a :=
  ⟨fun hQ => h.accepts (hPQ.2 hQ), fun hQ => h.refuses fun hP => hQ (hPQ.1 hP)⟩

theorem valid (a : α) : (Validated.valid a : Validated ε α).Decides True a :=
  ⟨fun _ => rfl, fun h => absurd trivial h⟩

theorem fail (message : ε) (a : α) : (Validated.fail message).Decides False a :=
  ⟨False.elim, fun _ => by simp⟩

theorem check (condition : Bool) (message : ε) :
    (Validated.check condition message).Decides (condition = true) () := by
  constructor
  · intro h
    rw [Validated.check, if_pos h]
  · exact fun h hnone => h (causes_check.1 hnone)

theorem map (h : v.Decides P a) (f : α → β) : (v.map f).Decides P (f a) := by
  constructor
  · intro hP
    rw [h.accepts hP]
    rfl
  · rw [causes_map]
    exact h.refuses

theorem discard (h : v.Decides P a) : v.discard.Decides P () := h.map _

theorem within (h : v.Decides P a) (place : String) : (v.within place).Decides P a := by
  constructor
  · intro hP
    rw [h.accepts hP]
    rfl
  · intro hP
    rw [causes_within]
    exact fun hnone => h.refuses hP (List.map_eq_nil_iff.1 hnone)

theorem zip {w : Validated ε β} {b : β} (h : v.Decides P a) (hw : w.Decides Q b) :
    (v.zip w).Decides (P ∧ Q) (a, b) := by
  constructor
  · intro hPQ
    rw [h.accepts hPQ.1, hw.accepts hPQ.2]
    rfl
  · intro hPQ hnone
    rw [causes_zip, List.append_eq_nil_iff] at hnone
    by_cases hP : P
    · exact hw.refuses (fun hQ => hPQ ⟨hP, hQ⟩) hnone.2
    · exact h.refuses hP hnone.1

theorem andThen {f : α → Validated ε β} {b : β} (h : v.Decides P a) (hf : (f a).Decides Q b) :
    (v.andThen f).Decides (P ∧ Q) b := by
  by_cases hP : P
  · rw [h.accepts hP]
    exact hf.congr (and_iff_right hP).symm
  · refine ⟨fun hPQ => absurd hPQ.1 hP, fun _ => ?_⟩
    have hcauses := h.refuses hP
    cases v with
    | valid c => exact absurd rfl hcauses
    | invalid cs => exact hcauses

theorem traverse {f : α → Validated ε β} {s : List α} {R : α → Prop} {g : α → β}
    (h : ∀ a ∈ s, (f a).Decides (R a) (g a)) :
    (Validated.traverse f s).Decides (∀ a ∈ s, R a) (s.map g) := by
  constructor
  · intro hR
    have hvalid : s.map f = (s.map g).map Validated.valid := by
      rw [List.map_map]
      exact List.map_congr_left fun a ha => (h a ha).accepts (hR a ha)
    rw [Validated.traverse, hvalid, all_valid]
  · intro hR hnone
    rw [causes_traverse] at hnone
    refine hR fun a ha => ?_
    by_contra hRa
    exact (h a ha).refuses hRa (List.flatMap_eq_nil_iff.1 hnone a ha)

end Decides
end Validated
end FederatedQuery
