import FederatedQuery.Proofs.Validation

/-!
What a validation promises: one condition on its value, should it have one, and one on the messages
of its causes.
-/
namespace FederatedQuery.Validated
variable {ε α β : Type}

def Yields (v : Validated ε α) (P : α → Prop) : Prop := ∀ a, v = valid a → P a

namespace Yields
variable {v : Validated ε α} {P : α → Prop} {Q : β → Prop}

theorem valid {a : α} (h : P a) : (Validated.valid a : Validated ε α).Yields P := by
  intro b hb
  cases hb
  exact h

theorem ofOption {message : ε} {a? : Option α} (h : ∀ a, a? = some a → P a) :
    (Validated.ofOption message a?).Yields P := by
  cases a? with
  | none => exact nofun
  | some a => exact .valid (h a rfl)

theorem map {f : α → β} (h : v.Yields fun a => Q (f a)) : (v.map f).Yields Q := by
  intro b hb
  obtain ⟨a, ha, rfl⟩ := map_eq_valid.1 hb
  exact h a ha

theorem andThen {f : α → Validated ε β} (hf : ∀ a, v = .valid a → (f a).Yields Q) :
    (v.andThen f).Yields Q := by
  cases v with
  | valid a => exact hf a rfl
  | invalid cs => exact nofun

theorem within (h : v.Yields P) (place : String) : (v.within place).Yields P := by
  cases v with
  | valid a => exact h
  | invalid cs => exact nofun

theorem zip {w : Validated ε β} (h : v.Yields P) (hw : w.Yields Q) :
    (v.zip w).Yields fun e => P e.1 ∧ Q e.2 := by
  cases v with
  | valid a =>
    cases w with
    | valid b => exact .valid ⟨h a rfl, hw b rfl⟩
    | invalid ds => exact nofun
  | invalid cs =>
    cases w with
    | valid b => exact nofun
    | invalid ds => exact nofun

/-- A traversal makes up no values. -/
theorem traverse {f : α → Validated ε β} {items : List α} (h : ∀ a ∈ items, (f a).Yields Q) :
    (Validated.traverse f items).Yields fun bs => ∀ b ∈ bs, Q b := by
  intro bs hbs b hb
  obtain ⟨-, rfl⟩ := traverse_eq_valid.1 hbs
  obtain ⟨a, ha, hvalue⟩ := List.mem_filterMap.1 hb
  exact h a ha b (value?_eq_some.1 hvalue)

end Yields

def Blames (v : Validated ε α) (P : ε → Prop) : Prop := ∀ c ∈ v.causes, P c.message

namespace Blames
variable {v : Validated ε α} {P P' : ε → Prop}

theorem valid {a : α} : (Validated.valid a : Validated ε α).Blames P := nofun

theorem fail {message : ε} (h : P message) : (Validated.fail message : Validated ε α).Blames P := by
  simpa [Blames] using h

theorem check {condition : Bool} {message : ε} (h : ¬condition = true → P message) :
    (Validated.check condition message).Blames P := by
  unfold Validated.check
  split
  · exact valid
  · exact fail (h ‹_›)

theorem mono (h : v.Blames P) (hP : ∀ message, P message → P' message) : v.Blames P' :=
  fun c hc => hP c.message (h c hc)

theorem map (h : v.Blames P) (f : α → β) : (v.map f).Blames P := by
  simpa [Blames] using h

theorem discard (h : v.Blames P) : v.discard.Blames P := h.map _

theorem within (h : v.Blames P) (place : String) : (v.within place).Blames P := by
  simpa [Blames, Cause.within] using h

theorem zip {w : Validated ε β} (h : v.Blames P) (hw : w.Blames P) : (v.zip w).Blames P := by
  intro c hc
  rw [causes_zip, List.mem_append] at hc
  exact hc.elim (h c) (hw c)

theorem andThen {f : α → Validated ε β} (h : v.Blames P) (hf : ∀ a, (f a).Blames P) :
    (v.andThen f).Blames P := by
  cases v with
  | valid a => exact hf a
  | invalid cs => exact h

theorem traverse {f : α → Validated ε β} {items : List α} (h : ∀ a ∈ items, (f a).Blames P) :
    (Validated.traverse f items).Blames P := by
  intro c hc
  rw [causes_traverse, List.mem_flatMap] at hc
  obtain ⟨a, ha, hc⟩ := hc
  exact h a ha c hc

end Blames
end FederatedQuery.Validated
