import Mathlib.Data.List.Forall2

/-!
Computations that succeed or fail, and two of them side by side. What relates their results is
carried on by every step that takes related values to related results.
-/
namespace FederatedQuery

theorem ok_bind {ε α β : Type} (a : α) (f : α → Except ε β) : (Except.ok a >>= f) = f a := rfl

theorem ok_of_isOk {ε α : Type} {x : Except ε α} (h : x.isOk = true) (a : α) :
    x = .ok (x.toOption.getD a) := by
  cases x with
  | error e => exact nomatch h
  | ok b => rfl

theorem ok_of_toOption {ε α : Type} {x : Except ε α} {a : α} (h : x.toOption = some a) :
    x = .ok a := by
  cases x with
  | error e => exact nomatch h
  | ok b => exact congrArg Except.ok (Option.some.inj h)

/-- Both computations succeed, with related values, or both fail, with related errors, which need
not be the same. -/
inductive BothOrNeither {ε α β : Type} (E : ε → ε → Prop) (R : α → β → Prop) :
    Except ε α → Except ε β → Prop
  | ok {a : α} {b : β} (values : R a b) : BothOrNeither E R (.ok a) (.ok b)
  | error {e e' : ε} (errors : E e e') : BothOrNeither E R (.error e) (.error e')

namespace BothOrNeither
variable {ε α β α' β' : Type} {E : ε → ε → Prop} {R : α → β → Prop} {S : α' → β' → Prop}
  {r : Except ε α} {r' : Except ε β}

theorem bind {f : α → Except ε α'} {g : β → Except ε β'} (h : BothOrNeither E R r r')
    (hf : ∀ a b, R a b → BothOrNeither E S (f a) (g b)) :
    BothOrNeither E S (r >>= f) (r' >>= g) := by
  cases h with
  | ok values => exact hf _ _ values
  | error errors => exact .error errors

theorem mapM {f : α → Except ε α'} {g : β → Except ε β'} {as : List α} {bs : List β}
    (h : List.Forall₂ R as bs) (hf : ∀ a b, R a b → BothOrNeither E S (f a) (g b)) :
    BothOrNeither E (List.Forall₂ S) (as.mapM f) (bs.mapM g) := by
  induction h with
  | nil => exact .ok .nil
  | cons first _ ih =>
    rw [List.mapM_cons, List.mapM_cons]
    exact (hf _ _ first).bind fun _ _ hfirst => ih.bind fun _ _ hrest => .ok (.cons hfirst hrest)

theorem of_ok (h : BothOrNeither E R r r') {a : α} {b : β} (ha : r = .ok a) (hb : r' = .ok b) :
    R a b := by
  subst ha hb
  cases h
  assumption

end BothOrNeither

end FederatedQuery
