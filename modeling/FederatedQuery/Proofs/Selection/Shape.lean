import Mathlib.Data.List.Forall2
import FederatedQuery.Proofs.Selection

/-!
The shape of a selection: which fields are asked of which types. Aliases, arguments, response paths
and whether a field is part of the answer are no part of it.
-/
namespace FederatedQuery

namespace SelectionNode

inductive SameShape : SelectionNode → SelectionNode → Prop
  | mk {n m : SelectionNode} (name : n.name = m.name) (onType : n.onType = m.onType)
      (ofType : n.ofType = m.ofType) (children : List.Forall₂ SameShape n.children m.children) :
      SameShape n m

mutual
def matchesShape : SelectionNode → SelectionNode → Bool
  | ⟨name, _, _, _, onType, ofType, children, _⟩, m =>
    name = m.name && onType = m.onType && ofType = m.ofType && matchShapes children m.children

def matchShapes : List SelectionNode → List SelectionNode → Bool
  | [], [] => true
  | n :: rest, m :: others => n.matchesShape m && matchShapes rest others
  | [], _ :: _ | _ :: _, [] => false
end

theorem matchShapes_iff {ns ms : List SelectionNode}
    (h : ∀ n ∈ ns, ∀ m, n.matchesShape m = true ↔ n.SameShape m) :
    matchShapes ns ms = true ↔ List.Forall₂ SameShape ns ms := by
  induction ns generalizing ms with
  | nil => cases ms <;> simp [matchShapes, List.forall₂_nil_left_iff]
  | cons n ns ih =>
    obtain ⟨hfirst, hrest⟩ := List.forall_mem_cons.1 h
    cases ms with
    | nil => simp [matchShapes, List.forall₂_nil_right_iff]
    | cons m ms => simp [matchShapes, hfirst, ih hrest]

theorem matchesShape_iff {n m : SelectionNode} : n.matchesShape m = true ↔ n.SameShape m := by
  induction n using ofChildren generalizing m with
  | step n ih =>
    have hchildren : matchShapes n.children m.children = true ↔
        List.Forall₂ SameShape n.children m.children :=
      matchShapes_iff fun c hc d => ih c hc
    have hnode : n.matchesShape m = (n.name = m.name && n.onType = m.onType &&
        n.ofType = m.ofType && matchShapes n.children m.children) := by
      cases n
      rw [matchesShape]
    rw [hnode]
    simp only [Bool.and_eq_true, decide_eq_true_eq, hchildren]
    constructor
    · rintro ⟨⟨⟨name, onType⟩, ofType⟩, children⟩
      exact ⟨name, onType, ofType, children⟩
    · rintro ⟨name, onType, ofType, children⟩
      exact ⟨⟨⟨name, onType⟩, ofType⟩, children⟩

end SelectionNode

namespace SelectionSet

def SameShape (s t : SelectionSet) : Prop := List.Forall₂ SelectionNode.SameShape s t

instance (s t : SelectionSet) : Decidable (s.SameShape t) :=
  decidable_of_iff (SelectionNode.matchShapes s t = true)
    (SelectionNode.matchShapes_iff fun _ _ _ => SelectionNode.matchesShape_iff)

end SelectionSet
end FederatedQuery
