import FederatedQuery.Decomposition.Hop
import FederatedQuery.Proofs.Selection.Variables

/-!
Type names that selections carry. Selections are alike if they differ only in hidden type names
without arguments and sub-selection, which may stand anywhere.
-/
namespace FederatedQuery

namespace SelectionNode

def CarriesType (n : SelectionNode) : Prop :=
  n.isHidden = true ∧ n.isTypename = true ∧ n.arguments = [] ∧ n.children = []

mutual
def withoutTypenames : SelectionNode → SelectionNode
  | ⟨name, alias?, arguments, responsePath, onType, ofType, children, isHidden⟩ =>
    ⟨name, alias?, arguments, responsePath, onType, ofType, dropTypenames children, isHidden⟩

def dropTypenames : List SelectionNode → List SelectionNode
  | [] => []
  | n :: rest =>
    if n.isHidden && n.isTypename then dropTypenames rest
    else n.withoutTypenames :: dropTypenames rest
end

theorem withoutTypenames_eq (n : SelectionNode) :
    n.withoutTypenames = { n with children := dropTypenames n.children } := by
  cases n
  rfl

end SelectionNode

namespace SelectionSet

def withoutTypenames (s : SelectionSet) : SelectionSet := SelectionNode.dropTypenames s

inductive Alike (differ : Prop) : SelectionSet → SelectionSet → Prop
  | nil : Alike differ [] []
  | left {n : SelectionNode} {s t : SelectionSet} (free : differ) (name : n.CarriesType)
      (rest : Alike differ s t) : Alike differ (n :: s) t
  | right {n : SelectionNode} {s t : SelectionSet} (free : differ) (name : n.CarriesType)
      (rest : Alike differ s t) : Alike differ s (n :: t)
  | both {n m : SelectionNode} {s t : SelectionSet} (same : m = { n with children := m.children })
      (below : Alike differ n.children m.children) (rest : Alike differ s t) :
      Alike differ (n :: s) (m :: t)

namespace Alike
variable {differ : Prop} {s t s' t' : SelectionSet}

theorem refl (differ : Prop) (s : SelectionSet) : Alike differ s s := by
  have hall : ∀ n : SelectionNode, ∀ s, Alike differ s s → Alike differ (n :: s) (n :: s) := by
    intro n
    induction n using SelectionNode.ofChildren with
    | step n ih =>
      intro s hs
      refine .both (SelectionNode.withChildren_eq rfl).symm ?_ hs
      generalize n.children = children at ih
      induction children with
      | nil => exact .nil
      | cons c children ihc =>
        exact ih c (by simp) _ (ihc fun d hd => ih d (List.mem_cons_of_mem c hd))
  induction s with
  | nil => exact .nil
  | cons n s ih => exact hall n s ih

theorem append (h : Alike differ s t) (h' : Alike differ s' t') :
    Alike differ (s ++ s') (t ++ t') := by
  induction h with
  | nil => exact h'
  | left free name _ ih => exact .left free name ih
  | right free name _ ih => exact .right free name ih
  | both same below _ _ ih => exact .both same below ih

theorem append_left (h : Alike differ s t) (free : differ) {n : SelectionNode}
    (hn : n.CarriesType) : Alike differ (s ++ [n]) t := by
  simpa using h.append (.left free hn .nil)

theorem append_right (h : Alike differ s t) (free : differ) {n : SelectionNode}
    (hn : n.CarriesType) : Alike differ s (t ++ [n]) := by
  simpa using h.append (.right free hn .nil)

/-- What may not differ is equal. -/
theorem eq (h : Alike differ s t) (hsame : ¬differ) : s = t := by
  induction h with
  | nil => rfl
  | left free _ _ _ => exact absurd free hsame
  | right free _ _ _ => exact absurd free hsame
  | both same _ _ ihbelow ihrest =>
    rw [ihrest, same, SelectionNode.withChildren_eq ihbelow.symm]

/-- Without the hidden type names they are equal. -/
theorem withoutTypenames (h : Alike differ s t) : s.withoutTypenames = t.withoutTypenames := by
  have hdrop : ∀ {n : SelectionNode} {s : SelectionSet}, n.CarriesType →
      SelectionNode.dropTypenames (n :: s) = SelectionNode.dropTypenames s := by
    intro n s hn
    rw [SelectionNode.dropTypenames, if_pos (by simp [hn.1, hn.2.1])]
  unfold SelectionSet.withoutTypenames
  induction h with
  | nil => rfl
  | left _ name _ ih => rw [hdrop name, ih]
  | right _ name _ ih => rw [hdrop name, ih]
  | @both n m s t same _ _ ihbelow ihrest =>
    have hhidden : m.isHidden = n.isHidden := congrArg (·.isHidden) same
    have hname : m.isTypename = n.isTypename := congrArg (·.isTypename) same
    have hnode : m.withoutTypenames = n.withoutTypenames := by
      rw [SelectionNode.withoutTypenames_eq, SelectionNode.withoutTypenames_eq, same, ihbelow]
    rw [SelectionNode.dropTypenames, SelectionNode.dropTypenames, hhidden, hname, hnode, ihrest]

/-- They use the same variables. -/
theorem usedVariables (h : Alike differ s t) : s.usedVariables = t.usedVariables := by
  have hnone : ∀ {n : SelectionNode} (s : SelectionSet), n.CarriesType →
      appearances (n :: s) = s.appearances := by
    intro n s hn
    rw [appearances_cons, hn.2.2.1, hn.2.2.2]
    rfl
  have happearances : s.appearances = t.appearances := by
    induction h with
    | nil => rfl
    | left _ name _ ih => rw [hnone _ name, ih]
    | right _ name _ ih => rw [hnone _ name, ih]
    | @both n m s t same _ _ ihbelow ihrest =>
      have harguments : m.arguments = n.arguments := congrArg (·.arguments) same
      rw [appearances_cons, appearances_cons, harguments, ihbelow, ihrest]
  rw [usedVariables_eq, usedVariables_eq, happearances]

/-- They hold the same keys, but for type names. -/
theorem holdsKey (h : Alike differ s t) {key : String} (hkey : key ≠ typenameField)
    (type enclosing : String) : s.holdsKey type enclosing key = t.holdsKey type enclosing key := by
  have hnone : ∀ {n : SelectionNode}, n.CarriesType → (n.name = key) = False := by
    intro n hn
    have hname : n.name = typenameField := by simpa [SelectionNode.isTypename] using hn.2.1
    exact eq_false fun heq => hkey (heq.symm.trans hname)
  unfold SelectionSet.holdsKey
  induction h with
  | nil => rfl
  | left _ name _ ih => simp [hnone name, ih]
  | right _ name _ ih => simp [hnone name, ih]
  | @both n m s t same _ _ _ ihrest =>
    rw [List.any_cons, List.any_cons, ihrest, same]

end Alike
end SelectionSet
end FederatedQuery
