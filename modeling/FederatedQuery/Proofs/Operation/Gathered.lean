import FederatedQuery.Proofs.Grammar.Document
import FederatedQuery.Proofs.Operation.Complete

/-!
Fields as a text leads to them: they are spelled as a text can spell them, and each knows its place.
-/
namespace FederatedQuery
open Grammar

structure SelectionNode.Spelled (n : SelectionNode) : Prop where
  named : IsName n.name
  aliased : ∀ a ∈ n.alias?, IsName a
  given : ∀ a ∈ n.arguments, a.Spelled
  settled : ∀ a ∈ n.arguments, a.merged = a

namespace Scope

def Shows (s : Scope) (enclosing onType : String) : Prop :=
  onType = enclosing ∨ IsName onType ∧ s.index.hasType onType = true

inductive Gathers (s : Scope) : (enclosing : String) → (keys : List String) → SelectionNode → Prop
  | field {enclosing : String} {keys : List String} {n : SelectionNode}
      (path : n.responsePath = keys ++ [n.responseKey]) (shown : s.Shows enclosing n.onType)
      (spelled : n.Spelled) (returns : s.returnType? n.onType n.name = some n.ofType)
      (below : ∀ c ∈ n.children, Gathers s n.ofType n.responsePath c) : Gathers s enclosing keys n

variable {s : Scope} {enclosing onType : String} {keys spreads : List String}

theorem shows_of_checkType {type : String} (hname : IsName type)
    (h : s.checkType type keys = .ok ()) : s.Shows enclosing type := by
  unfold checkType at h
  split at h
  · exact .inr ⟨hname, ‹_›⟩
  · cases h

namespace Gathers
variable {n : SelectionNode}

theorem shown (h : s.Gathers enclosing keys n) : s.Shows enclosing n.onType := by
  cases h with
  | field _ shown _ _ _ => exact shown

theorem path (h : s.Gathers enclosing keys n) : n.responsePath = keys ++ [n.responseKey] := by
  cases h with
  | field path _ _ _ _ => exact path

theorem returns (h : s.Gathers enclosing keys n) :
    s.returnType? n.onType n.name = some n.ofType := by
  cases h with
  | field _ _ _ returns _ => exact returns

theorem of_child {c : SelectionNode} (h : s.Gathers enclosing keys n) (hc : c ∈ n.children) :
    s.Gathers n.ofType n.responsePath c := by
  cases h with
  | field _ _ _ _ below => exact below c hc

theorem withChildren {children : SelectionSet} (h : s.Gathers enclosing keys n)
    (hchildren : ∀ c ∈ children, s.Gathers n.ofType n.responsePath c) :
    s.Gathers enclosing keys { n with children } := by
  cases h with
  | field path shown spelled returns _ =>
    exact .field path shown ⟨spelled.named, spelled.aliased, spelled.given, spelled.settled⟩ returns
      hchildren

end Gathers

/-- A field that is made of a selection. -/
theorem gathers_of_made {alias? : Option String} {name : String} {arguments : List Argument}
    {hasSelection : Bool} {node : SelectionNode} (halias : ∀ a ∈ alias?, IsName a)
    (hname : IsName name) (harguments : ∀ a ∈ arguments, a.Spelled)
    (hshown : s.Shows enclosing onType)
    (h : s.fieldNode onType (keys ++ [alias?.getD name]) alias? name arguments hasSelection =
      .ok node) :
    s.Gathers enclosing keys node ∧ node.responsePath = keys ++ [alias?.getD name] := by
  obtain ⟨ofType, hreturns, -, rfl, -⟩ := made_of_ok h
  refine ⟨.field rfl hshown ⟨hname, halias, ?_, ?_⟩ hreturns nofun, rfl⟩
  · exact List.forall_mem_map.2 fun a ha => (harguments a ha).merged
  · exact List.forall_mem_map.2 fun a _ => a.merged_merged

/-- The field that another one meets stands in its place. -/
theorem gathers_of_meet {node met : SelectionNode} {out front behind : SelectionSet}
    (found : meet node out = .ok (front, met, behind)) (hnode : s.Gathers enclosing keys node)
    (hout : ∀ n ∈ out, s.Gathers enclosing keys n) :
    (∀ n ∈ front ++ met :: behind, s.Gathers enclosing keys n) ∧ met.ofType = node.ofType ∧
      met.responsePath = node.responsePath := by
  cases meet_of_ok found with
  | inl hfound =>
    obtain ⟨rfl, hmeets, hname, -⟩ := hfound
    obtain ⟨hkey, htype⟩ := meets_iff.1 hmeets
    refine ⟨hout, ?_⟩
    have hmet := hout met (by simp)
    have hreturns := hmet.returns
    rw [hname, htype, hnode.returns] at hreturns
    exact ⟨(Option.some.inj hreturns).symm, by rw [hmet.path, hnode.path, hkey]⟩
  | inr hlast =>
    obtain ⟨rfl, rfl, rfl, -⟩ := hlast
    exact ⟨List.forall_mem_append.2 ⟨hout, List.forall_mem_singleton.2 hnode⟩, rfl, rfl⟩

/-- What is collected below a field is put below the one that it meets. -/
theorem gathers_of_deeper {node met : SelectionNode} {out front behind children : SelectionSet}
    (found : meet node out = .ok (front, met, behind)) (hnode : s.Gathers enclosing keys node)
    (hout : ∀ n ∈ out, s.Gathers enclosing keys n)
    (deeper : (∀ c ∈ met.children, s.Gathers node.ofType node.responsePath c) →
      ∀ c ∈ children, s.Gathers node.ofType node.responsePath c) :
    ∀ n ∈ front ++ { met with children } :: behind, s.Gathers enclosing keys n := by
  obtain ⟨hplace, htype, hpath⟩ := gathers_of_meet found hnode hout
  rw [List.forall_mem_append, List.forall_mem_cons] at hplace ⊢
  obtain ⟨hfront, hmet, hbehind⟩ := hplace
  rw [← htype, ← hpath] at deeper
  exact ⟨hfront, hmet.withChildren (deeper fun c hc => hmet.of_child hc), hbehind⟩

/-- Collecting from a text yields such fields. -/
theorem Collects.gathers {selections : List Selection} {out collected : SelectionSet}
    (h : s.Collects onType keys spreads selections out collected)
    (hfragments : ∀ f ∈ s.fragments, f.Spelled) (hselections : ∀ t ∈ selections, t.Spelled)
    (hshown : s.Shows enclosing onType) (hout : ∀ n ∈ out, s.Gathers enclosing keys n) :
    ∀ n ∈ collected, s.Gathers enclosing keys n := by
  induction h generalizing enclosing with
  | nil => exact hout
  | field made found _ _ deeper others =>
    rw [List.forall_mem_cons] at hselections
    cases hselections.1 with
    | field aliased named given each =>
      obtain ⟨hnode, hpath⟩ := gathers_of_made aliased named given hshown made
      refine others hselections.2 hshown (gathers_of_deeper found hnode hout fun hmet => ?_)
      rw [hpath] at hmet ⊢
      exact deeper each (.inl rfl) hmet
  | @inline onType _ _ condition? _ _ _ _ _ _ checked _ _ deeper others =>
    rw [List.forall_mem_cons] at hselections
    cases hselections.1 with
    | inline named each =>
      have hcondition : s.Shows enclosing (condition?.getD onType) := by
        cases condition? with
        | none => exact hshown
        | some type => exact shows_of_checkType (named type rfl) checked
      exact others hselections.2 hshown (deeper each hcondition hout)
  | again _ _ others => exact others (List.forall_mem_cons.1 hselections).2 hshown hout
  | spread _ defined checked _ _ deeper others =>
    have hf := hfragments _ (List.mem_of_find?_eq_some defined)
    have hmiddle := deeper hf.each (shows_of_checkType hf.condition checked) hout
    exact others (List.forall_mem_cons.1 hselections).2 hshown hmiddle

end Scope
end FederatedQuery
