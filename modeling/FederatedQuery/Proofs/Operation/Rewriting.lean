import FederatedQuery.Proofs.Operation.Complete
import Mathlib.Data.List.Forall2

/-!
Documents that are rewritten definition by definition. The operation to run is chosen alike in both,
and whatever else becomes of them is up to the collection of two related selections.
-/
namespace FederatedQuery
variable {R : List Selection → List Selection → Prop}

structure OperationNode.Rewritten (R : List Selection → List Selection → Prop)
    (o p : OperationNode) : Prop where
  same : p = { o with selections := p.selections }
  selections : R o.selections p.selections

structure FragmentNode.Rewritten (R : List Selection → List Selection → Prop)
    (f g : FragmentNode) : Prop where
  same : g = { f with selections := g.selections }
  selections : R f.selections g.selections

inductive OperationNodes.Rewritten (R : List Selection → List Selection → Prop) :
    OperationNodes → OperationNodes → Prop
  | anonymous {o p : OperationNode} (h : o.Rewritten R p) :
      Rewritten R (.anonymous o) (.anonymous p)
  | named {operations others : List (String × OperationNode)}
      (h : List.Forall₂ (fun e f => e.1 = f.1 ∧ e.2.Rewritten R f.2) operations others) :
      Rewritten R (.named operations) (.named others)

structure Document.Rewritten (R : List Selection → List Selection → Prop) (d e : Document) :
    Prop where
  operations : d.operations.Rewritten R e.operations
  fragments : List.Forall₂ (FragmentNode.Rewritten R) d.fragments e.fragments

theorem FragmentNode.Rewritten.name {f g : FragmentNode} (h : f.Rewritten R g) :
    g.name = f.name := by
  rw [h.same]

theorem FragmentNode.Rewritten.condition {f g : FragmentNode} (h : f.Rewritten R g) :
    g.condition = f.condition := by
  rw [h.same]

section Symmetry
variable {S : List Selection → List Selection → Prop} (hR : ∀ first second, R first second →
  S second first)
include hR

theorem OperationNode.Rewritten.symm {o p : OperationNode} (h : o.Rewritten R p) :
    p.Rewritten S o :=
  ⟨by rw [h.same], hR _ _ h.selections⟩

theorem FragmentNode.Rewritten.symm {f g : FragmentNode} (h : f.Rewritten R g) :
    g.Rewritten S f :=
  ⟨by rw [h.same], hR _ _ h.selections⟩

theorem OperationNodes.Rewritten.symm {operations others : OperationNodes}
    (h : operations.Rewritten R others) : others.Rewritten S operations := by
  cases h with
  | anonymous h => exact .anonymous (h.symm hR)
  | named h => exact .named (h.flip.imp fun _ _ hentry => ⟨hentry.1.symm, hentry.2.symm hR⟩)

theorem Document.Rewritten.symm {d e : Document} (h : d.Rewritten R e) : e.Rewritten S d :=
  ⟨h.operations.symm hR, h.fragments.flip.imp fun _ _ hsame => hsame.symm hR⟩

end Symmetry

/-- Fragments are found alike. -/
theorem find?_rewritten {fragments others : List FragmentNode}
    (h : List.Forall₂ (FragmentNode.Rewritten R) fragments others) (name : String) :
    Option.Rel (FragmentNode.Rewritten R) (fragments.find? (·.name = name))
      (others.find? (·.name = name)) := by
  induction h with
  | nil => exact .none
  | @cons f g fragments others hfirst _ ih =>
    rw [List.find?_cons, List.find?_cons, hfirst.name]
    cases decide (f.name = name) with
    | true => exact .some hfirst
    | false => exact ih

section Found
variable {fragments others : List FragmentNode} {name : String}
  (h : List.Forall₂ (FragmentNode.Rewritten R) fragments others)
include h

theorem undefined_of_rewritten (hnone : fragments.find? (·.name = name) = none) :
    others.find? (·.name = name) = none := by
  have hfound := find?_rewritten h name
  rw [hnone] at hfound
  cases hg : others.find? (·.name = name) with
  | none => rfl
  | some g =>
    rw [hg] at hfound
    cases hfound

theorem defined_of_rewritten {f : FragmentNode}
    (hf : fragments.find? (·.name = name) = some f) :
    ∃ g ∈ others, others.find? (·.name = name) = some g ∧ f.Rewritten R g := by
  have hfound := find?_rewritten h name
  rw [hf] at hfound
  cases hg : others.find? (·.name = name) with
  | none =>
    rw [hg] at hfound
    cases hfound
  | some g =>
    rw [hg] at hfound
    cases hfound with
    | some hsame => exact ⟨g, List.mem_of_find?_eq_some hg, rfl, hsame⟩

end Found

/-- Operations are found alike. -/
theorem lookup_rewritten {operations others : List (String × OperationNode)}
    (h : List.Forall₂ (fun e f => e.1 = f.1 ∧ e.2.Rewritten R f.2) operations others)
    (name : String) : Option.Rel (OperationNode.Rewritten R) (operations.lookup name)
      (others.lookup name) := by
  induction h with
  | nil => exact .none
  | @cons e f operations others hfirst _ ih =>
    rw [List.lookup_cons, List.lookup_cons, hfirst.1]
    cases name == f.1 with
    | true => exact .some hfirst.2
    | false => exact ih

namespace Document.Rewritten
variable {d e : Document}

/-- Both documents refuse to choose an operation, or choose operations that correspond. -/
theorem select (h : d.Rewritten R e) (name? : Option String) :
    (∃ fault, d.select name? = .error fault ∧ e.select name? = .error fault) ∨
    ∃ chosen o p, d.select name? = .ok (chosen, o) ∧ e.select name? = .ok (chosen, p) ∧
      o.Rewritten R p := by
  obtain ⟨operations, fragments⟩ := d
  obtain ⟨others, fragments'⟩ := e
  obtain ⟨hoperations, -⟩ := h
  cases hoperations with
  | @anonymous o p hsame =>
    exact .inr ⟨none, o, p, by cases name? <;> rfl, by cases name? <;> rfl, hsame⟩
  | named hnamed =>
    cases name? with
    | some name =>
      have hfound := lookup_rewritten hnamed name
      unfold Document.select
      dsimp only
      revert hfound
      generalize List.lookup name _ = o?
      generalize List.lookup name _ = p?
      intro hfound
      cases hfound with
      | none => exact .inl ⟨_, rfl, rfl⟩
      | some hsame => exact .inr ⟨_, _, _, rfl, rfl, hsame⟩
    | none =>
      cases hnamed with
      | nil => exact .inl ⟨_, rfl, rfl⟩
      | @cons e f _ _ hfirst hrest =>
        obtain ⟨name, o⟩ := e
        obtain ⟨name', p⟩ := f
        obtain ⟨rfl, hsame⟩ := hfirst
        cases hrest with
        | nil => exact .inr ⟨_, _, _, rfl, rfl, hsame⟩
        | cons => exact .inl ⟨_, rfl, rfl⟩

/-- Both documents have the same fault, or what they come to is collected from related selections at
the same place. -/
theorem operation (h : d.Rewritten R e) (name? : Option String) (x : SchemaIndex) :
    (∃ fault, d.operation name? x = .error fault ∧ e.operation name? x = .error fault) ∨
    ∃ (kind : OperationKind) (chosen : Option String) (root : String)
      (definitions : List VariableDefinition) (o p : OperationNode),
      o ∈ d.operations.all ∧ p ∈ e.operations.all ∧ R o.selections p.selections ∧
      d.operation name? x = (Scope.collect ⟨x, d.fragments, definitions⟩ root [] [] o.selections
        []).map (⟨kind, chosen, root, definitions, ·⟩) ∧
      e.operation name? x = (Scope.collect ⟨x, e.fragments, definitions⟩ root [] [] p.selections
        []).map (⟨kind, chosen, root, definitions, ·⟩) := by
  unfold Document.operation
  cases h.select name? with
  | inl hrefused =>
    obtain ⟨fault, hd, he⟩ := hrefused
    rw [hd, he]
    exact .inl ⟨fault, rfl, rfl⟩
  | inr hchosen =>
    obtain ⟨chosen, o, p, hd, he, hsame⟩ := hchosen
    have hkind : p.kind = o.kind := by rw [hsame.same]
    have hdefinitions : p.definitions = o.definitions := by rw [hsame.same]
    rw [hd, he]
    simp only [bind, Except.bind, hkind, hdefinitions]
    cases x.rootType o.kind with
    | none => exact .inl ⟨_, rfl, rfl⟩
    | some root =>
      exact .inr ⟨o.kind, chosen, root, _, o, p, mem_all_of_select hd, mem_all_of_select he,
        hsame.selections, rfl, rfl⟩

end Document.Rewritten

/-- Selections are collected one after the other. -/
theorem Scope.collect_append (s : Scope) (onType : String) (keys spreads : List String)
    (first rest : List Selection) (out : SelectionSet) :
    s.collect onType keys spreads (first ++ rest) out =
      s.collect onType keys spreads first out >>= s.collect onType keys spreads rest := by
  induction first generalizing out with
  | nil =>
    rw [List.nil_append, collect]
    rfl
  | cons t first ih =>
    rw [List.cons_append]
    cases t with
    | field alias? name arguments directives below => simp only [collect, ih, bind_assoc]
    | inline condition? directives below => simp only [collect, ih, bind_assoc]
    | spread name directives =>
      by_cases hknown : name ∈ spreads
      · rw [collect_known hknown, collect_known hknown, ih]
      · cases hdefined : s.fragment? name with
        | none =>
          rw [collect_undefined hknown hdefined, collect_undefined hknown hdefined]
          rfl
        | some f =>
          rw [collect_spread hknown hdefined, collect_spread hknown hdefined]
          simp only [ih, bind_assoc]

end FederatedQuery
