import FederatedQuery.Proofs.Operation.Collect

/-!
A collection as a set of ways down. A text leads to fields, through the fragments that it spreads
and not twice into one of them; what is collected has exactly the ways to which the text leads.
-/
namespace FederatedQuery

abbrev Step := String × String

def SelectionNode.step (n : SelectionNode) : Step := (n.responseKey, n.onType)

namespace SelectionSet

def Holds : SelectionSet → List Step → Prop
  | _, [] => True
  | s, k :: steps => ∃ n ∈ s, n.step = k ∧ Holds n.children steps

theorem holds_nil {steps : List Step} : Holds [] steps ↔ steps = [] := by
  cases steps with
  | nil => exact iff_of_true trivial rfl
  | cons k steps => simp [Holds]

theorem holds_append {s t : SelectionSet} {steps : List Step} :
    Holds (s ++ t) steps ↔ Holds s steps ∨ Holds t steps := by
  cases steps with
  | nil => exact iff_of_true trivial (.inl trivial)
  | cons k steps => simp [Holds, or_and_right, exists_or]

theorem holds_singleton {n : SelectionNode} {steps : List Step} :
    Holds [n] steps ↔ steps = [] ∨ ∃ more, steps = n.step :: more ∧ Holds n.children more := by
  cases steps with
  | nil => exact iff_of_true trivial (.inl rfl)
  | cons k steps =>
    simp only [Holds, List.mem_singleton, exists_eq_left, List.cons_ne_nil, false_or,
      List.cons.injEq]
    constructor
    · rintro ⟨rfl, h⟩
      exact ⟨steps, ⟨rfl, rfl⟩, h⟩
    · rintro ⟨_, ⟨rfl, rfl⟩, h⟩
      exact ⟨rfl, h⟩

theorem ne_nil_iff_holds {s : SelectionSet} : s ≠ [] ↔ ∃ k, s.Holds [k] := by
  constructor
  · intro hne
    obtain ⟨n, hn⟩ := List.exists_mem_of_ne_nil s hne
    exact ⟨n.step, n, hn, rfl, trivial⟩
  · rintro ⟨k, n, hn, -⟩ rfl
    exact nomatch hn

/-- Where the fields of a way are the only ones at their steps, more steps continue the way. -/
theorem holds_way {s : SelectionSet} (h : Everywhere Collected s) {way : List SelectionNode}
    (hway : Descends s way) {more : List Step} :
    s.Holds (way.map SelectionNode.step ++ more) ↔ (s.after way).Holds more := by
  induction way generalizing s with
  | nil => rfl
  | cons n way ih =>
    have hchildren := h.children (mem_allFields_of_mem hway.1)
    rw [List.map_cons, List.cons_append, after, ← ih hchildren hway.2]
    constructor
    · rintro ⟨m, hm, hstep, hrest⟩
      obtain ⟨hkey, htype⟩ := Prod.mk.inj hstep
      rwa [← h.1.eq_of_meets hm hway.1 (Scope.meets_iff.2 ⟨hkey, htype⟩)]
    · exact fun hrest => ⟨n, hway.1, rfl, hrest⟩

end SelectionSet

namespace Scope
variable {s : Scope} {onType : String} {keys spreads : List String} {steps : List Step}

/-- The steps to which selections lead. A fragment is entered unless it is being expanded. -/
inductive Leads (s : Scope) : (onType : String) → (spreads : List String) → List Selection →
    List Step → Prop
  | stop {onType : String} {spreads : List String} {selections : List Selection} :
      Leads s onType spreads selections []
  | field {onType : String} {spreads : List String} {alias? : Option String} {name : String}
      {arguments : List Argument} {directives : List Directive} {below rest : List Selection}
      {ofType : String} {steps : List Step} (returns : s.returnType? onType name = some ofType)
      (deeper : Leads s ofType spreads below steps) :
      Leads s onType spreads (.field alias? name arguments directives below :: rest)
        ((alias?.getD name, onType) :: steps)
  | inline {onType : String} {spreads : List String} {condition? : Option String}
      {directives : List Directive} {below rest : List Selection} {steps : List Step}
      (deeper : Leads s (condition?.getD onType) spreads below steps) :
      Leads s onType spreads (.inline condition? directives below :: rest) steps
  | spread {onType : String} {spreads : List String} {name : String}
      {directives : List Directive} {rest : List Selection} {f : FragmentNode} {steps : List Step}
      (fresh : name ∉ spreads) (defined : s.fragment? name = some f)
      (deeper : Leads s f.condition (name :: spreads) f.selections steps) :
      Leads s onType spreads (.spread name directives :: rest) steps
  | later {onType : String} {spreads : List String} {first : Selection} {rest : List Selection}
      {steps : List Step} (others : Leads s onType spreads rest steps) :
      Leads s onType spreads (first :: rest) steps

theorem leads_nil : s.Leads onType spreads [] steps ↔ steps = [] := by
  constructor
  · intro h
    cases h
    rfl
  · rintro rfl
    exact .stop

theorem leads_field {alias? : Option String} {name ofType : String} {arguments : List Argument}
    {directives : List Directive} {below rest : List Selection}
    (returns : s.returnType? onType name = some ofType) :
    s.Leads onType spreads (.field alias? name arguments directives below :: rest) steps ↔
      (∃ more, steps = (alias?.getD name, onType) :: more ∧ s.Leads ofType spreads below more) ∨
        s.Leads onType spreads rest steps := by
  constructor
  · intro h
    cases h with
    | stop => exact .inr .stop
    | later others => exact .inr others
    | field returns' deeper =>
      cases returns.symm.trans returns'
      exact .inl ⟨_, rfl, deeper⟩
  · rintro (⟨more, rfl, deeper⟩ | others)
    · exact .field returns deeper
    · exact .later others

theorem leads_inline {condition? : Option String} {directives : List Directive}
    {below rest : List Selection} :
    s.Leads onType spreads (.inline condition? directives below :: rest) steps ↔
      s.Leads (condition?.getD onType) spreads below steps ∨ s.Leads onType spreads rest steps := by
  constructor
  · intro h
    cases h with
    | stop => exact .inr .stop
    | later others => exact .inr others
    | inline deeper => exact .inl deeper
  · exact fun h => h.elim .inline .later

theorem leads_again {name : String} {directives : List Directive} {rest : List Selection}
    (known : name ∈ spreads) :
    s.Leads onType spreads (.spread name directives :: rest) steps ↔
      s.Leads onType spreads rest steps := by
  constructor
  · intro h
    cases h with
    | stop => exact .stop
    | later others => exact others
    | spread fresh => exact absurd known fresh
  · exact .later

theorem leads_spread {name : String} {directives : List Directive} {rest : List Selection}
    {f : FragmentNode} (fresh : name ∉ spreads) (defined : s.fragment? name = some f) :
    s.Leads onType spreads (.spread name directives :: rest) steps ↔
      s.Leads f.condition (name :: spreads) f.selections steps ∨
        s.Leads onType spreads rest steps := by
  constructor
  · intro h
    cases h with
    | stop => exact .inr .stop
    | later others => exact .inr others
    | spread _ defined' deeper =>
      cases defined.symm.trans defined'
      exact .inl deeper
  · exact fun h => h.elim (.spread fresh defined) .later

/-- A field that gets more below it is reached as before, and by its own step. -/
theorem holds_of_meet {node met : SelectionNode} {out front behind children : SelectionSet}
    {L : List Step → Prop} (found : meet node out = .ok (front, met, behind))
    (bare : node.children = []) (stop : L [])
    (deeper : ∀ more, children.Holds more ↔ SelectionSet.Holds met.children more ∨ L more) :
    SelectionSet.Holds (front ++ { met with children } :: behind) steps ↔
      out.Holds steps ∨ ∃ more, steps = node.step :: more ∧ L more := by
  have hsplit : ∀ n : SelectionNode, SelectionSet.Holds (front ++ n :: behind) steps ↔
      (SelectionSet.Holds front steps ∨ SelectionSet.Holds behind steps) ∨
        SelectionSet.Holds [n] steps := by
    intro n
    rw [List.append_cons, SelectionSet.holds_append, SelectionSet.holds_append, or_right_comm]
  have hgrown : SelectionSet.Holds [{ met with children }] steps ↔
      SelectionSet.Holds [met] steps ∨ ∃ more, steps = met.step :: more ∧ L more := by
    simp only [SelectionSet.holds_singleton, deeper, and_or_left, exists_or, or_assoc]
    rfl
  rw [hsplit, hgrown, ← or_assoc, ← hsplit]
  cases meet_of_ok found with
  | inl hfound =>
    obtain ⟨rfl, hmeets, -⟩ := hfound
    obtain ⟨hkey, htype⟩ := meets_iff.1 hmeets
    have hstep : met.step = node.step := Prod.ext hkey htype
    rw [hstep]
  | inr hlast =>
    obtain ⟨rfl, rfl, rfl, -⟩ := hlast
    -- a field that comes last adds no way but that of its own step
    have hself : SelectionSet.Holds [met] steps →
        SelectionSet.Holds front steps ∨ ∃ more, steps = met.step :: more ∧ L more := by
      rw [SelectionSet.holds_singleton, bare]
      rintro (rfl | ⟨more, rfl, hmore⟩)
      · exact .inl trivial
      · exact .inr ⟨more, rfl, SelectionSet.holds_nil.1 hmore ▸ stop⟩
    rw [SelectionSet.holds_append]
    constructor
    · rintro ((hfront | hlast) | hstep)
      · exact .inl hfront
      · exact hself hlast
      · exact .inr hstep
    · rintro (hfront | hstep)
      · exact .inl (.inl hfront)
      · exact .inr hstep

/-- What is collected has the ways there were and those to which the selections lead. -/
theorem Collects.holds_iff {selections : List Selection} {out collected : SelectionSet}
    (h : s.Collects onType keys spreads selections out collected) :
    collected.Holds steps ↔ out.Holds steps ∨ s.Leads onType spreads selections steps := by
  induction h generalizing steps with
  | nil onType _ spreads out =>
    rw [leads_nil]
    constructor
    · exact .inl
    · rintro (hout | rfl)
      · exact hout
      · trivial
  | field made found _ _ deeper others =>
    obtain ⟨ofType, hreturns, -, rfl, -⟩ := made_of_ok made
    rw [others, holds_of_meet found rfl Leads.stop fun _ => deeper, leads_field hreturns, or_assoc]
    rfl
  | inline _ _ _ deeper others => rw [others, deeper, leads_inline, or_assoc]
  | again known _ others => rw [others, leads_again known]
  | spread fresh defined _ _ _ deeper others =>
    rw [others, deeper, leads_spread fresh defined, or_assoc]

end Scope
end FederatedQuery
