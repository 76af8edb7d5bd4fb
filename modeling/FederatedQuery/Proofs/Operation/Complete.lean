import FederatedQuery.Proofs.Decomposition.WellFormed
import FederatedQuery.Proofs.Grammar.Executable
import FederatedQuery.Proofs.Operation.Ways
import Mathlib.Logic.Relation

/-!
Complete selections: a field of a composite type has a field below it. This holds as long as no
fragment leads back to itself, for the check at a field is made of its text, and a spread that is
skipped leaves nothing.
-/
namespace FederatedQuery
open Relation

/-- Nothing leads back to itself along steps that go down in rank. -/
theorem not_transGen_of_rank {α : Type} {r : α → α → Prop} (rank : α → Nat)
    (h : ∀ a b, r a b → rank b < rank a) (a : α) : ¬TransGen r a a := by
  intro hcycle
  have hless : TransGen (· > ·) (rank a) (rank a) := hcycle.lift rank h
  rw [transGen_eq_self] at hless
  exact Nat.lt_irrefl _ hless

namespace Selection

mutual
def spreads : Selection → List String
  | .field _ _ _ _ below => spreadsOfList below
  | .inline _ _ below => spreadsOfList below
  | .spread name _ => [name]

def spreadsOfList : List Selection → List String
  | [] => []
  | s :: rest => s.spreads ++ spreadsOfList rest
end

end Selection

namespace Scope
variable {s : Scope} {onType : String} {keys spreads : List String}

def Uses (s : Scope) (name used : String) : Prop :=
  ∃ f, s.fragment? name = some f ∧ used ∈ Selection.spreadsOfList f.selections

def Unravels (s : Scope) (selections : List Selection) : Prop :=
  ∀ name ∈ Selection.spreadsOfList selections, ∀ used, ReflTransGen s.Uses name used →
    ¬TransGen s.Uses used used

theorem rank_lt_of_uses {rank : String → Nat} (h : ∀ f ∈ s.fragments,
      ∀ used ∈ Selection.spreadsOfList f.selections, rank used < rank f.name)
    {name used : String} (huses : s.Uses name used) : rank used < rank name := by
  obtain ⟨f, hf, hused⟩ := huses
  have hname : f.name = name := by simpa using List.find?_some hf
  exact hname ▸ h f (List.mem_of_find?_eq_some hf) used hused

/-- Fragments unravel that can be numbered so that each spreads only those of smaller numbers. -/
theorem unravels_of_rank (rank : String → Nat) (h : ∀ f ∈ s.fragments,
      ∀ used ∈ Selection.spreadsOfList f.selections, rank used < rank f.name)
    (selections : List Selection) : s.Unravels selections :=
  fun _ _ used _ => not_transGen_of_rank rank (fun _ _ huses => rank_lt_of_uses h huses) used

def Onward (s : Scope) (spreads : List String) (selections : List Selection) : Prop :=
  ∀ name ∈ spreads, ∀ used ∈ Selection.spreadsOfList selections, TransGen s.Uses name used

namespace Onward
variable {selections : List Selection} {name : String} {directives : List Directive}
  {rest : List Selection}

theorem mono {others : List Selection} (h : s.Onward spreads selections)
    (hsub : Selection.spreadsOfList others ⊆ Selection.spreadsOfList selections) :
    s.Onward spreads others := fun name hname used hused => h name hname used (hsub hused)

/-- A fragment that does not lead back to itself is not being expanded. -/
theorem fresh (h : s.Onward spreads (.spread name directives :: rest))
    (hself : ¬TransGen s.Uses name name) : name ∉ spreads :=
  fun hknown => hself (h name hknown name List.mem_cons_self)

/-- The fragment that is entered next leads onward, and so do those that lead to it. -/
theorem spread {f : FragmentNode} (h : s.Onward spreads (.spread name directives :: rest))
    (defined : s.fragment? name = some f) : s.Onward (name :: spreads) f.selections := by
  have huses : ∀ used ∈ Selection.spreadsOfList f.selections, s.Uses name used :=
    fun used hused => ⟨f, defined, hused⟩
  refine List.forall_mem_cons.2 ⟨fun used hused => .single (huses used hused), ?_⟩
  exact fun a ha used hused => (h a ha name List.mem_cons_self).tail (huses used hused)

end Onward

/-- What is left to expand: it is filled, and spreads no fragment that is being expanded, nor one
that leads back to itself. -/
structure Expands (s : Scope) (spreads : List String) (selections : List Selection) : Prop where
  filled : ∀ t ∈ selections, t.Filled
  onward : ∀ name ∈ spreads, ∀ used ∈ Selection.spreadsOfList selections,
    TransGen s.Uses name used
  unravels : s.Unravels selections

namespace Expands
theorem mono {selections others : List Selection} (h : s.Expands spreads selections)
    (hfilled : ∀ t ∈ others, t.Filled)
    (hsub : Selection.spreadsOfList others ⊆ Selection.spreadsOfList selections) :
    s.Expands spreads others :=
  ⟨hfilled, Onward.mono h.onward hsub, fun name hname => h.unravels name (hsub hname)⟩

theorem tail {first : Selection} {rest : List Selection} (h : s.Expands spreads (first :: rest)) :
    s.Expands spreads rest :=
  h.mono (fun t ht => h.filled t (List.mem_cons_of_mem first ht))
    (List.subset_append_right _ _)

theorem field {alias? : Option String} {name : String} {arguments : List Argument}
    {directives : List Directive} {below rest : List Selection}
    (h : s.Expands spreads (.field alias? name arguments directives below :: rest)) :
    s.Expands spreads below := by
  cases h.filled _ List.mem_cons_self with
  | field each => exact h.mono each (List.subset_append_left _ _)

theorem inline {condition? : Option String} {directives : List Directive}
    {below rest : List Selection}
    (h : s.Expands spreads (.inline condition? directives below :: rest)) :
    below ≠ [] ∧ s.Expands spreads below := by
  cases h.filled _ List.mem_cons_self with
  | inline some each => exact ⟨some, h.mono each (List.subset_append_left _ _)⟩

theorem fresh {name : String} {directives : List Directive} {rest : List Selection}
    (h : s.Expands spreads (.spread name directives :: rest)) : name ∉ spreads :=
  Onward.fresh h.onward (h.unravels name List.mem_cons_self name .refl)

theorem spread {name : String} {directives : List Directive} {rest : List Selection}
    {f : FragmentNode}
    (h : s.Expands spreads (.spread name directives :: rest))
    (defined : s.fragment? name = some f) (hf : Selection.FilledSet f.selections) :
    s.Expands (name :: spreads) f.selections := by
  have hname : name ∈ Selection.spreadsOfList (.spread name directives :: rest) :=
    List.mem_cons_self
  exact ⟨hf.2, Onward.spread h.onward defined, fun used hused other hway =>
    h.unravels name hname other (.head ⟨f, defined, hused⟩ hway)⟩

end Expands

/-- A field as it is collected. In a selection that is `whole` it has fields below it if its type
has fields. -/
structure Answers (s : Scope) (whole : Prop) (n : SelectionNode) : Prop where
  returns : s.returnType? n.onType n.name = some n.ofType
  composite : n.children ≠ [] → s.index.hasType n.ofType = true
  complete : whole → s.index.hasType n.ofType = true → n.children ≠ []

theorem Answers.of_false {whole : Prop} {n : SelectionNode} (h : s.Answers whole n) :
    s.Answers False n :=
  ⟨h.returns, h.composite, False.elim⟩

/-- A field returns the type of the one that it meets. -/
theorem answers_of_meet {whole : Prop} {node met : SelectionNode} {out front behind : SelectionSet}
    (found : meet node out = .ok (front, met, behind)) (hnode : s.Answers False node)
    (bare : node.children = []) (hout : ∀ n ∈ out.allFields, s.Answers whole n) :
    (∀ n ∈ SelectionSet.allFields (front ++ behind), s.Answers whole n) ∧
      (∀ n ∈ SelectionSet.allFields met.children, s.Answers whole n) ∧
      s.Answers False met ∧ met.ofType = node.ofType := by
  cases meet_of_ok found with
  | inl hfound =>
    obtain ⟨rfl, hmeets, hname, -⟩ := hfound
    simp only [SelectionSet.allFields_append, SelectionSet.allFields_cons, List.forall_mem_append,
      List.forall_mem_cons] at hout ⊢
    obtain ⟨hfront, hmet, hchildren, hbehind⟩ := hout
    have hreturns := hmet.returns
    rw [hname, (meets_iff.1 hmeets).2, hnode.returns] at hreturns
    exact ⟨⟨hfront, hbehind⟩, hchildren, hmet.of_false, (Option.some.inj hreturns).symm⟩
  | inr hlast =>
    obtain ⟨rfl, rfl, rfl, -⟩ := hlast
    rw [List.append_nil, bare]
    exact ⟨hout, nofun, hnode, rfl⟩

/-- Collecting adds fields, and fields below those of composite types, if nothing is skipped. -/
theorem Collects.answers {whole : Prop} {selections : List Selection}
    {out collected : SelectionSet} (h : s.Collects onType keys spreads selections out collected)
    (hfragments : ∀ f ∈ s.fragments, Selection.FilledSet f.selections)
    (hwhole : whole → s.Expands spreads selections)
    (hout : ∀ n ∈ out.allFields, s.Answers whole n) :
    (out ≠ [] → collected ≠ []) ∧ (whole → selections ≠ [] → collected ≠ []) ∧
      ∀ n ∈ collected.allFields, s.Answers whole n := by
  induction h with
  | nil => exact ⟨id, fun _ hne => absurd rfl hne, hout⟩
  | @field onType keys spreads alias? name _ _ below rest out front behind children collected node
      met made found hbelow _ deeper others =>
    obtain ⟨ofType, hreturns, hcomposite, rfl, -⟩ := made_of_ok made
    obtain ⟨hothers, hchildren, hmet, htype⟩ :=
      answers_of_meet found ⟨hreturns, nofun, False.elim⟩ rfl hout
    dsimp only at htype
    obtain ⟨-, hfilled, hchildren⟩ := deeper (fun hw => (hwhole hw).field) hchildren
    have hfield : s.Answers whole { met with children } := by
      refine ⟨hmet.returns, fun hne => ?_, fun hw hcomp => hfilled hw ?_⟩
      · -- without a selection of its own the field keeps what it had below it
        cases below with
        | nil =>
          cases hbelow
          exact hmet.composite hne
        | cons t below =>
          rw [htype, hcomposite]
          rfl
      · rintro rfl
        rw [htype, hcomposite] at hcomp
        exact nomatch hcomp
    have hgrown : ∀ n ∈ SelectionSet.allFields (front ++ { met with children } :: behind),
        s.Answers whole n := by
      simp only [SelectionSet.allFields_append, SelectionSet.allFields_cons,
        List.forall_mem_append, List.forall_mem_cons] at hothers ⊢
      exact ⟨hothers.1, hfield, hchildren, hothers.2⟩
    obtain ⟨hkept, -, hanswers⟩ := others (fun hw => (hwhole hw).tail) hgrown
    have hne : collected ≠ [] := hkept (by simp)
    exact ⟨fun _ => hne, fun _ _ => hne, hanswers⟩
  | inline _ _ _ deeper others =>
    obtain ⟨hkept, hfilled, hmiddle⟩ := deeper (fun hw => (hwhole hw).inline.2) hout
    obtain ⟨hkept', hfilled', hanswers⟩ := others (fun hw => (hwhole hw).tail) hmiddle
    exact ⟨fun hne => hkept' (hkept hne),
      fun hw _ => hkept' (hfilled hw (hwhole hw).inline.1), hanswers⟩
  | again known _ others =>
    obtain ⟨hkept, -, hanswers⟩ := others (fun hw => (hwhole hw).tail) hout
    exact ⟨hkept, fun hw _ => absurd known (hwhole hw).fresh, hanswers⟩
  | @spread _ _ _ _ _ _ _ _ _ f fresh defined _ _ _ deeper others =>
    have hf := hfragments f (List.mem_of_find?_eq_some defined)
    obtain ⟨hkept, hfilled, hmiddle⟩ := deeper (fun hw => (hwhole hw).spread defined hf) hout
    obtain ⟨hkept', hfilled', hanswers⟩ := others (fun hw => (hwhole hw).tail) hmiddle
    exact ⟨fun hne => hkept' (hkept hne), fun hw _ => hkept' (hfilled hw hf.1), hanswers⟩

end Scope

theorem Document.mem_all_of_select {d : Document} {name? chosen : Option String}
    {node : OperationNode} (h : d.select name? = .ok (chosen, node)) : node ∈ d.operations.all := by
  unfold Document.select at h
  split at h
  · rename_i o _ hoperations
    cases h
    rw [hoperations]
    exact List.mem_singleton.2 rfl
  · rename_i operations name hoperations
    split at h
    · rename_i o hlookup
      cases h
      rw [hoperations]
      obtain ⟨front, behind, hsame, -⟩ := List.lookup_eq_some_iff.1 hlookup
      simp [OperationNodes.all, hsame]
    · cases h
  · rename_i hoperations
    cases h
    rw [hoperations]
    exact List.mem_singleton.2 rfl
  · cases h

/-- The fields of an operation return what the index says, and composite types only have fields
below them. -/
theorem Operation.parse_answers {text : String} {name? : Option String} {x : SchemaIndex}
    {o : Operation} (h : Operation.parse text name? x = .ok o) :
    ∃ fragments, ∀ n ∈ o.selection.allFields,
      Scope.Answers ⟨x, fragments, o.definitions⟩ False n := by
  obtain ⟨d, _, _, hparse, -, hcollects⟩ := Operation.exists_document_of_parse h
  have hfragments := (Document.parse_filled hparse).2
  exact ⟨d.fragments, (hcollects.answers hfragments False.elim nofun).2.2⟩

/-- Only fields of composite types have fields below them. An operation has the ways to which its
text leads, so it is empty, or stops at a field, exactly where the text leads no further. If no
fragment leads back to itself, the text leads to a field everywhere that one is needed. -/
theorem parse_complete {text : String} {name? : Option String} {x : SchemaIndex} {o : Operation}
    (h : Operation.parse text name? x = .ok o) :
    ∃ d chosen node, Document.parse text = .ok d ∧ d.select name? = .ok (chosen, node) ∧
      (∀ n ∈ o.selection.allFields, n.children ≠ [] → x.hasType n.ofType = true) ∧
      (∀ steps, o.selection.Holds steps ↔
        Scope.Leads ⟨x, d.fragments, o.definitions⟩ o.rootType [] node.selections steps) ∧
      (o.selection ≠ [] ↔ ∃ k,
        Scope.Leads ⟨x, d.fragments, o.definitions⟩ o.rootType [] node.selections [k]) ∧
      (∀ way n, o.selection.Descends (way ++ [n]) → (n.children ≠ [] ↔ ∃ k,
        Scope.Leads ⟨x, d.fragments, o.definitions⟩ o.rootType [] node.selections
          ((way ++ [n]).map SelectionNode.step ++ [k]))) ∧
      (Scope.Unravels ⟨x, d.fragments, o.definitions⟩ node.selections →
        o.selection ≠ [] ∧ ∀ n ∈ o.selection.allFields, n.WellFormed x) := by
  obtain ⟨d, chosen, node, hparse, hselect, hcollects⟩ := Operation.exists_document_of_parse h
  obtain ⟨hoperations, hfragments⟩ := Document.parse_filled hparse
  have hnode := hoperations node (Document.mem_all_of_select hselect)
  have hexpands : Scope.Unravels ⟨x, d.fragments, o.definitions⟩ node.selections →
      Scope.Expands ⟨x, d.fragments, o.definitions⟩ [] node.selections :=
    fun hunravels => ⟨hnode.2, nofun, hunravels⟩
  obtain ⟨-, hfilled, hanswers⟩ := hcollects.answers hfragments hexpands nofun
  have hways : ∀ steps, o.selection.Holds steps ↔
      Scope.Leads ⟨x, d.fragments, o.definitions⟩ o.rootType [] node.selections steps := by
    intro steps
    rw [hcollects.holds_iff, SelectionSet.holds_nil, or_iff_right_of_imp]
    rintro rfl
    exact .stop
  refine ⟨d, chosen, node, hparse, hselect, fun n hn => (hanswers n hn).composite, hways,
    ?_, ?_, ?_⟩
  · simp only [← hways]
    exact SelectionSet.ne_nil_iff_holds
  · intro way n hway
    simp only [← hways, SelectionSet.holds_way (Operation.parse_everywhere h) hway,
      SelectionSet.after_concat]
    exact SelectionSet.ne_nil_iff_holds
  · intro hunravels
    exact ⟨hfilled hunravels hnode.1, fun n hn =>
      ⟨(hanswers n hn).composite, (hanswers n hn).complete hunravels⟩⟩

/-! ### A circle of friends -/

def circleSchema : Blueprint :=
  ⟨"Query", none, none, ["accounts"],
    [⟨"Query", [{ graph := "accounts" }], [⟨"me", .named "User" false, []⟩]⟩,
     ⟨"User", [{ graph := "accounts" }],
       [⟨"id", .named "ID" true, []⟩, ⟨"friends", .list (.named "User" false) false, []⟩]⟩]⟩

def circle : Planner := ⟨circleSchema.index.value?.getD ⟨"", none, none, .empty⟩, {}⟩

def circleText : String :=
  "{ me { ...Person } } fragment Person on User { id friends { ...Friend } } " ++
    "fragment Friend on User { id }"

def circleRank (name : String) : Nat := if name = "Person" then 1 else 0

theorem parse_complete_circle : (circle.operationOf circleText).selection ≠ [] ∧
    ∀ n ∈ (circle.operationOf circleText).selection.allFields, n.WellFormed circle.index := by
  have hparse : Operation.parse circleText none circle.index =
      .ok (circle.operationOf circleText) :=
    Planner.operationOf_of_isOk (by decide +kernel)
  obtain ⟨d, _, node, hdocument, -, -, -, -, -, hcomplete⟩ := parse_complete hparse
  refine hcomplete (Scope.unravels_of_rank circleRank ?_ _)
  have hranks : (Document.parse circleText).toOption.all (fun d => d.fragments.all fun f =>
      (Selection.spreadsOfList f.selections).all fun used =>
        circleRank used < circleRank f.name) = true := by
    decide +kernel
  rw [hdocument] at hranks
  simpa [Except.toOption] using hranks

/-- A fragment that leads back to itself leaves a field without a selection. -/
theorem circle_friends_bare : ∃ o, Operation.parse
      "{ me { ...Person } } fragment Person on User { friends { ...Person } }" none circle.index =
        .ok o ∧
    ∃ n ∈ o.selection.allFields, circle.index.hasType n.ofType = true ∧ n.children = [] := by
  refine ⟨_, Planner.operationOf_of_isOk (by decide +kernel), ?_⟩
  decide +kernel

end FederatedQuery
