import FederatedQuery.Proofs.Operation.Inlining
import FederatedQuery.Proofs.Operation.Rewriting

/-!
Merging. Selections that stand a second time right behind themselves add nothing, and a field can be
written once for every part of its selection. Both hold at every place of a document, for a field
that was collected is met again by its copies, and what is below it was collected as well.
-/
namespace FederatedQuery
open Relation

namespace Selection

/-- Another way to write selections, at one place among them or below them: a part twice in place of
once, or two copies of a field, each with a part of its selection. -/
inductive Restates : List Selection → List Selection → Prop
  | twice {part : List Selection} (some : part ≠ []) : Restates part (part ++ part)
  | split {alias? : Option String} {name : String} {arguments : List Argument}
      {directives directives' directives'' : List Directive} (first second : List Selection)
      (some : first ≠ []) (more : second ≠ []) :
      Restates [.field alias? name arguments directives (first ++ second)]
        [.field alias? name arguments directives' first,
          .field alias? name arguments directives'' second]
  | among {part others : List Selection} (front behind : List Selection)
      (h : Restates part others) : Restates (front ++ part ++ behind) (front ++ others ++ behind)
  | field {alias? : Option String} {name : String} {arguments : List Argument}
      {directives : List Directive} {below others : List Selection} (h : Restates below others) :
      Restates [.field alias? name arguments directives below]
        [.field alias? name arguments directives others]
  | inline {condition? : Option String} {directives : List Directive}
      {below others : List Selection} (h : Restates below others) :
      Restates [.inline condition? directives below] [.inline condition? directives others]

end Selection

/-! ### Growing selections -/

namespace SelectionSet

inductive Grows : SelectionSet → SelectionSet → Prop
  | nil (s : SelectionSet) : Grows [] s
  | cons {n : SelectionNode} {children s t : SelectionSet} (below : Grows n.children children)
      (rest : Grows s t) : Grows (n :: s) ({ n with children } :: t)

namespace Grows
variable {s t u : SelectionSet}

theorem cons_self {n : SelectionNode} (below : Grows n.children n.children) (rest : Grows s t) :
    Grows (n :: s) (n :: t) := by
  have hcons := Grows.cons below rest
  rwa [SelectionNode.withChildren_eq rfl] at hcons

theorem of_forall (h : ∀ n ∈ s, Grows n.children n.children) : Grows s s := by
  induction s with
  | nil => exact .nil []
  | cons n s ih =>
    rw [List.forall_mem_cons] at h
    exact cons_self h.1 (ih h.2)

theorem refl (s : SelectionSet) : Grows s s := by
  have hbelow : ∀ n : SelectionNode, Grows n.children n.children := by
    intro n
    induction n using SelectionNode.ofChildren with
    | step n ih => exact of_forall ih
  exact of_forall fun n _ => hbelow n

theorem trans (h : Grows s t) (h' : Grows t u) : Grows s u := by
  induction h generalizing u with
  | nil t => exact .nil u
  | cons _ _ below rest =>
    cases h' with
    | cons below' rest' => exact .cons (below below') (rest rest')

theorem append_left (front : SelectionSet) (h : Grows s t) : Grows (front ++ s) (front ++ t) := by
  induction front with
  | nil => exact h
  | cons n front ih => exact cons_self (refl n.children) ih

end Grows
end SelectionSet

namespace Scope
variable {s : Scope} {onType : String} {keys spreads : List String}
  {selections : List Selection} {node met : SelectionNode}
  {out collected front behind children : SelectionSet}

/-- A field that is merged into the selection is met again there. -/
theorem meet_again (found : meet node out = .ok (front, met, behind)) (children : SelectionSet) :
    meet node (front ++ { met with children } :: behind) =
      .ok (front, { met with children }, behind) := by
  induction out generalizing front with
  | nil =>
    cases found
    refine meet_cons_eq_ok.2 (.inl ⟨meets_iff.2 ⟨rfl, rfl⟩, ⟨rfl, ?_⟩, rfl⟩)
    simp [Argument.sameList]
  | cons m out ih =>
    cases meet_cons_eq_ok.1 found with
    | inl hfirst =>
      obtain ⟨hmeets, hsame, heq⟩ := hfirst
      cases heq
      exact meet_cons_eq_ok.2 (.inl ⟨hmeets, hsame, rfl⟩)
    | inr hlater =>
      obtain ⟨hmeets, front', met', behind', hrest, heq⟩ := hlater
      cases heq
      exact meet_cons_eq_ok.2 (.inr ⟨hmeets, front', _, _, ih hrest, rfl⟩)

def Stands (node : SelectionNode) (out : SelectionSet) (met : SelectionNode) : Prop :=
  ∃ front behind, meet node out = .ok (front, met, behind) ∧ out = front ++ met :: behind

/-- In a selection that has grown it still stands, with more below it. -/
theorem Stands.grown (h : Stands node out met) (hgrows : out.Grows collected) :
    ∃ children, SelectionSet.Grows met.children children ∧
      Stands node collected { met with children } := by
  obtain ⟨front, behind, found, hout⟩ := h
  induction hgrows generalizing front with
  | nil => exact absurd hout (by simp)
  | @cons n children rest more below _ _ ih =>
    cases meet_cons_eq_ok.1 found with
    | inl hfirst =>
      obtain ⟨hmeets, hsame, heq⟩ := hfirst
      cases heq
      exact ⟨children, below, [], more, meet_cons_eq_ok.2 (.inl ⟨hmeets, hsame, rfl⟩), rfl⟩
    | inr hlater =>
      obtain ⟨hmeets, front', met', behind', hrest, heq⟩ := hlater
      cases heq
      have hout := (List.cons.inj hout).2
      obtain ⟨grown, hbelow, front', behind', hfound, rfl⟩ := ih front' hrest hout
      exact ⟨grown, hbelow, { n with children } :: front', behind',
        meet_cons_eq_ok.2 (.inr ⟨hmeets, front', _, _, hfound, rfl⟩), rfl⟩

theorem grows_of_meet (found : meet node out = .ok (front, met, behind))
    (hchildren : SelectionSet.Grows met.children children) :
    out.Grows (front ++ { met with children } :: behind) := by
  cases meet_of_ok found with
  | inl hfound =>
    obtain ⟨rfl, -⟩ := hfound
    exact .append_left front (.cons hchildren (.refl behind))
  | inr hlast =>
    obtain ⟨rfl, rfl, rfl, -⟩ := hlast
    have hmore := SelectionSet.Grows.append_left front (.nil [{ met with children }])
    rwa [List.append_nil] at hmore

/-! ### Repeated selections -/

inductive Covers (s : Scope) : (onType : String) → (keys spreads : List String) →
    List Selection → (out : SelectionSet) → Prop
  | nil (onType : String) (keys spreads : List String) (out : SelectionSet) :
      Covers s onType keys spreads [] out
  | field {onType : String} {keys spreads : List String} {alias? : Option String} {name : String}
      {arguments : List Argument} {directives : List Directive} {below rest : List Selection}
      {out : SelectionSet} {node met : SelectionNode}
      (made : s.fieldNode onType (keys ++ [alias?.getD name]) alias? name arguments
        (!below.isEmpty) = .ok node)
      (stands : Stands node out met)
      (deeper : Covers s node.ofType (keys ++ [alias?.getD name]) spreads below met.children)
      (others : Covers s onType keys spreads rest out) :
      Covers s onType keys spreads (.field alias? name arguments directives below :: rest) out
  | inline {onType : String} {keys spreads : List String} {condition? : Option String}
      {directives : List Directive} {below rest : List Selection} {out : SelectionSet}
      (checked : s.checkType (condition?.getD onType) keys = .ok ())
      (deeper : Covers s (condition?.getD onType) keys spreads below out)
      (others : Covers s onType keys spreads rest out) :
      Covers s onType keys spreads (.inline condition? directives below :: rest) out
  | again {onType : String} {keys spreads : List String} {name : String}
      {directives : List Directive} {rest : List Selection} {out : SelectionSet}
      (known : name ∈ spreads) (others : Covers s onType keys spreads rest out) :
      Covers s onType keys spreads (.spread name directives :: rest) out
  | spread {onType : String} {keys spreads : List String} {name : String}
      {directives : List Directive} {rest : List Selection} {out : SelectionSet} {f : FragmentNode}
      (fresh : name ∉ spreads) (defined : s.fragment? name = some f)
      (checked : s.checkType f.condition keys = .ok ())
      (deeper : Covers s f.condition keys (name :: spreads) f.selections out)
      (others : Covers s onType keys spreads rest out) :
      Covers s onType keys spreads (.spread name directives :: rest) out

theorem Covers.grown (h : s.Covers onType keys spreads selections out)
    (hgrows : out.Grows collected) : s.Covers onType keys spreads selections collected := by
  induction h generalizing collected with
  | nil => exact .nil _ _ _ _
  | field made stands _ _ deeper others =>
    obtain ⟨children, hchildren, hstands⟩ := stands.grown hgrows
    exact .field made hstands (deeper hchildren) (others hgrows)
  | inline checked _ _ deeper others => exact .inline checked (deeper hgrows) (others hgrows)
  | again known _ others => exact .again known (others hgrows)
  | spread fresh defined checked _ _ deeper others =>
    exact .spread fresh defined checked (deeper hgrows) (others hgrows)

/-- Selections add nothing to what they are covered by. -/
theorem Covers.collects (h : s.Covers onType keys spreads selections out) :
    s.Collects onType keys spreads selections out out := by
  induction h with
  | nil => exact .nil _ _ _ _
  | field made stands _ _ deeper others =>
    obtain ⟨front, behind, found, rfl⟩ := stands
    refine .field made found deeper ?_
    rwa [SelectionNode.withChildren_eq rfl]
  | inline checked _ _ deeper others => exact .inline checked deeper others
  | again known _ others => exact .again known others
  | spread fresh defined checked _ _ deeper others =>
    exact .spread fresh defined checked deeper others

theorem Collects.grows (h : s.Collects onType keys spreads selections out collected) :
    out.Grows collected := by
  induction h with
  | nil => exact .refl _
  | field _ found _ _ deeper others => exact (grows_of_meet found deeper).trans others
  | inline _ _ _ deeper others => exact deeper.trans others
  | again _ _ others => exact others
  | spread _ _ _ _ _ deeper others => exact deeper.trans others

/-- What was collected from selections covers them. -/
theorem Collects.covers (h : s.Collects onType keys spreads selections out collected) :
    s.Covers onType keys spreads selections collected := by
  induction h with
  | nil => exact .nil _ _ _ _
  | @field _ _ _ _ _ _ _ _ _ _ front behind children _ node met made found _ hothers deeper
      others =>
    have hstands : Stands node (front ++ { met with children } :: behind) { met with children } :=
      ⟨front, behind, meet_again found children, rfl⟩
    obtain ⟨grown, hchildren, hstands⟩ := hstands.grown hothers.grows
    exact .field made hstands (deeper.grown hchildren) others
  | inline checked _ hothers deeper others =>
    exact .inline checked (deeper.grown hothers.grows) others
  | again known _ others => exact .again known others
  | spread fresh defined checked _ hothers deeper others =>
    exact .spread fresh defined checked (deeper.grown hothers.grows) others

/-! ### Interchangeable selections -/

structure Interchangeable (s : Scope) (first second : List Selection) : Prop where
  empty : first = [] ↔ second = []
  collect : ∀ onType keys spreads out, s.collect onType keys spreads first out =
    s.collect onType keys spreads second out

namespace Interchangeable
variable {first second third part others : List Selection}

theorem refl (s : Scope) (selections : List Selection) : s.Interchangeable selections selections :=
  ⟨.rfl, fun _ _ _ _ => rfl⟩

theorem trans (h : s.Interchangeable first second) (h' : s.Interchangeable second third) :
    s.Interchangeable first third :=
  ⟨h.empty.trans h'.empty, fun onType keys spreads out =>
    (h.collect onType keys spreads out).trans (h'.collect onType keys spreads out)⟩

theorem among (h : s.Interchangeable part others) (front behind : List Selection) :
    s.Interchangeable (front ++ part ++ behind) (front ++ others ++ behind) := by
  constructor
  · simp [h.empty]
  · intro onType keys spreads out
    have hpart := funext (h.collect onType keys spreads)
    rw [collect_append, collect_append, collect_append, collect_append, hpart]

theorem field (h : s.Interchangeable part others) (alias? : Option String) (name : String)
    (arguments : List Argument) (directives : List Directive) :
    s.Interchangeable [.field alias? name arguments directives part]
      [.field alias? name arguments directives others] := by
  have hempty : part.isEmpty = others.isEmpty := by
    rw [Bool.eq_iff_iff, List.isEmpty_iff, List.isEmpty_iff]
    exact h.empty
  refine ⟨by simp, fun onType keys spreads out => ?_⟩
  simp only [Scope.collect, hempty, h.collect]

theorem inline (h : s.Interchangeable part others) (condition? : Option String)
    (directives : List Directive) : s.Interchangeable [.inline condition? directives part]
      [.inline condition? directives others] := by
  refine ⟨by simp, fun onType keys spreads out => ?_⟩
  simp only [Scope.collect, h.collect]

theorem twice (s : Scope) (part : List Selection) : s.Interchangeable part (part ++ part) := by
  constructor
  · simp
  · intro onType keys spreads out
    rw [collect_append]
    cases hcollect : s.collect onType keys spreads part out with
    | error fault => rfl
    | ok collected => exact (collects_of_ok hcollect).covers.collects.collect_eq.symm

/-- The second copy of a field passes the checks of the first and meets the field they share. -/
theorem split (s : Scope) (hfirst : first ≠ []) (hsecond : second ≠ []) (alias? : Option String)
    (name : String) (arguments : List Argument) (directives directives' directives'' :
      List Directive) :
    s.Interchangeable [.field alias? name arguments directives (first ++ second)]
      [.field alias? name arguments directives' first,
        .field alias? name arguments directives'' second] := by
  refine ⟨by simp, fun onType keys spreads out => ?_⟩
  have hempty : ∀ below : List Selection, below ≠ [] → (!below.isEmpty) = true := by simp
  simp only [Scope.collect, hempty _ hfirst, hempty _ hsecond,
    hempty _ (List.append_ne_nil_of_left_ne_nil hfirst second), collect_append, bind_assoc]
  cases hmade : s.fieldNode onType (keys ++ [alias?.getD name]) alias? name arguments true with
  | error fault => rfl
  | ok node =>
    simp only [bind, Except.bind]
    cases hmeet : meet node out with
    | error fault => rfl
    | ok place =>
      obtain ⟨front, met, behind⟩ := place
      dsimp only
      cases s.collect node.ofType (keys ++ [alias?.getD name]) spreads first met.children with
      | error fault => rfl
      | ok children => simp only [meet_again hmeet children]

/-- What is written in another way is collected alike. -/
theorem of_restates (h : Selection.Restates part others) : s.Interchangeable part others := by
  induction h with
  | twice => exact twice s _
  | split _ _ some more => exact split s some more _ _ _ _ _ _
  | among front behind _ ih => exact ih.among front behind
  | field _ ih => exact ih.field _ _ _ _
  | inline _ ih => exact ih.inline _ _

theorem of_restated (h : ReflTransGen Selection.Restates part others) :
    s.Interchangeable part others := by
  induction h with
  | refl => exact refl s part
  | tail _ hlast ih => exact ih.trans (of_restates hlast)

end Interchangeable

/-- Fragments whose bodies are interchangeable are interchangeable. -/
theorem collect_of_fragments {fragments : List FragmentNode}
    (hundefined : ∀ name, s.fragment? name = none →
      Scope.fragment? { s with fragments } name = none)
    (hdefined : ∀ name f, s.fragment? name = some f →
      ∃ g, Scope.fragment? { s with fragments } name = some g ∧ g.condition = f.condition ∧
        Interchangeable { s with fragments } f.selections g.selections) :
    Scope.collect { s with fragments } onType keys spreads selections out =
      s.collect onType keys spreads selections out := by
  fun_induction Scope.collect s onType keys spreads selections out
  case case1 => rw [collect]
  case case2 deeper others =>
    rw [collect]
    refine bind_congr fun node => bind_congr fun place => ?_
    obtain ⟨front, met, behind⟩ := place
    dsimp only
    rw [deeper node met]
    exact bind_congr fun children => others front met behind children
  case case3 deeper others =>
    rw [collect]
    refine bind_congr fun _ => ?_
    rw [deeper]
    exact bind_congr others
  case case4 known others => rw [collect_known known, others]
  case case5 fresh hnone => exact collect_undefined fresh (hundefined _ hnone)
  case case6 fresh f defined deeper others =>
    obtain ⟨g, hg, hcondition, hbody⟩ := hdefined _ f defined
    rw [collect_spread fresh hg, hcondition]
    refine bind_congr fun _ => ?_
    rw [← hbody.collect, deeper]
    exact bind_congr others

end Scope

namespace Document
variable {d e : Document}

theorem operation_of_restated (h : d.Rewritten (ReflTransGen Selection.Restates) e)
    (name? : Option String) (x : SchemaIndex) : e.operation name? x = d.operation name? x := by
  cases h.operation name? x with
  | inl hfault =>
    obtain ⟨fault, hd, he⟩ := hfault
    rw [hd, he]
  | inr hcollect =>
    obtain ⟨kind, chosen, root, definitions, o, p, -, -, hselections, hd, he⟩ := hcollect
    have hsame := (Scope.Interchangeable.of_restated (s := ⟨x, e.fragments, definitions⟩)
      hselections).collect root [] [] []
    have hfragments : ∀ name f, Scope.fragment? ⟨x, d.fragments, definitions⟩ name = some f →
        ∃ g, Scope.fragment? ⟨x, e.fragments, definitions⟩ name = some g ∧
          g.condition = f.condition ∧
          Scope.Interchangeable ⟨x, e.fragments, definitions⟩ f.selections g.selections := by
      intro name f hf
      obtain ⟨g, -, hg, hsame⟩ := defined_of_rewritten h.fragments hf
      exact ⟨g, hg, hsame.condition, .of_restated hsame.selections⟩
    rw [hd, he, ← hsame, Scope.collect_of_fragments (s := ⟨x, d.fragments, definitions⟩)
      (fun name hnone => undefined_of_rewritten h.fragments hnone) hfragments]

/-- It does not matter how often selections are written, nor over how many copies of a field its
selection is spread, wherever this is done in operations and fragments. The operation stays the
same, or the fault with the keys that lead to it. -/
theorem operation_restated (h : d.Rewritten (ReflTransGen Selection.Restates) e)
    (name? : Option String) (x : SchemaIndex) : e.operation name? x = d.operation name? x ∧
      ∀ text text', Document.parse text = .ok d → Document.parse text' = .ok e →
        Operation.parse text' name? x = Operation.parse text name? x := by
  have hsame := operation_of_restated h name? x
  refine ⟨hsame, fun text text' hparse hparse' => ?_⟩
  unfold Operation.parse
  simp only [hparse, hparse', hsame]

end Document

def briefText : String :=
  "{ me { id friends { id ...Person } } } fragment Person on User { friends { ...Person id } }"

def lengthyText : String :=
  "{ me { id } me { friends { id ...Person id ...Person } } } " ++
    "fragment Person on User { friends { ...Person ...Person } friends { id } }"

def Selection.plain (name : String) (below : List Selection) : Selection :=
  .field none name [] [] below

def brief : Document :=
  ⟨.anonymous ⟨.query, [], [], [.plain "me" [.plain "id" [],
      .plain "friends" [.plain "id" [], .spread "Person" []]]]⟩,
    [⟨"Person", "User", [], [.plain "friends" [.spread "Person" [], .plain "id" []]]⟩]⟩

def lengthy : Document :=
  ⟨.anonymous ⟨.query, [], [], [.plain "me" [.plain "id" []],
      .plain "me" [.plain "friends" [.plain "id" [], .spread "Person" [], .plain "id" [],
        .spread "Person" []]]]⟩,
    [⟨"Person", "User", [], [.plain "friends" [.spread "Person" [], .spread "Person" []],
      .plain "friends" [.plain "id" []]]⟩]⟩

theorem brief_rewritten : brief.Rewritten (ReflTransGen Selection.Restates) lengthy := by
  have hme : Selection.Restates
      [.plain "me" [.plain "id" [], .plain "friends" [.plain "id" [], .spread "Person" []]]]
      [.plain "me" [.plain "id" []],
        .plain "me" [.plain "friends" [.plain "id" [], .spread "Person" []]]] :=
    .split [.plain "id" []] [.plain "friends" [.plain "id" [], .spread "Person" []]]
      (List.cons_ne_nil _ _) (List.cons_ne_nil _ _)
  have hfriends : Selection.Restates
      [.plain "me" [.plain "friends" [.plain "id" [], .spread "Person" []]]]
      [.plain "me" [.plain "friends" [.plain "id" [], .spread "Person" [], .plain "id" [],
        .spread "Person" []]]] :=
    .field (.field (.twice (List.cons_ne_nil _ _)))
  have hbody : Selection.Restates
      [.plain "friends" [.spread "Person" [], .plain "id" []]]
      [.plain "friends" [.spread "Person" []], .plain "friends" [.plain "id" []]] :=
    .split [.spread "Person" []] [.plain "id" []] (List.cons_ne_nil _ _) (List.cons_ne_nil _ _)
  have hspread : Selection.Restates [.plain "friends" [.spread "Person" []]]
      [.plain "friends" [.spread "Person" [], .spread "Person" []]] :=
    .field (.twice (List.cons_ne_nil _ _))
  refine ⟨.anonymous ⟨rfl, ?_⟩, .cons ⟨rfl, ?_⟩ .nil⟩
  · exact .tail (.single hme) (.among [.plain "me" [.plain "id" []]] [] hfriends)
  · exact .tail (.single hbody) (.among [] [.plain "friends" [.plain "id" []]] hspread)

/-- The two copies of `me` share its selection, in one of them the friends are selected twice over,
and so it is with the friends of a `Person`, which leads back to itself. -/
theorem operation_restated_lengthy :
    brief.Rewritten (ReflTransGen Selection.Restates) lengthy ∧
    Document.parse briefText = .ok brief ∧ Document.parse lengthyText = .ok lengthy ∧
    Operation.parse lengthyText none circle.index = Operation.parse briefText none circle.index ∧
    (Operation.parse briefText none circle.index).isOk = true := by
  have hbrief : Document.parse briefText = .ok brief := by decide +kernel
  have hlengthy : Document.parse lengthyText = .ok lengthy := by decide +kernel
  have hsame := Document.operation_restated brief_rewritten none circle.index
  exact ⟨brief_rewritten, hbrief, hlengthy, hsame.2 briefText lengthyText hbrief hlengthy,
    by decide +kernel⟩

end FederatedQuery
