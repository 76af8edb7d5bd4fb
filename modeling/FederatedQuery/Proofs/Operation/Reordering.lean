import FederatedQuery.Proofs.Operation.Inlining
import FederatedQuery.Proofs.Operation.Recollect
import FederatedQuery.Proofs.Operation.Rewriting

/-!
The order of arguments. Two documents that differ in it alone come to the same operation up to that
order, if both come to one. But fields of one response key are merged only if their arguments stand
in the same order, so one document can have a conflict where the other has none.
-/
namespace FederatedQuery

inductive Selection.Reordered : List Selection → List Selection → Prop
  | nil : Reordered [] []
  | field {alias? : Option String} {name : String} {arguments arguments' : List Argument}
      {directives : List Directive} {below below' rest rest' : List Selection}
      (perm : arguments.Perm arguments') (deeper : Reordered below below')
      (others : Reordered rest rest') :
      Reordered (.field alias? name arguments directives below :: rest)
        (.field alias? name arguments' directives below' :: rest')
  | inline {condition? : Option String} {directives : List Directive}
      {below below' rest rest' : List Selection} (deeper : Reordered below below')
      (others : Reordered rest rest') :
      Reordered (.inline condition? directives below :: rest)
        (.inline condition? directives below' :: rest')
  | spread {name : String} {directives : List Directive} {rest rest' : List Selection}
      (others : Reordered rest rest') :
      Reordered (.spread name directives :: rest) (.spread name directives :: rest')

namespace Selection.Reordered
variable {selections others : List Selection}

theorem symm (h : Reordered selections others) : Reordered others selections := by
  induction h with
  | nil => exact .nil
  | field perm _ _ deeper others => exact .field perm.symm deeper others
  | inline _ _ deeper others => exact .inline deeper others
  | spread _ others => exact .spread others

theorem isEmpty_eq (h : Reordered selections others) : others.isEmpty = selections.isEmpty := by
  cases h <;> rfl

end Selection.Reordered

inductive SelectionSet.Reordered : SelectionSet → SelectionSet → Prop
  | nil : Reordered [] []
  | cons {n : SelectionNode} {arguments : List Argument} {children s t : SelectionSet}
      (perm : n.arguments.Perm arguments) (below : Reordered n.children children)
      (rest : Reordered s t) : Reordered (n :: s) ({ n with arguments, children } :: t)

structure Operation.Reordered (o p : Operation) : Prop where
  same : p = { o with selection := p.selection }
  selection : o.selection.Reordered p.selection

/-! ### Fields as they are written -/

structure WrittenField where
  key : String
  name : String
  arguments : List Argument
deriving DecidableEq

/-- Two fields of one response key give the same values to the same names, but not in the same
order. -/
def WrittenField.Swaps (f g : WrittenField) : Prop :=
  f.key = g.key ∧ f.name = g.name ∧ f.arguments.Perm g.arguments ∧ f.arguments ≠ g.arguments

instance (f g : WrittenField) : Decidable (f.Swaps g) :=
  inferInstanceAs (Decidable (_ ∧ _ ∧ _ ∧ _))

namespace Selection

mutual
def fields : Selection → List WrittenField
  | .field alias? name arguments _ below =>
    ⟨alias?.getD name, name, (arguments.map Argument.merged).map Argument.canonical⟩ ::
      fieldsOfList below
  | .inline _ _ below => fieldsOfList below
  | .spread _ _ => []

def fieldsOfList : List Selection → List WrittenField
  | [] => []
  | t :: rest => t.fields ++ fieldsOfList rest
end

end Selection

namespace Document

def fields (d : Document) : List WrittenField :=
  d.operations.all.flatMap (fun o => Selection.fieldsOfList o.selections) ++
    d.fragments.flatMap fun f => Selection.fieldsOfList f.selections

def Aligned (d : Document) : Prop := ∀ f ∈ d.fields, ∀ g ∈ d.fields, ¬f.Swaps g

instance (d : Document) : Decidable d.Aligned :=
  inferInstanceAs (Decidable (∀ f ∈ d.fields, ∀ g ∈ d.fields, ¬f.Swaps g))

end Document

def InvalidQuery.Swapped (written : List WrittenField) (e : InvalidQuery) : Prop :=
  ∃ f ∈ written, ∃ g ∈ written, f.Swaps g ∧ e.fault = .conflict f.key

/-! ### Two collections -/

def Settles {ε α : Type} (Q : ε → Prop) (P : α → Prop) : Except ε α → Prop
  | .ok a => P a
  | .error e => Q e

theorem Settles.bind {ε α β : Type} {Q : ε → Prop} {P : α → Prop} {P' : β → Prop}
    {r : Except ε α} {f : α → Except ε β} (h : Settles Q P r)
    (hf : ∀ a, P a → Settles Q P' (f a)) : Settles Q P' (r >>= f) := by
  cases r with
  | ok a => exact hf a h
  | error e => exact h

def SelectionNode.asWritten (n : SelectionNode) : WrittenField :=
  ⟨n.responseKey, n.name, n.arguments.map Argument.canonical⟩

inductive SelectionSet.Follows (written : List WrittenField) : SelectionSet → SelectionSet → Prop
  | nil : Follows written [] []
  | cons {n : SelectionNode} {arguments : List Argument} {children s t : SelectionSet}
      (perm : n.arguments.Perm arguments)
      (known : ({ n with arguments } : SelectionNode).asWritten ∈ written)
      (below : Follows written n.children children) (rest : Follows written s t) :
      Follows written (n :: s) ({ n with arguments, children } :: t)

theorem SelectionSet.Follows.reordered {written : List WrittenField} {s t : SelectionSet}
    (h : s.Follows written t) : s.Reordered t := by
  induction h with
  | nil => exact .nil
  | cons perm _ _ _ below rest => exact .cons perm below rest

namespace Scope
variable {s : Scope} {written : List WrittenField}

structure Corresponds (written : List WrittenField)
    (place place' : List SelectionNode × SelectionNode × List SelectionNode) : Prop where
  below : SelectionSet.Follows written place.2.1.children place'.2.1.children
  fill : ∀ children children', SelectionSet.Follows written children children' →
    SelectionSet.Follows written
      (place.1 ++ { place.2.1 with children := children } :: place.2.2)
      (place'.1 ++ { place'.2.1 with children := children' } :: place'.2.2)

/-- A field that is merged in one selection is merged in the other one, unless it swaps arguments
there. -/
theorem meet_follows {out out' : SelectionSet} (hout : out.Follows written out')
    {node : SelectionNode} {place : List SelectionNode × SelectionNode × List SelectionNode}
    (found : meet node out = .ok place) (bare : node.children = []) {arguments : List Argument}
    (perm : node.arguments.Perm arguments)
    (known : ({ node with arguments } : SelectionNode).asWritten ∈ written) :
    Settles (InvalidQuery.Swapped written) (Corresponds written place)
      (meet { node with arguments } out') := by
  induction hout generalizing place with
  | nil =>
    cases found
    refine ⟨?_, fun children children' hchildren => .cons perm known hchildren .nil⟩
    rw [bare]
    exact .nil
  | @cons n arguments' children rest rest' perm' known' below hrest _ ih =>
    have hsame : meets { n with arguments := arguments', children } { node with arguments } =
        meets n node := rfl
    rw [meet, hsame]
    cases meet_cons_eq_ok.1 found with
    | inl hfirst =>
      obtain ⟨hmeets, ⟨hname, hmerge⟩, rfl⟩ := hfirst
      have hkey : n.responseKey = node.responseKey := (meets_iff.1 hmeets).1
      have hvalues : n.arguments.map Argument.canonical =
          node.arguments.map Argument.canonical := by
        simpa [Argument.sameList] using hmerge
      have hperm : (arguments'.map Argument.canonical).Perm (arguments.map Argument.canonical) :=
        (perm'.symm.map _).trans (hvalues ▸ perm.map _)
      rw [if_pos hmeets]
      split
      · exact ⟨below, fun children children' hchildren => .cons perm' known' hchildren hrest⟩
      · rename_i hconflict
        refine ⟨_, known', _, known, ⟨hkey, hname, hperm, ?_⟩, congrArg _ hkey.symm⟩
        simpa [Argument.sameList, hname, SelectionNode.asWritten] using hconflict
    | inr hlater =>
      obtain ⟨hmeets, front, met, behind, hfound, rfl⟩ := hlater
      rw [if_neg (Bool.eq_false_iff.1 hmeets)]
      refine (ih hfound).bind fun place' hplace => ?_
      exact ⟨hplace.below, fun children children' hchildren =>
        .cons perm' known' below (hplace.fill children children' hchildren)⟩

/-- A field with reordered arguments is made if the field is. -/
theorem fieldNode_reordered {onType name : String} {keys : List String} {alias? : Option String}
    {arguments arguments' : List Argument} {hasSelection : Bool} {node : SelectionNode}
    (made : s.fieldNode onType keys alias? name arguments hasSelection = .ok node)
    (perm : arguments.Perm arguments') (fragments : List FragmentNode) :
    node.arguments.Perm (arguments'.map Argument.merged) ∧
      Scope.fieldNode { s with fragments } onType keys alias? name arguments' hasSelection =
        .ok { node with arguments := arguments'.map Argument.merged } := by
  obtain ⟨ofType, hreturns, hcomposite, rfl, hdefined⟩ := made_of_ok made
  have hmerged := perm.map Argument.merged
  refine ⟨hmerged, fieldNode_eq hreturns hcomposite fun used hused => hdefined used ?_⟩
  exact (hmerged.flatMap_right Argument.references).mem_iff.2 hused

def FragmentsReordered (s t : Scope) (written : List WrittenField) : Prop :=
  ∀ name f, s.fragment? name = some f → ∃ g, t.fragment? name = some g ∧
    g.condition = f.condition ∧ Selection.Reordered f.selections g.selections ∧
      Selection.fieldsOfList g.selections ⊆ written

/-- Where selections are collected, those with reordered arguments are collected alike, or there are
fields that swap arguments. -/
theorem Collects.follows {onType : String} {keys spreads : List String}
    {selections others : List Selection} {out out' collected : SelectionSet}
    (h : s.Collects onType keys spreads selections out collected) {fragments : List FragmentNode}
    (hfragments : s.FragmentsReordered { s with fragments } written)
    (hothers : Selection.Reordered selections others)
    (hwritten : Selection.fieldsOfList others ⊆ written) (hout : out.Follows written out') :
    Settles (InvalidQuery.Swapped written) (collected.Follows written)
      (Scope.collect { s with fragments } onType keys spreads others out') := by
  induction h generalizing others out' with
  | nil =>
    cases hothers
    rw [collect]
    exact hout
  | @field _ keys _ alias? _ _ _ _ _ _ _ _ _ _ node _ made found _ _ deeper' others' =>
    cases hothers with
    | @field _ _ _ arguments' _ _ _ _ _ perm deeper others =>
      rw [Selection.fieldsOfList, Selection.fields, List.cons_append, List.cons_subset,
        List.append_subset] at hwritten
      obtain ⟨hknown, hbelow, hrest⟩ := hwritten
      obtain ⟨hperm, hmade⟩ := fieldNode_reordered made perm fragments
      obtain ⟨_, -, -, rfl, -⟩ := made_of_ok made
      rw [collect, deeper.isEmpty_eq, hmade]
      refine (meet_follows hout found rfl hperm hknown).bind fun place' hplace => ?_
      refine (deeper' deeper hbelow hplace.below).bind fun children' hchildren => ?_
      exact others' others hrest (hplace.fill _ children' hchildren)
  | inline checked _ _ deeper' others' =>
    cases hothers with
    | inline deeper others =>
      rw [Selection.fieldsOfList, Selection.fields, List.append_subset] at hwritten
      rw [collect]
      have hchecked : Scope.checkType { s with fragments } _ _ = .ok () := checked
      rw [hchecked]
      exact (deeper' deeper hwritten.1 hout).bind fun middle' hmiddle =>
        others' others hwritten.2 hmiddle
  | again known _ others' =>
    cases hothers with
    | spread others =>
      rw [collect_known known]
      exact others' others hwritten hout
  | @spread _ _ _ name _ _ _ _ _ f fresh defined checked _ _ deeper' others' =>
    cases hothers with
    | spread others =>
      obtain ⟨g, hg, hcondition, hbody, hknown⟩ := hfragments name f defined
      have hchecked : Scope.checkType { s with fragments } g.condition _ = .ok () :=
        hcondition ▸ checked
      rw [collect_spread fresh hg, hchecked, hcondition]
      exact (deeper' hbody hknown hout).bind fun middle' hmiddle =>
        others' others hwritten hmiddle

end Scope

namespace Document
variable {d e : Document} {name? : Option String} {x : SchemaIndex}

/-- Where one document comes to an operation, the other one comes to the same up to the order of
arguments, or it has fields that swap them. -/
theorem operation_reordered (h : d.Rewritten Selection.Reordered e) {o : Operation}
    (hd : d.operation name? x = .ok o) :
    Settles (InvalidQuery.Swapped e.fields) o.Reordered (e.operation name? x) := by
  cases h.operation name? x with
  | inl hfault =>
    obtain ⟨fault, hfault, -⟩ := hfault
    exact nomatch hd.symm.trans hfault
  | inr hcollect =>
    obtain ⟨kind, chosen, root, definitions, source, source', -, hmem, hselections, hsource, he⟩ :=
      hcollect
    rw [hsource] at hd
    rw [he]
    have hwritten : Selection.fieldsOfList source'.selections ⊆ e.fields := by
      intro f hf
      exact List.mem_append_left _ (List.mem_flatMap.2 ⟨source', hmem, hf⟩)
    have hfragments : Scope.FragmentsReordered ⟨x, d.fragments, definitions⟩
        ⟨x, e.fragments, definitions⟩ e.fields := by
      intro name f hf
      obtain ⟨g, hmem, hg, hsame⟩ := defined_of_rewritten h.fragments hf
      refine ⟨g, hg, hsame.condition, hsame.selections, fun f hf => ?_⟩
      exact List.mem_append_right _ (List.mem_flatMap.2 ⟨g, hmem, hf⟩)
    cases hcollected : Scope.collect ⟨x, d.fragments, definitions⟩ root [] [] source.selections []
      with
    | error fault =>
      rw [hcollected] at hd
      exact nomatch hd
    | ok collected =>
      rw [hcollected] at hd
      cases hd
      have hcollects := Scope.collects_of_ok hcollected
      have hfollows := hcollects.follows hfragments hselections hwritten .nil
      exact hfollows.bind fun collected' hcollected' => ⟨rfl, hcollected'.reordered⟩

end Document

namespace Operation
variable {text text' : String} {d e : Document} {name? : Option String} {x : SchemaIndex}

theorem parse_of_reordered (hparse : Document.parse text = .ok d)
    (hparse' : Document.parse text' = .ok e) (h : d.Rewritten Selection.Reordered e) {o : Operation}
    (ho : Operation.parse text name? x = .ok o) :
    (∃ p, Operation.parse text' name? x = .ok p ∧ o.Reordered p) ∨
      ∃ fault, Operation.parse text' name? x = .error (.invalid fault) ∧
        fault.Swapped e.fields := by
  unfold Operation.parse at ho ⊢
  simp only [hparse, hparse'] at ho ⊢
  cases hd : d.operation name? x with
  | error fault =>
    rw [hd] at ho
    exact nomatch ho
  | ok o' =>
    rw [hd] at ho
    cases ho
    have hsettles := Document.operation_reordered h hd
    cases he : e.operation name? x with
    | ok p =>
      rw [he] at hsettles
      exact .inl ⟨p, rfl, hsettles⟩
    | error fault =>
      rw [he] at hsettles
      exact .inr ⟨fault, rfl, hsettles⟩

theorem exists_parse_of_aligned (hparse : Document.parse text = .ok d)
    (hparse' : Document.parse text' = .ok e) (h : d.Rewritten Selection.Reordered e)
    (haligned : e.Aligned) (ho : ∃ o, Operation.parse text name? x = .ok o) :
    ∃ p, Operation.parse text' name? x = .ok p := by
  obtain ⟨o, ho⟩ := ho
  cases parse_of_reordered hparse hparse' h ho with
  | inl hsame =>
    obtain ⟨p, hp, -⟩ := hsame
    exact ⟨p, hp⟩
  | inr hfault =>
    obtain ⟨fault, -, f, hf, g, hg, hswaps, -⟩ := hfault
    exact absurd hswaps (haligned f hf g hg)

/-- Of two documents that differ in the order of arguments alone, one comes to the same operation as
the other up to that order, or it has a conflict of fields that are written with the same arguments
in different orders. If neither document has such fields, both come to an operation or neither. -/
theorem parse_reordered (hparse : Document.parse text = .ok d)
    (hparse' : Document.parse text' = .ok e) (h : d.Rewritten Selection.Reordered e)
    (name? : Option String) (x : SchemaIndex) :
    (∀ o, Operation.parse text name? x = .ok o →
      (∃ p, Operation.parse text' name? x = .ok p ∧ o.Reordered p) ∨
        ∃ fault, Operation.parse text' name? x = .error (.invalid fault) ∧
          fault.Swapped e.fields) ∧
    (d.Aligned → e.Aligned → ((∃ o, Operation.parse text name? x = .ok o) ↔
      ∃ p, Operation.parse text' name? x = .ok p)) := by
  refine ⟨fun o ho => parse_of_reordered hparse hparse' h ho, fun hd he => ⟨?_, ?_⟩⟩
  · exact exists_parse_of_aligned hparse hparse' h he
  · exact exists_parse_of_aligned hparse' hparse (h.symm fun _ _ => Selection.Reordered.symm) hd

end Operation

def pages (calls : List (List Argument)) : Document :=
  ⟨.anonymous ⟨.query, [], [], [.field none "me" [] [] (calls.map fun arguments =>
    .field none "friends" arguments [] [.field none "id" [] [] []])]⟩, []⟩

def firstAfter : List Argument := [⟨"first", .number (.integer 1)⟩, ⟨"after", .number (.integer 2)⟩]

def afterFirst : List Argument := [⟨"after", .number (.integer 2)⟩, ⟨"first", .number (.integer 1)⟩]

def firstAfterText : String :=
  "{ me { friends(first: 1, after: 2) { id } friends(first: 1, after: 2) { id } } }"

def afterFirstText : String :=
  "{ me { friends(after: 2, first: 1) { id } friends(after: 2, first: 1) { id } } }"

def swappedText : String :=
  "{ me { friends(first: 1, after: 2) { id } friends(after: 2, first: 1) { id } } }"

theorem pages_reordered {calls calls' : List (List Argument)}
    (h : List.Forall₂ List.Perm calls calls') :
    (pages calls).Rewritten Selection.Reordered (pages calls') := by
  refine ⟨.anonymous ⟨rfl, .field .rfl ?_ .nil⟩, .nil⟩
  induction h with
  | nil => exact .nil
  | cons perm _ ih => exact .field perm (.field .rfl .nil .nil) ih

theorem parse_reordered_pages :
    Document.parse firstAfterText = .ok (pages [firstAfter, firstAfter]) ∧
    Document.parse afterFirstText = .ok (pages [afterFirst, afterFirst]) ∧
    (pages [firstAfter, firstAfter]).Rewritten Selection.Reordered
      (pages [afterFirst, afterFirst]) ∧
    (pages [firstAfter, firstAfter]).Aligned ∧ (pages [afterFirst, afterFirst]).Aligned ∧
    ∃ p, Operation.parse afterFirstText none circle.index = .ok p ∧
      (circle.operationOf firstAfterText).Reordered p := by
  have hparse : Document.parse firstAfterText = .ok (pages [firstAfter, firstAfter]) := by
    decide +kernel
  have hparse' : Document.parse afterFirstText = .ok (pages [afterFirst, afterFirst]) := by
    decide +kernel
  have hperm : firstAfter.Perm afterFirst := .swap _ _ _
  have h := pages_reordered (.cons hperm (.cons hperm .nil))
  have hd : (pages [firstAfter, firstAfter]).Aligned := by decide +kernel
  have he : (pages [afterFirst, afterFirst]).Aligned := by decide +kernel
  obtain ⟨hsame, hboth⟩ := Operation.parse_reordered hparse hparse' h none circle.index
  have ho : Operation.parse firstAfterText none circle.index =
      .ok (circle.operationOf firstAfterText) := Planner.operationOf_of_isOk (by decide +kernel)
  obtain ⟨p, hp⟩ := (hboth hd he).1 ⟨_, ho⟩
  refine ⟨hparse, hparse', h, hd, he, p, hp, ?_⟩
  cases hsame _ ho with
  | inl hsame =>
    obtain ⟨p', hp', hsame⟩ := hsame
    cases hp.symm.trans hp'
    exact hsame
  | inr hfault =>
    obtain ⟨fault, hfault, -⟩ := hfault
    exact nomatch hp.symm.trans hfault

/-- The same page twice is one field, but not if its arguments are swapped the second time. -/
theorem pages_swapped_conflict :
    (pages [firstAfter, firstAfter]).Rewritten Selection.Reordered
      (pages [firstAfter, afterFirst]) ∧
    (∀ f ∈ (pages [firstAfter, afterFirst]).fields, (f.arguments.map (·.name)).Nodup) ∧
    Document.parse firstAfterText = .ok (pages [firstAfter, firstAfter]) ∧
    Document.parse swappedText = .ok (pages [firstAfter, afterFirst]) ∧
    (Operation.parse firstAfterText none circle.index).isOk = true ∧
    Operation.parse swappedText none circle.index =
      .error (.invalid ⟨.conflict "friends", ["me", "friends"]⟩) := by
  refine ⟨pages_reordered (.cons .rfl (.cons (.swap _ _ _) .nil)), by decide +kernel,
    by decide +kernel, by decide +kernel, by decide +kernel, ?_⟩
  exact error_of_map (f := fun _ => ()) (by decide +kernel)

end FederatedQuery
