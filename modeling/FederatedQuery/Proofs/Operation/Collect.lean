import FederatedQuery.Operation.Parse
import FederatedQuery.Proofs.Decomposition.Run
import FederatedQuery.Proofs.Selection.Everywhere
import FederatedQuery.Proofs.Selection.Variables

/-!
What a successful collection consists of, and the shape of what it collects: no field is hidden, and
no two siblings answer to one response key on one type.
-/
namespace FederatedQuery

namespace Scope

/-- The steps of a collection without the error handling. -/
inductive Collects (s : Scope) : (onType : String) → (keys spreads : List String) →
    List Selection → (out collected : SelectionSet) → Prop
  | nil (onType : String) (keys spreads : List String) (out : SelectionSet) :
      Collects s onType keys spreads [] out out
  | field {onType : String} {keys spreads : List String} {alias? : Option String} {name : String}
      {arguments : List Argument} {directives : List Directive} {below rest : List Selection}
      {out front behind children collected : SelectionSet} {node met : SelectionNode}
      (made : s.fieldNode onType (keys ++ [alias?.getD name]) alias? name arguments
        (!below.isEmpty) = .ok node)
      (found : meet node out = .ok (front, met, behind))
      (deeper : Collects s node.ofType (keys ++ [alias?.getD name]) spreads below met.children
        children)
      (others : Collects s onType keys spreads rest (front ++ { met with children } :: behind)
        collected) :
      Collects s onType keys spreads (.field alias? name arguments directives below :: rest) out
        collected
  | inline {onType : String} {keys spreads : List String} {condition? : Option String}
      {directives : List Directive} {below rest : List Selection}
      {out middle collected : SelectionSet}
      (checked : s.checkType (condition?.getD onType) keys = .ok ())
      (deeper : Collects s (condition?.getD onType) keys spreads below out middle)
      (others : Collects s onType keys spreads rest middle collected) :
      Collects s onType keys spreads (.inline condition? directives below :: rest) out collected
  /-- A fragment that is being expanded is not entered again. -/
  | again {onType : String} {keys spreads : List String} {name : String}
      {directives : List Directive} {rest : List Selection} {out collected : SelectionSet}
      (known : name ∈ spreads) (others : Collects s onType keys spreads rest out collected) :
      Collects s onType keys spreads (.spread name directives :: rest) out collected
  | spread {onType : String} {keys spreads : List String} {name : String}
      {directives : List Directive} {rest : List Selection} {out middle collected : SelectionSet}
      {f : FragmentNode} (fresh : name ∉ spreads) (defined : s.fragment? name = some f)
      (checked : s.checkType f.condition keys = .ok ())
      (deeper : Collects s f.condition keys (name :: spreads) f.selections out middle)
      (others : Collects s onType keys spreads rest middle collected) :
      Collects s onType keys spreads (.spread name directives :: rest) out collected

section Spread
variable {s : Scope} {onType : String} {keys spreads : List String} {name : String}
  {directives : List Directive} {rest : List Selection} {out : SelectionSet}

theorem collect_known (known : name ∈ spreads) :
    s.collect onType keys spreads (.spread name directives :: rest) out =
      s.collect onType keys spreads rest out := by
  rw [collect, dif_pos known]

theorem collect_undefined (fresh : name ∉ spreads) (undefined : s.fragment? name = none) :
    s.collect onType keys spreads (.spread name directives :: rest) out =
      .error ⟨.unknownFragment name, keys⟩ := by
  rw [collect, dif_neg fresh]
  split
  · rfl
  · rename_i hsome
    cases undefined.symm.trans hsome

theorem collect_spread {f : FragmentNode} (fresh : name ∉ spreads)
    (defined : s.fragment? name = some f) :
    s.collect onType keys spreads (.spread name directives :: rest) out = (do
      s.checkType f.condition keys
      let out ← s.collect f.condition keys (name :: spreads) f.selections out
      s.collect onType keys spreads rest out) := by
  rw [collect, dif_neg fresh]
  split
  · rename_i hnone
    cases defined.symm.trans hnone
  · rename_i g hsome
    cases defined.symm.trans hsome
    rfl

end Spread

theorem collects_of_ok {s : Scope} {onType : String} {keys spreads : List String}
    {selections : List Selection} {out collected : SelectionSet}
    (h : s.collect onType keys spreads selections out = .ok collected) :
    s.Collects onType keys spreads selections out collected := by
  fun_induction Scope.collect s onType keys spreads selections out generalizing collected
  case case1 onType keys spreads out =>
    cases h
    exact .nil onType keys spreads out
  case case2 deeper others =>
    obtain ⟨node, hnode, h⟩ := bind_eq_ok.1 h
    obtain ⟨⟨front, met, behind⟩, hmeet, h⟩ := bind_eq_ok.1 h
    obtain ⟨children, hchildren, h⟩ := bind_eq_ok.1 h
    exact .field hnode hmeet (deeper node met hchildren) (others front met behind children h)
  case case3 deeper others =>
    obtain ⟨_, hcheck, h⟩ := bind_eq_ok.1 h
    obtain ⟨middle, hmiddle, h⟩ := bind_eq_ok.1 h
    exact .inline hcheck (deeper hmiddle) (others middle h)
  case case4 known others => exact .again known (others h)
  case case5 => exact nomatch h
  case case6 fresh f defined deeper others =>
    obtain ⟨_, hcheck, h⟩ := bind_eq_ok.1 h
    obtain ⟨middle, hmiddle, h⟩ := bind_eq_ok.1 h
    exact .spread fresh defined hcheck (deeper hmiddle) (others middle h)

/-- A collection whose steps succeed succeeds. -/
theorem Collects.collect_eq {s : Scope} {onType : String} {keys spreads : List String}
    {selections : List Selection} {out collected : SelectionSet}
    (h : s.Collects onType keys spreads selections out collected) :
    s.collect onType keys spreads selections out = .ok collected := by
  fun_induction Scope.collect s onType keys spreads selections out generalizing collected
  case case1 =>
    cases h
    rfl
  case case2 deeper others =>
    cases h with
    | field made found hbelow hothers =>
      exact bind_eq_ok.2 ⟨_, made, bind_eq_ok.2 ⟨_, found, bind_eq_ok.2
        ⟨_, deeper _ _ hbelow, others _ _ _ _ hothers⟩⟩⟩
  case case3 deeper others =>
    cases h with
    | inline checked hbelow hothers =>
      exact bind_eq_ok.2 ⟨_, checked, bind_eq_ok.2 ⟨_, deeper hbelow, others _ hothers⟩⟩
  case case4 known others =>
    cases h with
    | again _ hothers => exact others hothers
    | spread fresh => exact absurd known fresh
  case case5 fresh hnone =>
    cases h with
    | again known => exact absurd known fresh
    | spread _ defined =>
      rw [defined] at hnone
      cases hnone
  case case6 fresh f defined deeper others =>
    cases h with
    | again known => exact absurd known fresh
    | spread _ hdefined checked hbelow hothers =>
      cases defined.symm.trans hdefined
      exact bind_eq_ok.2 ⟨_, checked, bind_eq_ok.2 ⟨_, deeper hbelow, others _ hothers⟩⟩

theorem Collects.append {s : Scope} {onType : String} {keys spreads : List String}
    {first rest : List Selection} {out middle collected : SelectionSet}
    (h : s.Collects onType keys spreads first out middle)
    (hrest : s.Collects onType keys spreads rest middle collected) :
    s.Collects onType keys spreads (first ++ rest) out collected := by
  induction h with
  | nil => exact hrest
  | field made found deeper _ _ others => exact .field made found deeper (others hrest)
  | inline checked deeper _ _ others => exact .inline checked deeper (others hrest)
  | again known _ others => exact .again known (others hrest)
  | spread fresh defined checked deeper _ _ others =>
    exact .spread fresh defined checked deeper (others hrest)

theorem meets_iff {a b : SelectionNode} :
    meets a b = true ↔ a.responseKey = b.responseKey ∧ a.onType = b.onType := by
  simp [meets]

theorem meets_comm (a b : SelectionNode) : meets a b = meets b a := by
  simp [meets, eq_comm]

/-- What holds of siblings that meet, the one in front first, holds of them in either order. -/
theorem of_pairwise_meets {R : SelectionNode → SelectionNode → Prop} {s : SelectionSet}
    (hself : ∀ a, R a a) (hswap : ∀ a b, R a b → R b a)
    (h : s.Pairwise fun a b => meets a b = true → R a b) {a b : SelectionNode} (ha : a ∈ s)
    (hb : b ∈ s) (hmeets : meets a b = true) : R a b := by
  have hback : s.Pairwise fun a b => meets b a = true → R b a := by
    refine h.imp fun {a b} hab => ?_
    rw [meets_comm b a]
    exact fun hmeets => hswap a b (hab hmeets)
  exact h.forall_of_forall_of_flip (fun a _ _ => hself a) hback ha hb hmeets

/-- A field is met by the first one if they answer to one response key, and then it has to be the
same. Otherwise it is up to the others. -/
theorem meet_cons_eq_ok {node m : SelectionNode} {rest : List SelectionNode}
    {place : List SelectionNode × SelectionNode × List SelectionNode} :
    meet node (m :: rest) = .ok place ↔
      (meets m node = true ∧ (m.name = node.name ∧
        Argument.sameList m.arguments node.arguments = true) ∧ place = ([], m, rest)) ∨
      (meets m node = false ∧ ∃ front met behind, meet node rest = .ok (front, met, behind) ∧
        place = (m :: front, met, behind)) := by
  rw [meet]
  constructor
  · intro h
    by_cases hm : meets m node = true
    · rw [if_pos hm] at h
      by_cases hsame : (m.name = node.name && Argument.sameList m.arguments node.arguments) = true
      · rw [if_pos hsame] at h
        cases h
        exact .inl ⟨hm, by simpa using hsame, rfl⟩
      · rw [if_neg hsame] at h
        exact nomatch h
    · rw [if_neg hm] at h
      obtain ⟨⟨front, met, behind⟩, hrest, h⟩ := bind_eq_ok.1 h
      cases h
      exact .inr ⟨Bool.eq_false_iff.2 hm, front, met, behind, hrest, rfl⟩
  · rintro (⟨hm, hsame, rfl⟩ | ⟨hm, front, met, behind, hrest, rfl⟩)
    · rw [if_pos hm, if_pos (by simpa using hsame)]
      rfl
    · rw [if_neg (Bool.eq_false_iff.1 hm), hrest]
      rfl

/-- A field either finds the one that it meets, which is the same but for its sub-selection, or it
comes last. -/
theorem meet_of_ok {node met : SelectionNode} {out front behind : List SelectionNode}
    (h : meet node out = .ok (front, met, behind)) :
    (out = front ++ met :: behind ∧ meets met node = true ∧ met.name = node.name ∧
      Argument.sameList met.arguments node.arguments = true) ∨
    (front = out ∧ met = node ∧ behind = [] ∧ ∀ m ∈ out, meets m node = false) := by
  induction out generalizing front met behind with
  | nil =>
    cases h
    exact .inr ⟨rfl, rfl, rfl, by simp⟩
  | cons m rest ih =>
    cases meet_cons_eq_ok.1 h with
    | inl hfirst =>
      obtain ⟨hm, hsame, heq⟩ := hfirst
      cases heq
      exact .inl ⟨rfl, hm, hsame⟩
    | inr hlater =>
      obtain ⟨hm, front, met, behind, hrest, heq⟩ := hlater
      cases heq
      cases ih hrest with
      | inl hfound =>
        obtain ⟨rfl, hfound⟩ := hfound
        exact .inl ⟨rfl, hfound⟩
      | inr hlast =>
        obtain ⟨rfl, rfl, rfl, hnone⟩ := hlast
        exact .inr ⟨rfl, rfl, rfl, List.forall_mem_cons.2 ⟨hm, hnone⟩⟩

/-- What a field is made of. -/
theorem made_of_ok {s : Scope} {onType name : String} {keys : List String}
    {alias? : Option String} {arguments : List Argument} {hasSelection : Bool}
    {node : SelectionNode}
    (h : s.fieldNode onType keys alias? name arguments hasSelection = .ok node) :
    ∃ ofType, s.returnType? onType name = some ofType ∧ s.index.hasType ofType = hasSelection ∧
      node = ⟨name, alias?, arguments.map Argument.merged, keys, onType, ofType, [], false⟩ ∧
      ∀ used ∈ node.arguments.flatMap Argument.references,
        ∃ v ∈ s.definitions, v.name = used := by
  unfold fieldNode at h
  split at h
  · rename_i ofType hreturns
    dsimp only at h
    split at h
    · exact nomatch h
    · rename_i hneeded
      split at h
      · exact nomatch h
      · rename_i hrefused
        split at h
        · exact nomatch h
        · rename_i hnone
          cases h
          refine ⟨ofType, hreturns, ?_, rfl, fun used hused => ?_⟩
          · cases htype : s.index.hasType ofType with
            | true => simpa [htype] using hneeded
            | false => simpa [htype, eq_comm] using hrefused
          · simpa using List.find?_eq_none.1 hnone used hused
  · exact nomatch h

/-- A field that is made has nothing below it, and refers to variables that are defined. -/
theorem fieldNode_of_ok {s : Scope} {onType name : String} {keys : List String}
    {alias? : Option String} {arguments : List Argument} {hasSelection : Bool}
    {node : SelectionNode}
    (h : s.fieldNode onType keys alias? name arguments hasSelection = .ok node) :
    node.isHidden = false ∧ node.children = [] ∧
      ∀ used ∈ node.arguments.flatMap Argument.references,
        ∃ v ∈ s.definitions, v.name = used := by
  obtain ⟨ofType, -, -, rfl, hdefined⟩ := made_of_ok h
  exact ⟨rfl, rfl, hdefined⟩

end Scope

structure SelectionSet.Collected (s : SelectionSet) : Prop where
  visible : ∀ n ∈ s, n.isHidden = false
  apart : s.Pairwise fun a b => Scope.meets a b = false

namespace SelectionSet

theorem Collected.nil : Collected [] := ⟨by simp, .nil⟩

theorem Collected.concat {s : SelectionSet} {n : SelectionNode} (h : Collected s)
    (hn : n.isHidden = false) (hs : ∀ m ∈ s, Scope.meets m n = false) : Collected (s ++ [n]) := by
  refine ⟨List.forall_mem_append.2 ⟨h.visible, by simpa using hn⟩, ?_⟩
  rw [List.pairwise_append]
  refine ⟨h.apart, List.pairwise_singleton _ _, fun m hm c hc => ?_⟩
  rw [List.mem_singleton.1 hc]
  exact hs m hm

/-- What siblings have below them does not matter. -/
theorem Collected.withChildren {front behind children : SelectionSet} {n : SelectionNode}
    (h : Collected (front ++ n :: behind)) :
    Collected (front ++ { n with children } :: behind) := by
  obtain ⟨visible, apart⟩ := h
  rw [List.forall_mem_append, List.forall_mem_cons] at visible
  rw [List.pairwise_append, List.pairwise_cons] at apart
  constructor
  · exact List.forall_mem_append.2 ⟨visible.1, List.forall_mem_cons.2 visible.2⟩
  · obtain ⟨hfront, ⟨hn, hbehind⟩, hacross⟩ := apart
    refine List.pairwise_append.2 ⟨hfront, List.pairwise_cons.2 ⟨hn, hbehind⟩, fun a ha => ?_⟩
    have hacross := List.forall_mem_cons.1 (hacross a ha)
    exact List.forall_mem_cons.2 hacross

theorem Collected.eq_of_meets {s : SelectionSet} {n m : SelectionNode} (h : Collected s)
    (hn : n ∈ s) (hm : m ∈ s) (hmeets : Scope.meets n m = true) : n = m := by
  have hpairs : s.Pairwise fun a b => Scope.meets a b = true → a = b :=
    h.apart.imp fun hapart hmeets => absurd hmeets (Bool.eq_false_iff.1 hapart)
  exact Scope.of_pairwise_meets (fun _ => rfl) (fun _ _ => Eq.symm) hpairs hn hm hmeets

/-- A way down such a selection is known by its response keys and the types on it. -/
theorem eq_of_descends {s : SelectionSet} {v w : List SelectionNode}
    (h : Everywhere Collected s) (hv : Descends s v) (hw : Descends s w)
    (hkeys : v.map (·.responseKey) = w.map (·.responseKey))
    (htypes : v.map (·.onType) = w.map (·.onType)) : v = w := by
  induction v generalizing s w with
  | nil => exact (List.map_eq_nil_iff.1 hkeys.symm).symm
  | cons n v ih =>
    cases w with
    | nil => exact nomatch hkeys
    | cons m w =>
      obtain ⟨hkey, hkeysBelow⟩ := List.cons.inj hkeys
      obtain ⟨htype, htypesBelow⟩ := List.cons.inj htypes
      have hsame : n = m := h.1.eq_of_meets hv.1 hw.1 (Scope.meets_iff.2 ⟨hkey, htype⟩)
      subst hsame
      have hchildren := h.children (mem_allFields_of_mem hv.1)
      rw [ih hchildren hv.2 hw.2 hkeysBelow htypesBelow]

end SelectionSet

/-- Collecting keeps the shape that operations have. -/
theorem Scope.Collects.everywhere {s : Scope} {onType : String} {keys spreads : List String}
    {selections : List Selection} {out collected : SelectionSet}
    (h : s.Collects onType keys spreads selections out collected)
    (hout : SelectionSet.Everywhere SelectionSet.Collected out) :
    SelectionSet.Everywhere SelectionSet.Collected collected := by
  induction h with
  | nil => exact hout
  | @field onType keys spreads alias? name _ _ below rest out front behind children collected node
      met made found _ _ deeper others =>
    have hnode := fieldNode_of_ok made
    -- the field that gets the sub-selection stands among the others already, or comes last
    have hplace : SelectionSet.Everywhere SelectionSet.Collected (front ++ met :: behind) := by
      cases meet_of_ok found with
      | inl hfound => exact hfound.1 ▸ hout
      | inr hlast =>
        obtain ⟨rfl, rfl, rfl, hnone⟩ := hlast
        refine ⟨hout.1.concat hnode.1 hnone, SelectionSet.below_append.2 ⟨hout.2, ?_⟩⟩
        exact .of_leaves .nil (by simp [hnode.2.1])
    have hbelow := SelectionSet.below_append.1 hplace.2
    have hmet := SelectionSet.below_cons.1 hbelow.2
    have hchildren := deeper hmet.1
    apply others
    refine ⟨hplace.1.withChildren, SelectionSet.below_append.2 ⟨hbelow.1, ?_⟩⟩
    exact SelectionSet.below_cons.2 ⟨hchildren, hmet.2⟩
  | inline _ _ _ deeper others => exact others (deeper hout)
  | again _ _ others => exact others hout
  | spread _ _ _ _ _ deeper others => exact others (deeper hout)

/-- What holds of every field that is made holds of all that are collected, as long as it does not
matter what stands below them. -/
theorem Scope.Collects.forall_asked {s : Scope} {onType : String} {keys spreads : List String}
    {selections : List Selection} {out collected : SelectionSet} {Q : Asked → Prop}
    (h : s.Collects onType keys spreads selections out collected)
    (hmade : ∀ {onType keys alias? name arguments hasSelection node},
      s.fieldNode onType keys alias? name arguments hasSelection = .ok node → Q node.asked)
    (hout : ∀ n ∈ out.allFields, Q n.asked) : ∀ n ∈ collected.allFields, Q n.asked := by
  induction h with
  | nil => exact hout
  | @field _ _ _ _ _ _ _ below rest out front behind children collected node met made found _ _
      deeper others =>
    have hplace : ∀ n ∈ SelectionSet.allFields (front ++ met :: behind), Q n.asked := by
      cases meet_of_ok found with
      | inl hfound => exact hfound.1 ▸ hout
      | inr hlast =>
        obtain ⟨rfl, rfl, rfl, -⟩ := hlast
        rw [SelectionSet.allFields_append, SelectionSet.allFields_cons, (fieldNode_of_ok made).2.1]
        exact List.forall_mem_append.2 ⟨hout, by simpa using hmade made⟩
    rw [SelectionSet.allFields_append, SelectionSet.allFields_cons, List.forall_mem_append,
      List.forall_mem_cons, List.forall_mem_append] at hplace
    obtain ⟨hfront, hmet, hchildren, hbehind⟩ := hplace
    refine others ?_
    rw [SelectionSet.allFields_append, SelectionSet.allFields_cons, List.forall_mem_append,
      List.forall_mem_cons, List.forall_mem_append]
    exact ⟨hfront, hmet, deeper hchildren, hbehind⟩
  | inline _ _ _ deeper others => exact others (deeper hout)
  | again _ _ others => exact others hout
  | spread _ _ _ _ _ deeper others => exact others (deeper hout)

structure Operation.Source (o : Operation) (d : Document) (name? : Option String) (x : SchemaIndex)
    (node : OperationNode) : Prop where
  selected : d.select name? = .ok (o.name?, node)
  kind : node.kind = o.kind
  rootType : x.rootType o.kind = some o.rootType
  definitions : node.definitions.map (fun v => ⟨v.name, v.type.text⟩) = o.definitions
  collects : Scope.Collects ⟨x, d.fragments, o.definitions⟩ o.rootType [] [] node.selections []
    o.selection

theorem Document.operation_eq_ok {d : Document} {name? : Option String} {x : SchemaIndex}
    {o : Operation} : d.operation name? x = .ok o ↔ ∃ node, o.Source d name? x node := by
  constructor
  · intro h
    unfold operation at h
    obtain ⟨⟨chosen, node⟩, hselect, h⟩ := bind_eq_ok.1 h
    dsimp only at h
    split at h
    · rename_i hroot
      obtain ⟨selection, hselection, h⟩ := bind_eq_ok.1 h
      cases h
      exact ⟨node, hselect, rfl, hroot, rfl, Scope.collects_of_ok hselection⟩
    · exact nomatch h
  · rintro ⟨node, selected, hkind, hroot, hdefinitions, hcollects⟩
    obtain ⟨kind, chosen, rootType, definitions, selection⟩ := o
    cases hkind
    cases hdefinitions
    dsimp only at selected hroot hcollects
    unfold operation
    refine bind_eq_ok.2 ⟨_, selected, ?_⟩
    dsimp only
    rw [hroot]
    exact bind_eq_ok.2 ⟨selection, hcollects.collect_eq, rfl⟩

namespace Operation
variable {text : String} {name? : Option String} {x : SchemaIndex} {o : Operation}

theorem parse_eq_ok : Operation.parse text name? x = .ok o ↔
    ∃ d node, Document.parse text = .ok d ∧ o.Source d name? x node := by
  constructor
  · intro h
    unfold Operation.parse at h
    split at h
    · exact nomatch h
    · rename_i d hparse
      split at h
      · exact nomatch h
      · rename_i operation hoperation
        cases h
        obtain ⟨node, hsource⟩ := Document.operation_eq_ok.1 hoperation
        exact ⟨d, node, hparse, hsource⟩
  · rintro ⟨d, node, hparse, hsource⟩
    have hoperation := Document.operation_eq_ok.2 ⟨node, hsource⟩
    unfold Operation.parse
    simp only [hparse, hoperation]

theorem parse_of_error {e : ParseError} (h : Document.parse text = .error e) :
    Operation.parse text name? x = .error (.parse e) := by
  unfold Operation.parse
  rw [h]

/-- The document that was read, the definition it selects, and the collection of its fields. -/
theorem exists_document_of_parse (h : Operation.parse text name? x = .ok o) :
    ∃ d chosen node, Document.parse text = .ok d ∧ d.select name? = .ok (chosen, node) ∧
      Scope.Collects ⟨x, d.fragments, o.definitions⟩ o.rootType [] [] node.selections []
        o.selection := by
  obtain ⟨d, node, hparse, hsource⟩ := parse_eq_ok.1 h
  exact ⟨d, o.name?, node, hparse, hsource.selected, hsource.collects⟩

theorem collects_of_parse (h : Operation.parse text name? x = .ok o) :
    ∃ fragments selections, Scope.Collects ⟨x, fragments, o.definitions⟩ o.rootType [] []
      selections [] o.selection := by
  obtain ⟨d, _, node, -, -, hcollects⟩ := exists_document_of_parse h
  exact ⟨d.fragments, node.selections, hcollects⟩

/-- In an operation that was read from a text, siblings answer to different response keys or stand
on different types. -/
theorem parse_everywhere (h : Operation.parse text name? x = .ok o) :
    SelectionSet.Everywhere SelectionSet.Collected o.selection := by
  obtain ⟨fragments, selections, hcollects⟩ := collects_of_parse h
  exact hcollects.everywhere ⟨.nil, SelectionSet.below_nil _⟩

/-- It has a definition for every variable that it uses. -/
theorem parse_declared (h : Operation.parse text name? x = .ok o) {name : String}
    (huses : o.selection.Uses name) : ∃ v, o.declared? name = some v := by
  obtain ⟨fragments, selections, hcollects⟩ := collects_of_parse h
  obtain ⟨n, hn, a, ha, hmentions⟩ := huses
  have hdefined : ∃ v ∈ o.definitions, v.name = name := by
    refine hcollects.forall_asked (Q := fun asked => ∀ a ∈ asked.arguments,
      a.value.Mentions name → ∃ v ∈ o.definitions, v.name = name) (fun made a ha hmentions => ?_)
      nofun n hn a ha hmentions
    exact (Scope.fieldNode_of_ok made).2.2 name
      (List.mem_flatMap.2 ⟨a, ha, Value.mem_references.2 hmentions⟩)
  obtain ⟨v, hv, hname⟩ := hdefined
  exact Option.isSome_iff_exists.1 (List.find?_isSome.2 ⟨v, hv, by simpa using hname⟩)

end Operation
end FederatedQuery
