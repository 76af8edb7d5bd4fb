import FederatedQuery.Proofs.Operation.Complete

/-!
Spreads mean inlining. In a document whose fragments do not lead back to themselves, each spread can
be replaced by an inline fragment with the condition and the body of the fragment that it names. The
collection of fields does not tell the two documents apart: what is being expanded leads to all that
is still to be expanded, so a spread is never skipped.
-/
namespace FederatedQuery
open Relation

/-! ### Replacing spreads -/

namespace Selection

mutual
def replaceSpreads (g : String → Option Selection) : Selection → Selection
  | .field alias? name arguments directives below =>
    .field alias? name arguments directives (replaceSpreadsOfList g below)
  | .inline condition? directives below =>
    .inline condition? directives (replaceSpreadsOfList g below)
  | .spread name directives => (g name).getD (.spread name directives)

def replaceSpreadsOfList (g : String → Option Selection) : List Selection → List Selection
  | [] => []
  | t :: rest => t.replaceSpreads g :: replaceSpreadsOfList g rest
end

variable {g g' : String → Option Selection}

theorem isEmpty_replaceSpreadsOfList (g : String → Option Selection) (ts : List Selection) :
    (replaceSpreadsOfList g ts).isEmpty = ts.isEmpty := by
  cases ts <;> rfl

mutual
/-- Only what stands for the spreads that are there matters. -/
theorem replaceSpreads_congr : (t : Selection) → (∀ name ∈ t.spreads, g name = g' name) →
    t.replaceSpreads g = t.replaceSpreads g'
  | .field alias? name arguments directives below, h => by
    rw [replaceSpreads, replaceSpreads, replaceSpreadsOfList_congr below h]
  | .inline condition? directives below, h => by
    rw [replaceSpreads, replaceSpreads, replaceSpreadsOfList_congr below h]
  | .spread name directives, h => by
    rw [replaceSpreads, replaceSpreads, h name (List.mem_singleton_self name)]

theorem replaceSpreadsOfList_congr : (ts : List Selection) →
    (∀ name ∈ spreadsOfList ts, g name = g' name) →
    replaceSpreadsOfList g ts = replaceSpreadsOfList g' ts
  | [], _ => rfl
  | t :: rest, h => by
    have h := List.forall_mem_append.1 h
    rw [replaceSpreadsOfList, replaceSpreadsOfList, replaceSpreads_congr t h.1,
      replaceSpreadsOfList_congr rest h.2]
end

end Selection

def OperationNode.replaceSpreads (g : String → Option Selection) (o : OperationNode) :
    OperationNode :=
  { o with selections := Selection.replaceSpreadsOfList g o.selections }

def FragmentNode.replaceSpreads (g : String → Option Selection) (f : FragmentNode) :
    FragmentNode :=
  { f with selections := Selection.replaceSpreadsOfList g f.selections }

def OperationNodes.replaceSpreads (g : String → Option Selection) :
    OperationNodes → OperationNodes
  | .anonymous o => .anonymous (o.replaceSpreads g)
  | .named operations => .named (operations.map fun e => (e.1, e.2.replaceSpreads g))

namespace Document
variable {d : Document} {g : String → Option Selection} {name : String}

def replaceSpreads (g : String → Option Selection) (d : Document) : Document :=
  ⟨d.operations.replaceSpreads g, d.fragments.map (·.replaceSpreads g)⟩

/-- For a spread of a fragment of the document, `g` has an inline fragment with its condition and
its body, in which the spreads are replaced as well. It has nothing for other spreads. -/
def StandsIn (d : Document) (g : String → Option Selection) : Prop :=
  ∀ name, g name = (d.fragment? name).map fun f =>
    .inline (some f.condition) [] (Selection.replaceSpreadsOfList g f.selections)

def standIn (d : Document) : Nat → String → Option Selection
  | 0, _ => none
  | levels + 1, name => (d.fragment? name).map fun f =>
    .inline (some f.condition) [] (Selection.replaceSpreadsOfList (d.standIn levels) f.selections)

def inlined (d : Document) : Document := d.replaceSpreads (d.standIn d.fragments.length)

def Uses (d : Document) (name used : String) : Prop :=
  ∃ f, d.fragment? name = some f ∧ used ∈ Selection.spreadsOfList f.selections

def Acyclic (d : Document) : Prop := ∀ name, ¬TransGen d.Uses name name

/-- No fragment leads back to itself if fragments can be numbered so that each spreads only those of
smaller numbers. -/
theorem acyclic_of_rank (rank : String → Nat) (h : ∀ f ∈ d.fragments,
      ∀ used ∈ Selection.spreadsOfList f.selections, rank used < rank f.name) : d.Acyclic := by
  refine not_transGen_of_rank rank ?_
  rintro name used ⟨f, hf, hused⟩
  have hname : f.name = name := by simpa using List.find?_some hf
  exact hname ▸ h f (List.mem_of_find?_eq_some hf) used hused

/-! ### Enough levels -/

structure Ancestors (d : Document) (stack : List String) (name : String) : Prop where
  nodup : stack.Nodup
  defined : ∀ a ∈ stack, a ∈ d.fragments.map (·.name)
  leads : ∀ a ∈ stack, TransGen d.Uses a name

namespace Ancestors
variable {stack : List String} {f : FragmentNode}

theorem nil (d : Document) (name : String) : d.Ancestors [] name := ⟨.nil, nofun, nofun⟩

/-- A fragment that they lead to is a further one. -/
theorem cons_nodup (h : d.Ancestors stack name) (hacyclic : d.Acyclic) : (name :: stack).Nodup :=
  List.nodup_cons.2 ⟨fun hmem => hacyclic name (h.leads name hmem), h.nodup⟩

theorem cons_defined (h : d.Ancestors stack name) (hf : d.fragment? name = some f) :
    ∀ a ∈ name :: stack, a ∈ d.fragments.map (·.name) := by
  refine List.forall_mem_cons.2 ⟨?_, h.defined⟩
  have hname : f.name = name := by simpa using List.find?_some hf
  exact hname ▸ List.mem_map_of_mem (List.mem_of_find?_eq_some hf)

theorem cons (h : d.Ancestors stack name) (hacyclic : d.Acyclic) (hf : d.fragment? name = some f)
    {used : String} (hused : used ∈ Selection.spreadsOfList f.selections) :
    d.Ancestors (name :: stack) used := by
  have huses : d.Uses name used := ⟨f, hf, hused⟩
  refine ⟨h.cons_nodup hacyclic, h.cons_defined hf, List.forall_mem_cons.2 ⟨.single huses, ?_⟩⟩
  exact fun a ha => (h.leads a ha).tail huses

theorem length_lt (h : d.Ancestors stack name) (hacyclic : d.Acyclic)
    (hf : d.fragment? name = some f) : stack.length < d.fragments.length := by
  have hle := (h.cons_nodup hacyclic).length_le_of_subset (h.cons_defined hf)
  rwa [List.length_map] at hle

end Ancestors

/-- One level more makes no difference where there are as many levels as further fragments. -/
theorem standIn_succ (hacyclic : d.Acyclic) {levels : Nat} {stack : List String}
    (hstack : d.Ancestors stack name) (hlevels : d.fragments.length ≤ stack.length + levels) :
    d.standIn levels name = d.standIn (levels + 1) name := by
  induction levels generalizing stack name with
  | zero =>
    cases hf : d.fragment? name with
    | none => rw [standIn, standIn, hf, Option.map_none]
    | some f =>
      have := hstack.length_lt hacyclic hf
      omega
  | succ levels ih =>
    rw [standIn, standIn]
    cases hf : d.fragment? name with
    | none => rfl
    | some f =>
      have hbodies := Selection.replaceSpreadsOfList_congr f.selections fun used hused =>
        ih (hstack.cons hacyclic hf hused) (by rw [List.length_cons]; omega)
      rw [Option.map_some, Option.map_some, hbodies]

/-- There are at most as many levels as fragments. -/
theorem standsIn_standIn (hacyclic : d.Acyclic) :
    d.StandsIn (d.standIn d.fragments.length) := by
  intro name
  exact standIn_succ hacyclic (Ancestors.nil d name) (by simp)

/-- No spread of a fragment is left. -/
theorem fragment?_of_mem_spreads (hg : d.StandsIn g) (ts : List Selection) :
    ∀ name ∈ Selection.spreadsOfList (Selection.replaceSpreadsOfList g ts),
      d.fragment? name = none := by
  -- a body that is put in place of a spread is smaller than the inline fragment around it
  induction hsize : sizeOf (Selection.replaceSpreadsOfList g ts) using Nat.strongRecOn
    generalizing ts with
  | ind size ih =>
    cases ts with
    | nil => nofun
    | cons t rest =>
      subst hsize
      have hlt : ∀ us : List Selection, sizeOf (Selection.replaceSpreadsOfList g us) <
          sizeOf (t.replaceSpreads g) → ∀ name ∈ Selection.spreadsOfList
            (Selection.replaceSpreadsOfList g us), d.fragment? name = none := by
        intro us hus
        refine ih _ ?_ us rfl
        simp only [Selection.replaceSpreadsOfList, List.cons.sizeOf_spec]
        omega
      rw [Selection.replaceSpreadsOfList, Selection.spreadsOfList, List.forall_mem_append]
      have hrest : sizeOf (Selection.replaceSpreadsOfList g rest) <
          sizeOf (Selection.replaceSpreadsOfList g (t :: rest)) := by
        simp only [Selection.replaceSpreadsOfList, List.cons.sizeOf_spec]
        omega
      refine ⟨?_, ih _ hrest rest rfl⟩
      cases t with
      | field alias? name arguments directives below =>
        exact hlt below (by simp only [Selection.replaceSpreads, Selection.field.sizeOf_spec]; omega)
      | inline condition? directives below =>
        exact hlt below (by simp only [Selection.replaceSpreads, Selection.inline.sizeOf_spec]; omega)
      | spread used directives =>
        cases hf : d.fragment? used with
        | none => simp [Selection.replaceSpreads, hg used, hf, Selection.spreads]
        | some f =>
          have hreplaced : (Selection.spread used directives).replaceSpreads g =
              .inline (some f.condition) [] (Selection.replaceSpreadsOfList g f.selections) := by
            rw [Selection.replaceSpreads, hg used, hf, Option.map_some, Option.getD_some]
          rw [hreplaced] at hlt ⊢
          exact hlt f.selections (by simp only [Selection.inline.sizeOf_spec]; omega)

end Document

/-! ### Collecting from both documents -/

namespace Scope
variable {s : Scope} {onType : String} {keys spreads : List String} {selections : List Selection}
  {name : String} {directives : List Directive} {rest : List Selection}

theorem Onward.tail {first : Selection} (h : s.Onward spreads (first :: rest)) :
    s.Onward spreads rest :=
  h.mono (List.subset_append_right _ _)

/-- The fields of the selections are those of the selections in which inline fragments stand for the
spreads, and so are the faults. -/
theorem collect_replaceSpreads {g : String → Option Selection} {fragments : List FragmentNode}
    {out : SelectionSet} (hacyclic : ∀ name, ¬TransGen s.Uses name name)
    (hg : ∀ name, g name = (s.fragment? name).map fun f =>
      .inline (some f.condition) [] (Selection.replaceSpreadsOfList g f.selections))
    (hundefined : ∀ name, s.fragment? name = none →
      Scope.fragment? { s with fragments } name = none)
    (honward : s.Onward spreads selections) :
    Scope.collect { s with fragments } onType keys [] (Selection.replaceSpreadsOfList g selections)
      out = s.collect onType keys spreads selections out := by
  -- along the first collection; the second expands no fragment, so its stack stays empty
  fun_induction Scope.collect s onType keys spreads selections out
  case case1 => rw [Selection.replaceSpreadsOfList, collect]
  case case2 deeper others =>
    rw [Selection.replaceSpreadsOfList, Selection.replaceSpreads, collect,
      Selection.isEmpty_replaceSpreadsOfList]
    refine bind_congr fun node => bind_congr fun place => ?_
    obtain ⟨front, met, behind⟩ := place
    dsimp only
    rw [deeper node met (honward.mono (List.subset_append_left _ _))]
    exact bind_congr fun children => others front met behind children honward.tail
  case case3 deeper others =>
    rw [Selection.replaceSpreadsOfList, Selection.replaceSpreads, collect]
    refine bind_congr fun _ => ?_
    rw [deeper (honward.mono (List.subset_append_left _ _))]
    exact bind_congr fun middle => others middle honward.tail
  case case4 known others => exact absurd known (honward.fresh (hacyclic _))
  case case5 hnone =>
    have hmissing := hundefined _ hnone
    rw [Selection.replaceSpreadsOfList, Selection.replaceSpreads, hg, hnone, Option.map_none,
      Option.getD_none, collect, dif_neg List.not_mem_nil]
    split
    · rfl
    · rename_i hsome
      rw [hmissing] at hsome
      cases hsome
  case case6 fresh f defined deeper others =>
    rw [Selection.replaceSpreadsOfList, Selection.replaceSpreads, hg, defined, Option.map_some,
      Option.getD_some, collect, Option.getD_some]
    refine bind_congr fun _ => ?_
    rw [deeper (honward.spread defined)]
    exact bind_congr fun middle => others middle honward.tail

end Scope

namespace Document
variable {d : Document} {g : String → Option Selection}

theorem lookup_replaceSpreads (g : String → Option Selection)
    (operations : List (String × OperationNode)) (name : String) :
    (operations.map fun e => (e.1, e.2.replaceSpreads g)).lookup name =
      (operations.lookup name).map (·.replaceSpreads g) := by
  induction operations with
  | nil => rfl
  | cons e operations ih =>
    rw [List.map_cons, List.lookup_cons, List.lookup_cons]
    cases name == e.1 with
    | true => rfl
    | false => exact ih

/-- The operation to run is the same one. -/
theorem select_replaceSpreads (g : String → Option Selection) (d : Document)
    (name? : Option String) : (d.replaceSpreads g).select name? =
      (d.select name?).map fun chosen => (chosen.1, chosen.2.replaceSpreads g) := by
  obtain ⟨operations, fragments⟩ := d
  cases operations with
  | anonymous o => cases name? <;> rfl
  | named operations =>
    cases name? with
    | some name =>
      simp only [replaceSpreads, OperationNodes.replaceSpreads, select, lookup_replaceSpreads]
      cases operations.lookup name <;> rfl
    | none =>
      match operations with
      | [] | [_] | _ :: _ :: _ => rfl

theorem all_replaceSpreads (g : String → Option Selection) (operations : OperationNodes) :
    (operations.replaceSpreads g).all = operations.all.map (·.replaceSpreads g) := by
  cases operations with
  | anonymous o => rfl
  | named operations =>
    simp [OperationNodes.replaceSpreads, OperationNodes.all, Function.comp_def]

theorem fragment?_replaceSpreads (g : String → Option Selection) (d : Document) (name : String) :
    (d.replaceSpreads g).fragment? name = (d.fragment? name).map (·.replaceSpreads g) := by
  rw [fragment?, replaceSpreads, List.find?_map]
  rfl

/-- A document and the one with inline fragments for spreads have the same operation, or the same
fault. -/
theorem operation_replaceSpreads (hacyclic : d.Acyclic) (hg : d.StandsIn g)
    (name? : Option String) (x : SchemaIndex) :
    (d.replaceSpreads g).operation name? x = d.operation name? x := by
  have hcollect : ∀ root definitions selections,
      Scope.collect ⟨x, (d.replaceSpreads g).fragments, definitions⟩ root [] []
          (Selection.replaceSpreadsOfList g selections) [] =
        Scope.collect ⟨x, d.fragments, definitions⟩ root [] [] selections [] := by
    intro root definitions selections
    refine Scope.collect_replaceSpreads (s := ⟨x, d.fragments, definitions⟩) hacyclic hg ?_ nofun
    intro name hnone
    exact (fragment?_replaceSpreads g d name).trans (congrArg (Option.map _) hnone)
  unfold operation
  rw [select_replaceSpreads]
  cases d.select name? with
  | error e => rfl
  | ok chosen =>
    obtain ⟨chosen?, o⟩ := chosen
    simp only [Except.map, OperationNode.replaceSpreads, bind, Except.bind, hcollect]

/-- Spreads mean inlining. If no fragment leads back to itself, inline fragments can stand for all
spreads of fragments of the document, in their own bodies as well, until none is left. The operation
stays the same, or the fault with the keys that lead to it, so no spread was skipped. -/
theorem operation_inlined (hacyclic : d.Acyclic) :
    d.StandsIn (d.standIn d.fragments.length) ∧
    (∀ o ∈ d.inlined.operations.all, ∀ name ∈ Selection.spreadsOfList o.selections,
      d.fragment? name = none) ∧
    ∀ name? x, d.inlined.operation name? x = d.operation name? x ∧
      ∀ text text', Document.parse text = .ok d → Document.parse text' = .ok d.inlined →
        Operation.parse text' name? x = Operation.parse text name? x := by
  have hstands := standsIn_standIn hacyclic
  refine ⟨hstands, fun o ho => ?_, fun name? x => ?_⟩
  · rw [inlined, replaceSpreads, all_replaceSpreads] at ho
    obtain ⟨o, -, rfl⟩ := List.mem_map.1 ho
    exact fragment?_of_mem_spreads hstands o.selections
  · have hsame := operation_replaceSpreads hacyclic hstands name? x
    refine ⟨hsame, fun text text' hparse hparse' => ?_⟩
    unfold Operation.parse
    simp only [hparse, hparse', inlined, hsame]

end Document

/-! ### A fragment that is used again and again -/

namespace Selection

mutual
def decEq : (t u : Selection) → Decidable (t = u)
  | .field alias? name arguments directives below, u => match u with
    | .field alias?' name' arguments' directives' below' =>
      have := decEqList below below'
      decidable_of_iff (alias? = alias?' ∧ name = name' ∧ arguments = arguments' ∧
        directives = directives' ∧ below = below') (by simp)
    | .inline _ _ _ | .spread _ _ => isFalse nofun
  | .inline condition? directives below, u => match u with
    | .inline condition?' directives' below' =>
      have := decEqList below below'
      decidable_of_iff (condition? = condition?' ∧ directives = directives' ∧ below = below')
        (by simp)
    | .field _ _ _ _ _ | .spread _ _ => isFalse nofun
  | .spread name directives, u => match u with
    | .spread name' directives' =>
      decidable_of_iff (name = name' ∧ directives = directives') (by simp)
    | .field _ _ _ _ _ | .inline _ _ _ => isFalse nofun

def decEqList : (ts us : List Selection) → Decidable (ts = us)
  | [], [] => isTrue rfl
  | [], _ :: _ => isFalse nofun
  | _ :: _, [] => isFalse nofun
  | t :: ts, u :: us =>
    have := decEq t u
    have := decEqList ts us
    decidable_of_iff (t = u ∧ ts = us) (by simp)
end

instance : DecidableEq Selection := decEq

end Selection

deriving instance DecidableEq for OperationNode, FragmentNode, OperationNodes, Document

def reuseText : String :=
  "{ me { ...Person friends { ...Person } } } fragment Person on User { ...Named } " ++
    "fragment Named on User { id }"

def spelledOutText : String :=
  "{ me { ... on User { ... on User { id } } friends { ... on User { ... on User { id } } } } } " ++
    "fragment Person on User { ... on User { id } } fragment Named on User { id }"

def reuse : Document :=
  ⟨.anonymous ⟨.query, [], [], [.field none "me" [] [] [.spread "Person" [],
      .field none "friends" [] [] [.spread "Person" []]]]⟩,
    [⟨"Person", "User", [], [.spread "Named" []]⟩,
      ⟨"Named", "User", [], [.field none "id" [] [] []]⟩]⟩

def reuseRank (name : String) : Nat := if name = "Person" then 1 else 0

theorem operation_inlined_reuse : reuse.Acyclic ∧ Document.parse reuseText = .ok reuse ∧
    Document.parse spelledOutText = .ok reuse.inlined ∧
    Operation.parse spelledOutText none circle.index = Operation.parse reuseText none circle.index ∧
    (Operation.parse reuseText none circle.index).isOk = true := by
  have hacyclic : reuse.Acyclic := Document.acyclic_of_rank reuseRank (by decide +kernel)
  have hparse : Document.parse reuseText = .ok reuse := by decide +kernel
  have hspelled : Document.parse spelledOutText = .ok reuse.inlined := by decide +kernel
  obtain ⟨-, -, hsame⟩ := Document.operation_inlined hacyclic
  exact ⟨hacyclic, hparse, hspelled,
    (hsame none circle.index).2 reuseText spelledOutText hparse hspelled, by decide +kernel⟩

end FederatedQuery
