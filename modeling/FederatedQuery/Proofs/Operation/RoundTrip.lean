import FederatedQuery.Proofs.Grammar.Rendering
import FederatedQuery.Proofs.Operation.Recollect
import FederatedQuery.Proofs.Plan.Validity

/-!
An operation is read back from the request that selects all of it at its root.
-/
namespace FederatedQuery
open Grammar

namespace Scope
variable {s : Scope} {enclosing : String} {keys : List String}

theorem written_of_mem_grouped {selection : SelectionSet}
    (hplace : ∀ n ∈ selection, s.Gathers enclosing keys n)
    (hwritten : ∀ n ∈ selection, n.written.Written) :
    ∀ t ∈ Selection.grouped enclosing (SelectionNode.writtenList selection), t.Written := by
  rw [SelectionSet.grouped_writtenList, List.forall_mem_append]
  refine ⟨List.forall_mem_map.2 fun n hn => hwritten n (List.mem_filter.1 hn).1,
    List.forall_mem_map.2 fun g hg => ?_⟩
  obtain ⟨n, hn, htype, hother⟩ := SelectionSet.exists_of_mem_gather hg
  have hnamed := ((hplace n hn).shown.resolve_left hother).1
  have hfilled := ne_nil_of_mem_gather g hg
  exact .inline (htype ▸ hnamed) (by simpa using hfilled)
    (List.forall_mem_map.2 fun n hn => hwritten n (SelectionSet.mem_of_mem_group hg hn).1)

/-- A field from a text stands for a selection that is read back, if its values are. -/
theorem Gathers.written {n : SelectionNode} (h : s.Gathers enclosing keys n)
    (hplain : ∀ m ∈ SelectionSet.allFields [n], ∀ a ∈ m.arguments, a.value.isPlain = true) :
    n.written.Written := by
  induction h with
  | @field enclosing keys n path shown spelled returns below ih =>
    rw [SelectionSet.allFields_cons, SelectionSet.allFields_nil, List.append_nil,
      List.forall_mem_cons] at hplain
    rw [SelectionNode.written_eq]
    refine .field spelled.aliased spelled.named
      (fun a ha => ⟨spelled.given a ha, hplain.1 a ha⟩) ?_
    refine written_of_mem_grouped below fun c hc => ih c hc fun m hm => hplain.2 m ?_
    exact SelectionSet.allFields_subset (by simpa using hc) hm

end Scope

namespace VariableNode

def declared (v : VariableNode) : VariableDefinition := ⟨v.name, v.type.text⟩

def bare (v : VariableNode) : VariableNode := { v with constants := [] }

end VariableNode

namespace FetchOperation
variable {o : Operation} {nodes : List VariableNode}

def used (f : FetchFragment) (nodes : List VariableNode) : List VariableNode :=
  (f.selection.usedVariables.filterMap fun name => nodes.find? (·.name = name)).map
    VariableNode.bare

theorem definitions_eq (h : nodes.map VariableNode.declared = o.definitions) (f : FetchFragment) :
    (used f nodes).map VariableNode.declared = definitions o f none := by
  have hdeclared : ∀ name,
      (nodes.find? (·.name = name)).map VariableNode.declared = o.declared? name := by
    intro name
    rw [Operation.declared?, ← h, List.find?_map]
    rfl
  rw [used, List.map_map, List.map_filterMap]
  exact List.filterMap_congr fun name _ => hdeclared name

theorem written_of_mem_used {f : FetchFragment} (h : ∀ v ∈ nodes, v.Spelled) :
    ∀ v ∈ used f nodes, v.Written := by
  refine List.forall_mem_map.2 fun v hv => ?_
  obtain ⟨name, -, hv⟩ := List.mem_filterMap.1 hv
  have hspelled := h v (List.mem_of_find?_eq_some hv)
  exact ⟨hspelled.named, hspelled.typed, rfl⟩

/-- A variable that the selection uses is defined, if the operation has it. -/
theorem exists_definition {f : FetchFragment} {name : String} (huses : f.selection.Uses name)
    (hdeclared : ∃ v, o.declared? name = some v) : ∃ v ∈ definitions o f none, v.name = name := by
  obtain ⟨v, hv⟩ := hdeclared
  have hname : v.name = name := by simpa using List.find?_some hv
  exact ⟨v, List.mem_filterMap.2 ⟨name, SelectionSet.mem_usedVariables.2 huses, hv⟩, hname⟩

def node (o : Operation) (f : FetchFragment) (nodes : List VariableNode) : OperationNode :=
  ⟨o.kind, used f nodes, [],
    Selection.grouped f.onType (SelectionNode.writtenList f.selection)⟩

theorem written_node {f : FetchFragment} {s : Scope} {keys : List String}
    (hnodes : ∀ v ∈ nodes, v.Spelled) (hne : f.selection ≠ [])
    (hplace : ∀ n ∈ f.selection, s.Gathers f.onType keys n)
    (hplain : ∀ n ∈ f.selection.allFields, ∀ a ∈ n.arguments, a.value.isPlain = true) :
    (node o f nodes).Written := by
  refine ⟨written_of_mem_used hnodes, rfl, SelectionSet.grouped_ne_nil f.onType hne,
    Scope.written_of_mem_grouped hplace fun n hn => (hplace n hn).written fun m hm => ?_⟩
  exact hplain m (SelectionSet.allFields_subset (by simpa using hn) hm)

end FetchOperation

def SelectionSet.levels (enclosing : String) (s : SelectionSet) : Nat :=
  Selection.levelsOfList (Selection.grouped enclosing (SelectionNode.writtenList s))

namespace Operation
variable {text : String} {name? : Option String} {x : SchemaIndex} {o : Operation}

/-- Where the variables of the request are defined, the fields can be collected again. -/
theorem remakes_of_parse {f : FetchFragment} (h : Operation.parse text name? x = .ok o)
    (hcomplete : ∀ n ∈ o.selection.allFields, x.hasType n.ofType = true → n.children ≠ [])
    (hselection : f.selection = o.selection) :
    Scope.Remakes ⟨x, [], FetchOperation.definitions o f none⟩ o.selection := by
  obtain ⟨_, hanswers⟩ := parse_answers h
  refine ⟨fun n hn => ?_, fun n hn used hused => ?_, parse_everywhere h⟩
  · have hiff : x.hasType n.ofType = true ↔ n.children ≠ [] :=
      ⟨hcomplete n hn, (hanswers n hn).composite⟩
    rw [Bool.eq_iff_iff, hiff]
    simp
  · obtain ⟨a, ha, hmem⟩ := List.mem_flatMap.1 hused
    have huses : o.selection.Uses used := ⟨n, hn, a, ha, Value.mem_references.1 hmem⟩
    exact FetchOperation.exists_definition (hselection ▸ huses) (parse_declared h huses)

/-- An operation that a text holds is read back from the request for all of it, unless that has too
many levels. Only its order changes, to the one in which selections are rendered, and only the
variables that it uses are kept. -/
theorem parse_document {f : FetchFragment} {m : MergeSpec}
    (h : Operation.parse text name? x = .ok o) (hne : o.selection ≠ [])
    (hcomplete : ∀ n ∈ o.selection.allFields, x.hasType n.ofType = true → n.children ≠ [])
    (hplain : ∀ n ∈ o.selection.allFields, ∀ a ∈ n.arguments, a.value.isPlain = true)
    (htype : f.onType = o.rootType) (hselection : f.selection = o.selection)
    (hentry : m.entryField = none) (again? : Option String) :
    Operation.parse (FetchOperation.make o f m).document again? x =
      if o.selection.levels o.rootType ≤ nestingLimit + 1 then
        .ok ⟨o.kind, none, o.rootType, FetchOperation.definitions o f none,
          o.selection.arranged o.rootType⟩
      else .error (.parse .recursionLimitExceeded) := by
  obtain ⟨d, node, hparse, hsource⟩ := parse_eq_ok.1 h
  obtain ⟨hoperations, hfragments⟩ := Document.parse_spelled hparse
  have hspelled := hoperations node (Document.mem_all_of_select hsource.selected)
  have hplace := hsource.collects.gathers hfragments hspelled.each (.inl rfl) nofun
  have hcollects := Scope.collects_arranged (remakes_of_parse h hcomplete hselection)
    fun n hn => (hplace n hn).of_index rfl
  have hdefinitions := FetchOperation.definitions_eq hsource.definitions f
  obtain ⟨source, onType, selection, requiredKeys, providedPath⟩ := f
  cases htype
  cases hselection
  rw [FetchOperation.make, hentry]
  have hread := Document.parse_rendered
    (FetchOperation.written_node hspelled.definitions hne hplace hplain)
    (FetchOperation.toList_documentText hne hdefinitions)
  by_cases hlevels : o.selection.levels o.rootType ≤ nestingLimit + 1
  · rw [if_pos hlevels]
    exact parse_eq_ok.2 ⟨_, _, hread.trans (if_pos hlevels), rfl, rfl, hsource.rootType,
      hdefinitions, hcollects⟩
  · rw [if_neg hlevels]
    exact parse_of_error (hread.trans (if_neg hlevels))

end Operation

/-! ### Nodes of two types -/

def nodesText : String :=
  "query($n: Int) \x7b node \x7b ... on B \x7b owner \x7b bio(tags: [$n, \"a b\"]) " ++
    "\x7d \x7d key: id \x7d \x7d"

def nodesRoot : FetchFragment :=
  ⟨"s1", "Query", (homes.operationOf nodesText).selection, [], .root⟩

def nodesFetch : FetchOperation :=
  .make (homes.operationOf nodesText) nodesRoot ⟨.root, [], none⟩

theorem parse_document_nodes :
    nodesFetch.document = "query($n: Int) \x7b node \x7b key: id " ++
      "... on B \x7b owner \x7b bio(tags: [$n, \"a b\"]) \x7d \x7d \x7d \x7d" ∧
    Operation.parse nodesFetch.document none homes.index = .ok ⟨.query, none, "Query",
      [⟨"n", "Int"⟩], (homes.operationOf nodesText).selection.arranged "Query"⟩ := by
  have hoperation : (Operation.parse nodesText none homes.index).isOk = true ∧
      (homes.operationOf nodesText).kind = .query ∧
      (homes.operationOf nodesText).rootType = nodesRoot.onType ∧
      (homes.operationOf nodesText).selection ≠ [] ∧
      (∀ n ∈ (homes.operationOf nodesText).selection.allFields,
        homes.index.hasType n.ofType = true → n.children ≠ []) ∧
      (∀ n ∈ (homes.operationOf nodesText).selection.allFields,
        ∀ a ∈ n.arguments, a.value.isPlain = true) ∧
      FetchOperation.definitions (homes.operationOf nodesText) nodesRoot none = [⟨"n", "Int"⟩] ∧
      (homes.operationOf nodesText).selection.levels nodesRoot.onType ≤ nestingLimit + 1 := by
    decide +kernel
  obtain ⟨hparse, hkind, hroot, hne, hcomplete, hplain, hdefinitions, hlevels⟩ := hoperation
  have hselection : nodesRoot.selection = (homes.operationOf nodesText).selection := by
    rw [nodesRoot]
  have hreads := Operation.parse_document (f := nodesRoot) (m := ⟨.root, [], none⟩)
    (Planner.operationOf_of_isOk hparse) hne hcomplete hplain hroot.symm hselection rfl none
  rw [hkind, hroot, hdefinitions, if_pos hlevels] at hreads
  exact ⟨by decide +kernel, hreads⟩

end FederatedQuery
