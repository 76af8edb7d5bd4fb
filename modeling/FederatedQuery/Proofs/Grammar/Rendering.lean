import FederatedQuery.FetchOperation
import FederatedQuery.Proofs.Grammar.Document
import FederatedQuery.Proofs.Selection.Arrangement

/-!
The text of a selection and of a request is the text of the document that it stands for.
-/
namespace FederatedQuery
open Grammar

namespace SelectionNode

theorem toList_headText (n : SelectionNode) : n.headText.toList =
    Selection.aliasText n.alias? ++ (n.name.toList ++ Selection.argumentsText n.arguments) := by
  obtain ⟨name, alias?, arguments, responsePath, onType, ofType, children, isHidden⟩ := n
  unfold headText Selection.argumentsText Grammar.argumentsText bracketed
  cases alias? <;> cases arguments <;>
    simp [Selection.aliasText, String.toList_intercalate, Function.comp_def]

theorem text_eq (n : SelectionNode) : n.text = n.headText ++
    if n.children.isEmpty then "" else " " ++ SelectionSet.render (some n.ofType) n.children := by
  cases n
  rw [text]
  rfl

theorem texts_eq (s : SelectionSet) : texts s = s.map fun n => (n.onType, n.text) := by
  induction s with
  | nil => rfl
  | cons n s ih => rw [texts, ih, List.map_cons]

end SelectionNode

theorem SelectionSet.toList_group {g : String × List SelectionNode}
    (h : ∀ n ∈ g.2, n.text.toList = n.written.rendered) :
    ("... on " ++ g.1 ++ " \x7b " ++ String.intercalate " " (g.2.map SelectionNode.text) ++
      " \x7d").toList =
        (Selection.inline (some g.1) [] (g.2.map SelectionNode.written)).rendered := by
  have htexts : g.2.map (String.toList ∘ SelectionNode.text) =
      g.2.map (Selection.rendered ∘ SelectionNode.written) := List.map_congr_left h
  rw [Selection.rendered, Selection.renderedList_eq, List.map_map, ← htexts]
  simp [Selection.conditionText, Selection.braced, String.toList_intercalate]

/-- The texts of fields are assembled to the text of the selections that they stand for. -/
theorem SelectionSet.toList_render (enclosing : String) {s : SelectionSet} (hne : s ≠ [])
    (h : ∀ n ∈ s, n.text.toList = n.written.rendered) :
    (s.render (some enclosing)).toList = Selection.braced
      ((Selection.grouped enclosing (SelectionNode.writtenList s)).map Selection.rendered) := by
  have hown : ((s.map fun n => (n.onType, n.text)).filter fun t => some t.1 = some enclosing).map
      (·.2) = (s.filter (·.onType = enclosing)).map SelectionNode.text := by
    simp [List.filter_map, Function.comp_def]
  have hothers : gather ((s.map fun n => (n.onType, n.text)).filter
      fun t => some t.1 ≠ some enclosing) =
        (gather (s.foreign enclosing)).map fun g => (g.1, g.2.map SelectionNode.text) := by
    rw [← gather_map]
    simp [foreign, List.filter_map, Function.comp_def]
  have hparts : ((s.filter (·.onType = enclosing)).map SelectionNode.text ++
      (gather (s.foreign enclosing)).map fun g => "... on " ++ g.1 ++ " \x7b " ++
        String.intercalate " " (g.2.map SelectionNode.text) ++ " \x7d").map String.toList =
      (Selection.grouped enclosing (SelectionNode.writtenList s)).map Selection.rendered := by
    rw [grouped_writtenList, List.map_append, List.map_append, List.map_map, List.map_map,
      List.map_map, List.map_map]
    congr 1
    · exact List.map_congr_left fun n hn => h n (List.mem_filter.1 hn).1
    · exact List.map_congr_left fun g hg => toList_group fun n hn => h n (mem_of_mem_group hg hn).1
  have hne : (Selection.grouped enclosing (SelectionNode.writtenList s)).map Selection.rendered ≠
      [] := by
    simpa using grouped_ne_nil enclosing hne
  rw [render, assemble, SelectionNode.texts_eq]
  dsimp only
  rw [hown, hothers, List.map_map]
  simp only [Function.comp_def]
  rw [← hparts] at hne ⊢
  rw [if_neg (by simpa using hne)]
  simp [Selection.braced, String.toList_intercalate]

theorem SelectionNode.toList_text (n : SelectionNode) : n.text.toList = n.written.rendered := by
  induction n using ofChildren with
  | step n ih =>
    rw [written_eq, Selection.rendered, Selection.renderedList_eq, text_eq, String.toList_append,
      toList_headText, List.append_assoc, List.append_assoc]
    by_cases hchildren : n.children = []
    · simp [hchildren, writtenList, Selection.grouped, gather, Selection.belowText]
    · have hrender := SelectionSet.toList_render n.ofType hchildren ih
      have hgrouped := SelectionSet.grouped_ne_nil n.ofType hchildren
      simp [hchildren, Selection.belowText, hgrouped, hrender]

theorem FetchOperation.documentText_none (o : Operation) (f : FetchFragment) :
    documentText o f none = o.kind.text ++ variableList (definitions o f none) ++ " " ++
      f.selection.render (some f.onType) := rfl

/-- A request that starts at a root type has the text of one operation. -/
theorem FetchOperation.toList_documentText {o : Operation} {f : FetchFragment}
    {nodes : List VariableNode} (hselection : f.selection ≠ [])
    (hdefinitions : nodes.map (fun v => (⟨v.name, v.type.text⟩ : VariableDefinition)) =
      definitions o f none) :
    (documentText o f none).toList = OperationNode.rendered ⟨o.kind, nodes, [],
      Selection.grouped f.onType (SelectionNode.writtenList f.selection)⟩ := by
  have hrender := SelectionSet.toList_render f.onType hselection
    fun n _ => n.toList_text
  have htexts : ((definitions o f none).map fun v => "$" ++ v.name ++ ": " ++ v.type).map
      String.toList = nodes.map VariableNode.rendered := by
    rw [← hdefinitions, List.map_map, List.map_map]
    exact List.map_congr_left fun v _ => by simp [VariableNode.rendered]
  have hempty : (definitions o f none).isEmpty = nodes.isEmpty := by
    rw [← hdefinitions, List.isEmpty_map]
  have hlist : (variableList (definitions o f none)).toList = VariableNode.listText nodes := by
    rw [variableList, VariableNode.listText, hempty]
    cases nodes.isEmpty with
    | true => rfl
    | false => simp [String.toList_intercalate, htexts, bracketed, -List.map_map]
  rw [documentText_none, OperationNode.rendered]
  simp [hlist, hrender]

end FederatedQuery
