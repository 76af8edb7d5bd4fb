import FederatedQuery.Proofs.Operation.Gathered
import FederatedQuery.Proofs.Selection.Arrangement

/-!
Collecting the selections that stand for fields: the fields come back in the order in which they are
rendered.
-/
namespace FederatedQuery
open Grammar

namespace Scope
variable {s t : Scope} {enclosing type : String} {keys : List String} {n : SelectionNode}

theorem meets_arranged (a b : SelectionNode) : meets a b.arranged = meets a b := by
  simp [meets]

/-- In the order in which they are rendered, fields that stood apart stand apart. -/
theorem pairwise_arranged {s : SelectionSet} (enclosing : String) (h : s.Collected) :
    (s.arranged enclosing).Pairwise fun a b => meets a b = false := by
  have hperm : (s.arranged enclosing).Perm (s.map SelectionNode.arranged) := by
    rw [SelectionSet.arranged, SelectionNode.arrangedList_eq]
    exact SelectionSet.arrange_perm enclosing _
  refine (hperm.pairwise_iff fun {a b} hab => (meets_comm b a).trans hab).2 ?_
  exact List.pairwise_map.2 (h.apart.imp fun hab => by simpa [meets] using hab)

/-- Where a field stands depends on the schema alone. -/
theorem Gathers.of_index (h : s.Gathers enclosing keys n) (hindex : t.index = s.index) :
    t.Gathers enclosing keys n := by
  induction h with
  | field path shown spelled returns _ ih =>
    refine .field path ?_ spelled ?_ ih
    · rw [Shows, hindex]
      exact shown
    · rw [returnType?, hindex]
      exact returns

structure Remakes (t : Scope) (s : SelectionSet) : Prop where
  composite : ∀ n ∈ s.allFields, t.index.hasType n.ofType = !n.children.isEmpty
  defined : ∀ n ∈ s.allFields, ∀ used ∈ n.arguments.flatMap Argument.references,
    ∃ v ∈ t.definitions, v.name = used
  siblings : SelectionSet.Everywhere SelectionSet.Collected s

theorem Remakes.children {s : SelectionSet} (h : t.Remakes s) (hn : n ∈ s) :
    t.Remakes n.children :=
  ⟨fun c hc => h.composite c (SelectionSet.mem_allFields_of_child hn hc),
    fun c hc => h.defined c (SelectionSet.mem_allFields_of_child hn hc),
    h.siblings.children (SelectionSet.mem_allFields_of_mem hn)⟩

theorem fieldNode_eq {onType name ofType : String} {alias? : Option String}
    {arguments : List Argument} {hasSelection : Bool}
    (returns : t.returnType? onType name = some ofType)
    (composite : t.index.hasType ofType = hasSelection)
    (defined : ∀ used ∈ (arguments.map Argument.merged).flatMap Argument.references,
      ∃ v ∈ t.definitions, v.name = used) :
    t.fieldNode onType keys alias? name arguments hasSelection =
      .ok ⟨name, alias?, arguments.map Argument.merged, keys, onType, ofType, [], false⟩ := by
  have hnone : ((arguments.map Argument.merged).flatMap Argument.references).find?
      (fun v => t.definitions.all (·.name ≠ v)) = none :=
    List.find?_eq_none.2 fun used hused => by simpa using defined used hused
  unfold fieldNode
  simp only [returns, composite, hnone]
  cases hasSelection <;> rfl

theorem meet_of_apart {node : SelectionNode} {out : SelectionSet}
    (h : ∀ m ∈ out, meets m node = false) : meet node out = .ok (out, node, []) := by
  induction out with
  | nil => rfl
  | cons m rest ih =>
    rw [List.forall_mem_cons] at h
    rw [meet, h.1, ih h.2]
    rfl

def Recollects (t : Scope) (n : SelectionNode) : Prop :=
  t.Collects n.ofType n.responsePath [] (Selection.grouped n.ofType (SelectionNode.writtenList
    n.children)) [] (SelectionSet.arranged n.ofType n.children)

/-- The field is added behind others that stand apart from it. -/
theorem collects_written {s out collected : SelectionSet} {rest : List Selection}
    (h : t.Remakes s) (hn : n ∈ s) (hplace : t.Gathers enclosing keys n) (below : t.Recollects n)
    (hout : ∀ m ∈ out, meets m n = false)
    (others : t.Collects n.onType keys [] rest (out ++ [n.arranged]) collected) :
    t.Collects n.onType keys [] (n.written :: rest) out collected := by
  have hmem := SelectionSet.mem_allFields_of_mem hn
  have hcomposite := h.composite n hmem
  have hdefined := h.defined n hmem
  have hvisible := h.siblings.1.visible n hn
  rw [← SelectionSet.isEmpty_grouped n.ofType] at hcomposite
  rw [SelectionNode.arranged_eq] at others
  rw [SelectionNode.written_eq]
  cases hplace with
  | field path _ spelled returns _ =>
    have hsettled : n.arguments.map Argument.merged = n.arguments :=
      (List.map_congr_left spelled.settled).trans (List.map_id _)
    have hmade : t.fieldNode n.onType (keys ++ [n.responseKey]) n.alias? n.name n.arguments
        (!(Selection.grouped n.ofType (SelectionNode.writtenList n.children)).isEmpty) =
          .ok { n with children := [] } := by
      rw [← path, fieldNode_eq returns hcomposite (hsettled.symm ▸ hdefined), hsettled, hvisible]
    rw [Recollects, path] at below
    exact .field hmade (meet_of_apart hout) below others

section Siblings
variable {s out : SelectionSet} (h : t.Remakes s) (hplace : ∀ n ∈ s, t.Gathers enclosing keys n)
  (below : ∀ n ∈ s, t.Recollects n)
include h hplace below

/-- Fields of one type are added one behind the other. -/
theorem collects_fields {ns : SelectionSet} (hns : ns ⊆ s) (htype : ∀ n ∈ ns, n.onType = type)
    (hapart : (out ++ ns.map SelectionNode.arranged).Pairwise fun a b => meets a b = false) :
    t.Collects type keys [] (ns.map SelectionNode.written) out
      (out ++ ns.map SelectionNode.arranged) := by
  induction ns generalizing out with
  | nil =>
    rw [List.map_nil, List.map_nil, List.append_nil]
    exact .nil type keys [] out
  | cons n ns ih =>
    obtain ⟨hn, hns⟩ := List.cons_subset.1 hns
    rw [List.forall_mem_cons] at htype
    obtain ⟨rfl, htype⟩ := htype
    rw [List.map_cons, List.append_cons] at hapart
    have hout : ∀ m ∈ out, meets m n = false := by
      intro m hm
      have hlast := (List.pairwise_append.1 (List.pairwise_append.1 hapart).1).2.2 m hm
      rwa [List.forall_mem_singleton, meets_arranged] at hlast
    rw [List.map_cons, List.map_cons, List.append_cons]
    exact collects_written h hn (hplace n hn) (below n hn) hout (ih hns htype hapart)

/-- The groups of other types are added one behind the other. -/
theorem collects_groups {groups : List (String × List SelectionNode)}
    (hgroups : ∀ g ∈ groups, t.index.hasType g.1 = true ∧ ∀ n ∈ g.2, n ∈ s ∧ n.onType = g.1)
    (hapart : (out ++ groups.flatMap fun g => g.2.map SelectionNode.arranged).Pairwise
      fun a b => meets a b = false) :
    t.Collects enclosing keys []
      (groups.map fun g => .inline (some g.1) [] (g.2.map SelectionNode.written)) out
        (out ++ groups.flatMap fun g => g.2.map SelectionNode.arranged) := by
  induction groups generalizing out with
  | nil =>
    rw [List.map_nil, List.flatMap_nil, List.append_nil]
    exact .nil enclosing keys [] out
  | cons g groups ih =>
    rw [List.forall_mem_cons] at hgroups
    obtain ⟨⟨hknown, hg⟩, hgroups⟩ := hgroups
    rw [List.flatMap_cons, ← List.append_assoc] at hapart ⊢
    have hchecked : t.checkType g.1 keys = .ok () := if_pos hknown
    have hgroup := collects_fields h hplace below (fun n hn => (hg n hn).1)
      (fun n hn => (hg n hn).2) (List.pairwise_append.1 hapart).1
    exact .inline hchecked hgroup (ih hgroups hapart)

/-- What the selections in braces stand for is collected from them. -/
theorem collects_grouped : t.Collects enclosing keys []
    (Selection.grouped enclosing (SelectionNode.writtenList s)) [] (s.arranged enclosing) := by
  have hapart := pairwise_arranged enclosing h.siblings.1
  have hforeign : ∀ g ∈ gather (s.foreign enclosing),
      t.index.hasType g.1 = true ∧ ∀ n ∈ g.2, n ∈ s ∧ n.onType = g.1 := by
    intro g hg
    obtain ⟨n, hn, htype, hother⟩ := SelectionSet.exists_of_mem_gather hg
    have hknown := ((hplace n hn).shown.resolve_left hother).2
    exact ⟨htype ▸ hknown, fun n hn => SelectionSet.mem_of_mem_group hg hn⟩
  rw [SelectionSet.arranged_eq] at hapart ⊢
  rw [SelectionSet.grouped_writtenList]
  have htype : ∀ n ∈ s.filter (·.onType = enclosing), n.onType = enclosing := by
    intro n hn
    simpa using (List.mem_filter.1 hn).2
  have hown : t.Collects enclosing keys []
      ((s.filter (·.onType = enclosing)).map SelectionNode.written) []
      ((s.filter (·.onType = enclosing)).map SelectionNode.arranged) :=
    collects_fields h hplace below (fun n hn => (List.mem_filter.1 hn).1) htype
      (List.pairwise_append.1 hapart).1
  exact hown.append (collects_groups h hplace below hforeign hapart)

end Siblings

/-- Fields that were gathered are collected again. -/
theorem collects_arranged {s : SelectionSet} (h : t.Remakes s)
    (hplace : ∀ n ∈ s, t.Gathers enclosing keys n) :
    t.Collects enclosing keys [] (Selection.grouped enclosing (SelectionNode.writtenList s)) []
      (s.arranged enclosing) := by
  have hbelow : ∀ (n : SelectionNode) {enclosing : String} {keys : List String} {s : SelectionSet},
      t.Remakes s → n ∈ s → t.Gathers enclosing keys n → t.Recollects n := by
    intro n
    induction n using SelectionNode.ofChildren with
    | step n ih =>
      intro _ _ s h hn hplace
      have hchildren := h.children hn
      exact collects_grouped hchildren (fun c hc => hplace.of_child hc)
        fun c hc => ih c hc hchildren hc (hplace.of_child hc)
  exact collects_grouped h hplace fun n hn => hbelow n h hn (hplace n hn)

end Scope
end FederatedQuery
