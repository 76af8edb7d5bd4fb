import FederatedQuery.Operation
import FederatedQuery.SchemaIndex

/-!
Collection of an operation's fields from a document. A spread stands for the fields of its fragment,
unless the fragment is being expanded already. Each expansion leaves fewer fragments to enter, and
everything else goes down the text, so collection ends on every document.
-/
namespace FederatedQuery

structure Scope where
  index : SchemaIndex
  fragments : List FragmentNode
  definitions : List VariableDefinition

namespace Scope

def fragment? (s : Scope) (name : String) : Option FragmentNode :=
  s.fragments.find? (·.name = name)

def unexpanded (s : Scope) (spreads : List String) : Nat :=
  (s.fragments.filter fun f => f.name ∉ spreads).length

theorem unexpanded_lt {s : Scope} {spreads : List String} {name : String} {f : FragmentNode}
    (hn : name ∉ spreads) (hf : s.fragment? name = some f) :
    s.unexpanded (name :: spreads) < s.unexpanded spreads := by
  have hmem : f ∈ s.fragments := List.mem_of_find?_eq_some hf
  have hname : f.name = name := by simpa using List.find?_some hf
  unfold unexpanded
  generalize s.fragments = l at hmem
  induction l with
  | nil => simp at hmem
  | cons g l ih =>
    have hle : (l.filter fun f => f.name ∉ name :: spreads).length ≤
        (l.filter fun f => f.name ∉ spreads).length := by
      simp only [← List.countP_eq_length_filter]
      exact List.countP_mono_left fun x _ hx => by grind
    rcases List.mem_cons.1 hmem with rfl | hm
    · grind
    · have := ih hm
      grind

theorem spread_lt {s : Scope} {spreads : List String} {name : String} {f : FragmentNode}
    (hn : name ∉ spreads) (hf : s.fragment? name = some f) {rest : List Selection} :
    s.unexpanded (name :: spreads) * sizeOf s.fragments + sizeOf f.selections <
      s.unexpanded spreads * sizeOf s.fragments + sizeOf rest := by
  have hlt := unexpanded_lt hn hf
  have hmem := List.sizeOf_lt_of_mem (List.mem_of_find?_eq_some hf)
  have hsize : sizeOf f.selections < sizeOf f := by
    cases f
    simp only [FragmentNode.mk.sizeOf_spec]
    omega
  have := Nat.mul_le_mul_right (sizeOf s.fragments) (Nat.succ_le_of_lt hlt)
  rw [Nat.succ_mul] at this
  omega

def checkType (s : Scope) (type : String) (keys : List String) : Except InvalidQuery Unit :=
  if s.index.hasType type then pure () else throw ⟨.unknownType type, keys⟩

def returnType? (s : Scope) (onType name : String) : Option String :=
  if name = typenameField then some "String" else (s.index.field? onType name).map (·.ofType)

def fieldNode (s : Scope) (onType : String) (keys : List String) (alias? : Option String)
    (name : String) (arguments : List Argument) (hasSelection : Bool) :
    Except InvalidQuery SelectionNode := do
  let some ofType := s.returnType? onType name | throw ⟨.unknownField onType name, keys⟩
  if s.index.hasType ofType && !hasSelection then throw ⟨.selectionNeeded name ofType, keys⟩
  if !s.index.hasType ofType && hasSelection then throw ⟨.selectionRefused name ofType, keys⟩
  let arguments := arguments.map Argument.merged
  match (arguments.flatMap Argument.references).find? fun v => s.definitions.all (·.name ≠ v) with
  | some v => throw ⟨.unknownVariable v, keys⟩
  | none => pure ⟨name, alias?, arguments, keys, onType, ofType, [], false⟩

def meets (m n : SelectionNode) : Bool := m.responseKey = n.responseKey && m.onType = n.onType

/-- The fields of `out` with `node` among them: a field that it meets has to be the same and keeps
its sub-selection. Yields the fields in front, the field itself and those behind. -/
def meet (node : SelectionNode) : List SelectionNode →
    Except InvalidQuery (List SelectionNode × SelectionNode × List SelectionNode)
  | [] => pure ([], node, [])
  | m :: rest =>
    if meets m node then
      if m.name = node.name && Argument.sameList m.arguments node.arguments then pure ([], m, rest)
      else throw ⟨.conflict node.responseKey, node.responsePath⟩
    else do
      let (front, met, behind) ← meet node rest
      pure (m :: front, met, behind)

/-- Adds the fields of `selections` to `out`. They are selected on `onType` at the place to which
`keys` lead; `spreads` are the fragments being expanded there, the innermost first. -/
def collect (s : Scope) (onType : String) (keys spreads : List String)
    (selections : List Selection) (out : List SelectionNode) :
    Except InvalidQuery (List SelectionNode) :=
  match selections with
  | [] => pure out
  | .field alias? name arguments _ below :: rest => do
    let keys' := keys ++ [alias?.getD name]
    let node ← s.fieldNode onType keys' alias? name arguments !below.isEmpty
    let (front, met, behind) ← meet node out
    let children ← s.collect node.ofType keys' spreads below met.children
    s.collect onType keys spreads rest (front ++ { met with children } :: behind)
  | .inline condition? _ below :: rest => do
    let onType' := condition?.getD onType
    s.checkType onType' keys
    let out ← s.collect onType' keys spreads below out
    s.collect onType keys spreads rest out
  | .spread name _ :: rest =>
    if _ : name ∈ spreads then s.collect onType keys spreads rest out
    else
      match _ : s.fragment? name with
      | none => throw ⟨.unknownFragment name, keys⟩
      | some f => do
        s.checkType f.condition keys
        let out ← s.collect f.condition keys (name :: spreads) f.selections out
        s.collect onType keys spreads rest out
termination_by s.unexpanded spreads * sizeOf s.fragments + sizeOf selections
decreasing_by
  all_goals first
    | exact spread_lt ‹_› ‹_›
    | (simp only [List.cons.sizeOf_spec, Selection.field.sizeOf_spec, Selection.inline.sizeOf_spec]
       omega)

end Scope

end FederatedQuery
