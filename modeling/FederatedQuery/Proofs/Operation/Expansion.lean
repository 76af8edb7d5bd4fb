import FederatedQuery.Proofs.Operation.Complete
import FederatedQuery.Proofs.Outcome

/-!
The stack of fragments. The collection as a program whose calls share one stack: a fragment is put
on it before its body is entered and is taken off again behind it. Nothing in the program itself
keeps its calls from nesting without end, but a fragment is entered only if it is not on the stack,
and so the calls end on every document.
-/
namespace FederatedQuery

structure Call where
  found : List String
  left : List String

structure Expansion where
  stack : List String
  calls : List Call

namespace Expansion

def push (name : String) (e : Expansion) : Expansion := { e with stack := name :: e.stack }

def pop (e : Expansion) : Expansion := { e with stack := e.stack.tail }

def left (found : List String) (e : Expansion) : Expansion :=
  { e with calls := e.calls ++ [⟨found, e.stack⟩] }

end Expansion

/-- Programs over one stack. They fail where calls nest deeper than allowed. -/
abbrev Expanding := StateT Expansion Option

def Expanding.stack : Expanding (List String) := return (← get).stack

inductive Request where
  | selections (onType : String) (keys : List String) (selections : List Selection)
      (out : SelectionSet)
  | field (onType : String) (keys : List String) (alias? : Option String) (name : String)
      (arguments : List Argument) (below : List Selection) (out : SelectionSet)

namespace Scope
section Bodies
variable (s : Scope) (call : Request → Expanding (Except InvalidQuery SelectionSet))

def expandEach (onType : String) (keys : List String) :
    List Selection → SelectionSet → Expanding (Except InvalidQuery SelectionSet)
  | [], out => return .ok out
  | .field alias? name arguments _ below :: rest, out => do
    match ← call (.field onType (keys ++ [alias?.getD name]) alias? name arguments below out) with
    | .error fault => return .error fault
    | .ok out => expandEach onType keys rest out
  | .inline condition? _ below :: rest, out =>
    match s.checkType (condition?.getD onType) keys with
    | .error fault => return .error fault
    | .ok () => do
      match ← call (.selections (condition?.getD onType) keys below out) with
      | .error fault => return .error fault
      | .ok out => expandEach onType keys rest out
  | .spread name _ :: rest, out => do
    if name ∈ (← Expanding.stack) then expandEach onType keys rest out
    else
      match s.fragment? name with
      | none => return .error ⟨.unknownFragment name, keys⟩
      | some f =>
        match s.checkType f.condition keys with
        | .error fault => return .error fault
        | .ok () => do
          modify (·.push name)
          let result ← call (.selections f.condition keys f.selections out)
          -- the fragment is done with even if its body has a fault
          modify (·.pop)
          match result with
          | .error fault => return .error fault
          | .ok out => expandEach onType keys rest out

def expandField (onType : String) (keys : List String) (alias? : Option String) (name : String)
    (arguments : List Argument) (below : List Selection) (out : SelectionSet) :
    Expanding (Except InvalidQuery SelectionSet) :=
  match s.fieldNode onType keys alias? name arguments !below.isEmpty with
  | .error fault => return .error fault
  | .ok node =>
    match meet node out with
    | .error fault => return .error fault
    | .ok (front, met, behind) => do
      match ← call (.selections node.ofType keys below met.children) with
      | .error fault => return .error fault
      | .ok children => return .ok (front ++ { met with children } :: behind)

def answer : Request → Expanding (Except InvalidQuery SelectionSet)
  | .selections onType keys selections out => s.expandEach call onType keys selections out
  | .field onType keys alias? name arguments below out =>
    s.expandField call onType keys alias? name arguments below out

end Bodies

def expand (s : Scope) : (depth : Nat) → Request → Expanding (Except InvalidQuery SelectionSet)
  | 0, _ => failure
  | depth + 1, request => do
    let found ← Expanding.stack
    let result ← s.answer (s.expand depth) request
    modify (·.left found)
    return result

end Scope

def Document.expand (d : Document) (depth : Nat) (name? : Option String) (x : SchemaIndex) :
    Expanding (Except InvalidQuery Operation) :=
  match d.select name? with
  | .error fault => return .error fault
  | .ok (name?, o) =>
    match x.rootType o.kind with
    | none => return .error ⟨.noRoot o.kind, []⟩
    | some rootType => do
      let definitions := o.definitions.map fun v => (⟨v.name, v.type.text⟩ : VariableDefinition)
      let s : Scope := ⟨x, d.fragments, definitions⟩
      match ← s.expand depth (.selections rootType [] o.selections []) with
      | .error fault => return .error fault
      | .ok selection => return .ok ⟨o.kind, name?, rootType, definitions, selection⟩

/-! ### What a call does to the stack -/

structure Stacked (fragments : List FragmentNode) (stack : List String) : Prop where
  nodup : stack.Nodup
  defined : ∀ name ∈ stack, name ∈ fragments.map (·.name)

namespace Stacked
variable {fragments : List FragmentNode} {stack : List String} {name : String}

theorem nil (fragments : List FragmentNode) : Stacked fragments [] := ⟨.nil, nofun⟩

theorem push (h : Stacked fragments stack) (fresh : name ∉ stack)
    (defined : name ∈ fragments.map (·.name)) : Stacked fragments (name :: stack) :=
  ⟨List.nodup_cons.2 ⟨fresh, h.nodup⟩, List.forall_mem_cons.2 ⟨defined, h.defined⟩⟩

theorem length_le (h : Stacked fragments stack) : stack.length ≤ fragments.length := by
  have hle := h.nodup.length_le_of_subset h.defined
  rwa [List.length_map] at hle

end Stacked

structure Call.Balanced (c : Call) (fragments : List FragmentNode) : Prop where
  restored : c.left = c.found
  stacked : Stacked fragments c.found
  bounded : c.found.length ≤ fragments.length

/-- From some depth on the program ends with this result, which no greater depth changes. The stack
`after` it is known, and all calls on the way were balanced. -/
def Halts {α : Type} (fragments : List FragmentNode) (before : List String)
    (program : (depth : Nat) → Expanding α) (result : α) (after : List String) : Prop :=
  ∃ enough more, (∀ depth, enough ≤ depth → ∀ calls,
    program depth ⟨before, calls⟩ = some (result, ⟨after, calls ++ more⟩)) ∧
      ∀ c ∈ more, c.Balanced fragments

namespace Halts
variable {α β : Type} {fragments : List FragmentNode} {stack middle after : List String}
  {program : Nat → Expanding α} {result : α}

theorem of_step {program : Expanding α} (h : ∀ calls, program ⟨stack, calls⟩ =
    some (result, ⟨after, calls⟩)) : Halts fragments stack (fun _ => program) result after :=
  ⟨0, [], fun _ _ calls => by rw [List.append_nil]; exact h calls, nofun⟩

theorem pure (fragments : List FragmentNode) (stack : List String) (result : α) :
    Halts fragments stack (fun _ => pure result) result stack :=
  .of_step fun _ => rfl

theorem read (fragments : List FragmentNode) (stack : List String) :
    Halts fragments stack (fun _ => Expanding.stack) stack stack :=
  .of_step fun _ => rfl

theorem push (fragments : List FragmentNode) (stack : List String) (name : String) :
    Halts fragments stack (fun _ => modify (·.push name)) () (name :: stack) :=
  .of_step fun _ => rfl

theorem pop (fragments : List FragmentNode) (stack : List String) (name : String) :
    Halts fragments (name :: stack) (fun _ => modify (·.pop)) () stack :=
  .of_step fun _ => rfl

theorem bind {next : Nat → α → Expanding β} {result' : β}
    (h : Halts fragments stack program result middle)
    (hnext : Halts fragments middle (fun depth => next depth result) result' after) :
    Halts fragments stack (fun depth => program depth >>= next depth) result' after := by
  obtain ⟨enough, first, hprogram, hfirst⟩ := h
  obtain ⟨enough', second, hnext, hsecond⟩ := hnext
  refine ⟨max enough enough', first ++ second, fun depth hdepth calls => ?_,
    List.forall_mem_append.2 ⟨hfirst, hsecond⟩⟩
  rw [Nat.max_le] at hdepth
  rw [← List.append_assoc, ← hnext depth hdepth.2]
  change (program depth ⟨stack, calls⟩ >>= fun r => next depth r.1 r.2) = _
  rw [hprogram depth hdepth.1]
  rfl

/-- A program that passes a fault on. -/
theorem andThen {ε γ : Type} {program : Nat → Expanding (Except ε γ)} {r : Except ε γ}
    {next : Nat → Except ε γ → Expanding (Except ε β)} {g : γ → Except ε β}
    (h : Halts fragments stack program r stack)
    (hfault : ∀ depth fault, next depth (.error fault) = Pure.pure (.error fault))
    (hnext : ∀ a, r = .ok a → Halts fragments stack (fun depth => next depth (.ok a)) (g a) stack) :
    Halts fragments stack (fun depth => program depth >>= next depth) (r >>= g) stack := by
  cases r with
  | error fault =>
    refine h.bind ?_
    simp only [hfault]
    exact .pure fragments stack _
  | ok a => exact h.bind (hnext a rfl)

/-- A call is balanced if what happens in it leaves the stack as it was. -/
theorem call {s : Scope} {request : Request} {result : Except InvalidQuery SelectionSet}
    (h : Halts fragments stack (fun depth => s.answer (s.expand depth) request) result stack)
    (hstack : Stacked fragments stack) :
    Halts fragments stack (fun depth => s.expand depth request) result stack := by
  obtain ⟨enough, more, hanswer, hmore⟩ := h
  have hcall : (⟨stack, stack⟩ : Call).Balanced fragments := ⟨rfl, hstack, hstack.length_le⟩
  refine ⟨enough + 1, more ++ [⟨stack, stack⟩], fun depth hdepth calls => ?_,
    List.forall_mem_append.2 ⟨hmore, by simpa using hcall⟩⟩
  obtain ⟨depth, rfl⟩ : ∃ less, depth = less + 1 := Nat.exists_eq_add_of_le' (by omega)
  have hresult := hanswer depth (Nat.le_of_succ_le_succ hdepth) calls
  change (s.answer (s.expand depth) request ⟨stack, calls⟩ >>= fun r =>
    some (r.1, r.2.left stack)) = _
  dsimp only at hresult
  rw [hresult, ← List.append_assoc]
  rfl

end Halts

namespace Scope
variable {s : Scope} {onType : String} {keys spreads : List String}
  {selections : List Selection} {out : SelectionSet}

theorem expand_halts {result : Except InvalidQuery SelectionSet}
    (h : Halts s.fragments spreads
      (fun depth => s.expandEach (s.expand depth) onType keys selections out) result spreads)
    (hspreads : Stacked s.fragments spreads) :
    Halts s.fragments spreads
      (fun depth => s.expand depth (.selections onType keys selections out)) result spreads :=
  Halts.call h hspreads

def collectField (s : Scope) (onType : String) (keys spreads : List String)
    (alias? : Option String) (name : String) (arguments : List Argument) (below : List Selection)
    (out : SelectionSet) : Except InvalidQuery SelectionSet := do
  let node ← s.fieldNode onType keys alias? name arguments !below.isEmpty
  let (front, met, behind) ← meet node out
  let children ← s.collect node.ofType keys spreads below met.children
  pure (front ++ { met with children } :: behind)

section Field
variable {alias? : Option String} {name : String} {arguments : List Argument}
  {below : List Selection}

theorem collect_field (directives : List Directive) (rest : List Selection) :
    s.collect onType keys spreads (.field alias? name arguments directives below :: rest) out =
      s.collectField onType (keys ++ [alias?.getD name]) spreads alias? name arguments below out >>=
        s.collect onType keys spreads rest := by
  rw [collect, collectField]
  simp only [bind_assoc, pure_bind]

theorem collectField_eq_ok {collected : SelectionSet}
    (h : s.collectField onType keys spreads alias? name arguments below out = .ok collected) :
    ∃ front, ∃ met : SelectionNode, ∃ behind children,
      collected = front ++ { met with children } :: behind := by
  obtain ⟨node, -, h⟩ := bind_eq_ok.1 h
  obtain ⟨⟨front, met, behind⟩, -, h⟩ := bind_eq_ok.1 h
  obtain ⟨children, -, h⟩ := bind_eq_ok.1 h
  cases h
  exact ⟨front, met, behind, children, rfl⟩

theorem expandField_halts (hspreads : Stacked s.fragments spreads)
    (hbelow : ∀ node met : SelectionNode, Halts s.fragments spreads
      (fun depth => s.expand depth (.selections node.ofType keys below met.children))
      (s.collect node.ofType keys spreads below met.children) spreads) :
    Halts s.fragments spreads
      (fun depth => s.expand depth (.field onType keys alias? name arguments below out))
      (s.collectField onType keys spreads alias? name arguments below out) spreads := by
  refine Halts.call ?_ hspreads
  simp only [answer, expandField, collectField]
  cases s.fieldNode onType keys alias? name arguments !below.isEmpty with
  | error fault => exact .pure _ _ _
  | ok node =>
    rw [ok_bind]
    dsimp only
    cases meet node out with
    | error fault => exact .pure _ _ _
    | ok place =>
      obtain ⟨front, met, behind⟩ := place
      exact (hbelow node met).andThen (fun _ _ => rfl) fun children _ => .pure _ _ _

end Field

/-- The calls end, with the fields that are collected or with the same fault. -/
theorem expandEach_halts (hspreads : Stacked s.fragments spreads) :
    Halts s.fragments spreads
      (fun depth => s.expandEach (s.expand depth) onType keys selections out)
      (s.collect onType keys spreads selections out) spreads := by
  induction onType, keys, spreads, selections, out using Scope.collect.induct s with
  | case1 =>
    rw [collect]
    exact .pure _ _ _
  | case2 onType keys spreads out alias? name arguments directives below rest _ deeper others =>
    have hbelow := fun node met => expand_halts (deeper node met hspreads) hspreads
    rw [collect_field]
    refine (expandField_halts hspreads hbelow).andThen (fun _ _ => rfl) fun collected hfield => ?_
    obtain ⟨front, met, behind, children, rfl⟩ := collectField_eq_ok hfield
    exact others front met behind children hspreads
  | case3 onType keys spreads out condition? _ below rest _ deeper others =>
    simp only [expandEach]
    rw [collect]
    cases s.checkType (condition?.getD onType) keys with
    | error fault => exact .pure _ _ _
    | ok _ =>
      have hcall := expand_halts (deeper hspreads) hspreads
      exact hcall.andThen (fun _ _ => rfl) fun middle _ => others middle hspreads
  | case4 _ _ _ _ _ _ _ known others =>
    simp only [expandEach]
    rw [collect_known known]
    refine (Halts.read _ _).bind ?_
    simp only [if_pos known]
    exact others hspreads
  | case5 _ _ _ _ _ _ _ fresh hnone =>
    simp only [expandEach]
    rw [collect_undefined fresh hnone]
    refine (Halts.read _ _).bind ?_
    simp only [if_neg fresh, hnone]
    exact .pure _ _ _
  | case6 onType keys spreads out name _ rest fresh f defined deeper others =>
    have hname : f.name = name := by simpa using List.find?_some defined
    have hmem : name ∈ s.fragments.map (·.name) :=
      hname ▸ List.mem_map_of_mem (List.mem_of_find?_eq_some defined)
    have hinner := hspreads.push fresh hmem
    have hcall := expand_halts (deeper hinner) hinner
    simp only [expandEach]
    rw [collect_spread fresh defined]
    refine (Halts.read _ _).bind ?_
    simp only [if_neg fresh, defined]
    cases s.checkType f.condition keys with
    | error fault => exact .pure _ _ _
    | ok _ =>
      refine (Halts.push _ _ _).bind (hcall.bind ((Halts.pop _ _ _).bind ?_))
      cases s.collect f.condition keys (name :: spreads) f.selections out with
      | error fault => exact .pure _ _ _
      | ok middle => exact others middle hspreads

end Scope

namespace Document

theorem expand_operation (d : Document) (name? : Option String) (x : SchemaIndex) :
    Halts d.fragments [] (fun depth => d.expand depth name? x) (d.operation name? x) [] := by
  unfold expand operation
  cases d.select name? with
  | error fault => exact .pure _ _ _
  | ok chosen =>
    obtain ⟨chosen, o⟩ := chosen
    rw [ok_bind]
    dsimp only
    cases x.rootType o.kind with
    | none => exact .pure _ _ _
    | some rootType =>
      have hstack := Stacked.nil d.fragments
      refine (Scope.expand_halts (Scope.expandEach_halts hstack) hstack).andThen (fun _ _ => rfl) ?_
      exact fun selection _ => .pure _ _ _

/-- The calls end on every document, whatever its fragments lead to: from some depth on they come to
the operation or to its fault. Every call finds fragments of the document on the stack, none of them
twice, and leaves the stack as it found it, with a fault as well. -/
theorem collection_ends (d : Document) (name? : Option String) (x : SchemaIndex) :
    ∃ enough calls, (∀ depth, enough ≤ depth →
      d.expand depth name? x ⟨[], []⟩ = some (d.operation name? x, ⟨[], calls⟩)) ∧
        ∀ c ∈ calls, c.Balanced d.fragments := by
  obtain ⟨enough, calls, hhalts, hcalls⟩ := d.expand_operation name? x
  exact ⟨enough, calls, fun depth hdepth => hhalts depth hdepth [], hcalls⟩

end Document
end FederatedQuery
