import FederatedQuery.Grammar.Executable
import FederatedQuery.Proofs.Decomposition.Run

/-!
What the grammar of executable documents promises: braces never stand around nothing.
-/
namespace FederatedQuery

/-! ### What a reader yields -/

def Reader.Yields {α : Type} (r : Reader α) (P : α → Prop) : Prop :=
  ∀ s a rest, r s = some (a, rest) → P a

namespace Reader.Yields
variable {α β : Type} {r r' : Reader α} {P : α → Prop} {Q : β → Prop}

theorem trivial (r : Reader α) : r.Yields fun _ => True := fun _ _ _ _ => True.intro

theorem pure {a : α} (h : P a) : (Pure.pure a : Reader α).Yields P := by
  intro s b rest hread
  cases hread
  exact h

theorem failure : (Alternative.failure : Reader α).Yields P := by
  intro s a rest hread
  exact nomatch hread

theorem bind {f : α → Reader β} (h : r.Yields P) (hf : ∀ a, P a → (f a).Yields Q) :
    (r >>= f).Yields Q := by
  intro s b rest hread
  obtain ⟨⟨a, middle⟩, hfirst, hsecond⟩ := Option.bind_eq_some_iff.1 hread
  exact hf a (h s a middle hfirst) middle b rest hsecond

theorem andThen {f : α → Reader β} (hf : ∀ a, (f a).Yields Q) : (r >>= f).Yields Q :=
  (trivial r).bind fun a _ => hf a

theorem orElse (h : r.Yields P) (h' : r'.Yields P) : (r <|> r').Yields P := by
  intro s a rest hread
  have hread : (r s <|> r' s) = some (a, rest) := hread
  cases hfirst : r s with
  | some e =>
    rw [hfirst] at hread
    cases hread
    exact h s a rest hfirst
  | none =>
    rw [hfirst] at hread
    exact h' s a rest hread

theorem maybe (h : r.Yields P) : (Reader.maybe r).Yields fun o => ∀ a ∈ o, P a := by
  intro s o rest hread a ha
  unfold Reader.maybe at hread
  cases hr : r s with
  | none =>
    rw [hr] at hread
    cases hread
    exact nomatch ha
  | some e =>
    rw [hr] at hread
    cases hread
    cases ha
    exact h s e.1 e.2 hr

theorem manyFrom (h : r.Yields P) (bound : Nat) (s : List Char) :
    ∀ a ∈ (Reader.manyFrom r bound s).1, P a := by
  induction bound generalizing s with
  | zero => exact nofun
  | succ bound ih =>
    rw [Reader.manyFrom]
    cases hr : r s with
    | none => exact nofun
    | some e => exact List.forall_mem_cons.2 ⟨h s e.1 e.2 hr, ih e.2⟩

theorem many (bound : Nat) (h : r.Yields P) :
    (Reader.many bound r).Yields fun as => ∀ a ∈ as, P a := by
  intro s as rest hread
  have hsame : (Reader.manyFrom r bound s).1 = as := congrArg Prod.fst (Option.some.inj hread)
  exact hsame ▸ h.manyFrom bound s

theorem many1 (bound : Nat) (h : r.Yields P) :
    (Reader.many1 bound r).Yields fun as => as ≠ [] ∧ ∀ a ∈ as, P a :=
  h.bind fun _ ha => (h.many bound).bind fun as has =>
    pure ⟨List.cons_ne_nil _ as, List.forall_mem_cons.2 ⟨ha, has⟩⟩

theorem all? (h : r.Yields P) {s : List Char} {a : α} (hread : Reader.all? r s = some a) : P a := by
  unfold Reader.all? at hread
  split at hread
  · rename_i b hr
    cases hread
    exact h s a [] hr
  · exact nomatch hread

end Reader.Yields

/-! ### Selections in braces -/

/-- No inline fragment in the selection has nothing in it, at whatever depth. -/
inductive Selection.Filled : Selection → Prop
  | field {alias? : Option String} {name : String} {arguments : List Argument}
      {directives : List Directive} {below : List Selection} (each : ∀ s ∈ below, Filled s) :
      Filled (.field alias? name arguments directives below)
  | inline {condition? : Option String} {directives : List Directive} {below : List Selection}
      (some : below ≠ []) (each : ∀ s ∈ below, Filled s) :
      Filled (.inline condition? directives below)
  | spread {name : String} {directives : List Directive} : Filled (.spread name directives)

def Selection.FilledSet (selections : List Selection) : Prop :=
  selections ≠ [] ∧ ∀ s ∈ selections, s.Filled

def ExecutableNode.Filled : ExecutableNode → Prop
  | operation _ o => Selection.FilledSet o.selections
  | fragment f => Selection.FilledSet f.selections

namespace Grammar
open Reader

theorem selection_filled_of {bound : Nat}
    (h : (selectionSet bound).Yields Selection.FilledSet) :
    (selection (bound + 1)).Yields Selection.Filled := by
  rw [selection]
  refine .orElse ?field (.orElse ?inline ?spread)
  case field =>
    refine .andThen fun alias? => .andThen fun name => .andThen fun args => .andThen fun ds => ?_
    refine h.maybe.bind fun selections hselections => .pure (.field fun s hs => ?_)
    cases selections with
    | none => exact nomatch hs
    | some below => exact (hselections below rfl).2 s hs
  case inline =>
    refine .andThen fun _ => .andThen fun condition? => .andThen fun ds => ?_
    exact h.bind fun below hbelow => .pure (.inline hbelow.1 hbelow.2)
  case spread =>
    refine .andThen fun _ => .andThen fun isCondition => ?_
    cases isCondition with
    | true => exact Yields.failure.bind fun _ h => False.elim h
    | false => exact .andThen fun _ => .andThen fun _ => .pure .spread

theorem selections_filled (bound : Nat) :
    (selectionSet bound).Yields Selection.FilledSet ∧
      (selection bound).Yields Selection.Filled := by
  induction bound with
  | zero =>
    rw [selectionSet, selection]
    exact ⟨.failure, .failure⟩
  | succ bound ih =>
    refine ⟨?_, selection_filled_of ih.1⟩
    rw [selectionSet]
    refine .andThen fun _ => (ih.2.many1 bound).bind fun selections hselections => ?_
    exact .andThen fun _ => .pure hselections

theorem operationNode_filled (bound : Nat) :
    (operationNode bound).Yields ExecutableNode.Filled := by
  have hset := (selections_filled bound).1
  refine .orElse ?_ (hset.bind fun selections hselections => .pure hselections)
  refine .andThen fun _ => .andThen fun _ => .andThen fun _ => .andThen fun _ => ?_
  exact hset.bind fun selections hselections => .pure hselections

theorem fragmentNode_filled (bound : Nat) :
    (fragmentNode bound).Yields ExecutableNode.Filled := by
  refine .andThen fun _ => .andThen fun _ => .andThen fun _ => .andThen fun _ => ?_
  exact (selections_filled bound).1.bind fun selections hselections => .pure hselections

theorem executableNodes_filled (bound : Nat) :
    (executableNodes bound).Yields fun nodes => ∀ n ∈ nodes, n.Filled := by
  have hnode := (operationNode_filled bound).orElse (fragmentNode_filled bound)
  refine (hnode.many1 bound).bind fun nodes hnodes => ?_
  exact .andThen fun _ => .pure hnodes.2

end Grammar

/-! ### Documents -/

def OperationNodes.all : OperationNodes → List OperationNode
  | anonymous o => [o]
  | named operations => operations.map (·.2)

namespace Document

structure Seen.From (d : Seen) (nodes : List ExecutableNode) : Prop where
  operations : ∀ operations ∈ d.operations?, ∀ o ∈ operations.all,
    ∃ name?, .operation name? o ∈ nodes
  fragments : ∀ f ∈ d.fragments, .fragment f ∈ nodes

variable {nodes : List ExecutableNode} {d e : Seen}

theorem Seen.From.addOperation {o : OperationNode} {name? : Option String} (hd : d.From nodes)
    (ho : .operation name? o ∈ nodes) (h : d.addOperation o name? = .ok e) : e.From nodes := by
  have hfirst : ∀ operations : OperationNodes, operations.all = [o] →
      ({ d with operations? := some operations } : Seen).From nodes := by
    intro operations hall
    refine ⟨fun _ hsame => ?_, hd.fragments⟩
    cases hsame
    rw [hall, List.forall_mem_singleton]
    exact ⟨name?, ho⟩
  unfold Seen.addOperation at h
  cases name? with
  | none =>
    dsimp only at h
    split at h
    · exact nomatch h
    · cases h
      exact hfirst _ rfl
  | some name =>
    dsimp only at h
    split at h
    · exact nomatch h
    · rename_i operations hoperations
      split at h
      · exact nomatch h
      · cases h
        refine ⟨fun _ hsame => ?_, hd.fragments⟩
        cases hsame
        rw [OperationNodes.all, List.map_append, List.forall_mem_append]
        exact ⟨hd.operations _ hoperations, List.forall_mem_singleton.2 ⟨some name, ho⟩⟩
    · cases h
      exact hfirst _ rfl

theorem Seen.From.add {n : ExecutableNode} (hd : d.From nodes) (hn : n ∈ nodes)
    (h : d.add n = .ok e) : e.From nodes := by
  cases n with
  | operation name? o => exact hd.addOperation hn h
  | fragment f =>
    rw [Seen.add] at h
    split at h
    · exact nomatch h
    · cases h
      refine ⟨hd.operations, List.forall_mem_append.2 ⟨hd.fragments, ?_⟩⟩
      exact List.forall_mem_singleton.2 hn

theorem Seen.From.foldlM {more : List ExecutableNode} (hd : d.From nodes) (hmore : more ⊆ nodes)
    (h : more.foldlM Seen.add d = .ok e) : e.From nodes := by
  induction more generalizing d with
  | nil =>
    cases h
    exact hd
  | cons n more ih =>
    obtain ⟨hn, hmore⟩ := List.cons_subset.1 hmore
    obtain ⟨middle, hmiddle, h⟩ := bind_eq_ok.1 h
    exact ih (hd.add hn hmiddle) hmore h

/-- What holds of every node that is read holds of every definition of the document. -/
theorem forall_of_parse {P : ExecutableNode → Prop} {text : String} {d : Document}
    (hP : ∀ bound, (Grammar.executableNodes bound).Yields fun nodes => ∀ n ∈ nodes, P n)
    (h : parse text = .ok d) : (∀ o ∈ d.operations.all, ∃ name?, P (.operation name? o)) ∧
      ∀ f ∈ d.fragments, P (.fragment f) := by
  unfold parse at h
  dsimp only at h
  split at h
  · rename_i nodes hnodes
    have hnodes := (hP _).all? hnodes
    obtain ⟨_, -, h⟩ := bind_eq_ok.1 h
    obtain ⟨seen, hseen, h⟩ := bind_eq_ok.1 h
    have hempty : (⟨none, []⟩ : Seen).From nodes := by constructor <;> simp
    have hfrom := hempty.foldlM (List.Subset.refl nodes) hseen
    split at h
    · rename_i operations hoperations
      cases h
      refine ⟨fun o ho => ?_, fun f hf => hnodes _ (hfrom.fragments f hf)⟩
      obtain ⟨name?, hmem⟩ := hfrom.operations _ hoperations o ho
      exact ⟨name?, hnodes _ hmem⟩
    · exact nomatch h
  · exact nomatch h

/-- The definitions of a document that was read have something in their braces. -/
theorem parse_filled {text : String} {d : Document} (h : parse text = .ok d) :
    (∀ o ∈ d.operations.all, Selection.FilledSet o.selections) ∧
      ∀ f ∈ d.fragments, Selection.FilledSet f.selections := by
  obtain ⟨hoperations, hfragments⟩ := forall_of_parse Grammar.executableNodes_filled h
  refine ⟨fun o ho => ?_, hfragments⟩
  obtain ⟨_, hfilled⟩ := hoperations o ho
  exact hfilled

end Document
end FederatedQuery
