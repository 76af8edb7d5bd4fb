import FederatedQuery.Proofs.Grammar.Selection

/-!
Documents of one operation: from the text that is rendered for it the operation is read back,
unless it has too many levels.
-/
namespace FederatedQuery
open Reader Grammar

/-! ### How an operation is rendered -/

def VariableNode.rendered (v : VariableNode) : List Char :=
  '$' :: (v.name.toList ++ ':' :: ' ' :: v.type.text.toList)

def VariableNode.listText (definitions : List VariableNode) : List Char :=
  if definitions.isEmpty then [] else bracketed '(' ')' (definitions.map rendered)

structure VariableNode.Written (v : VariableNode) : Prop where
  named : IsName v.name
  typed : v.type.Spelled
  constants : v.constants = []

def OperationNode.rendered (o : OperationNode) : List Char :=
  o.kind.text.toList ++ (VariableNode.listText o.definitions ++
    ' ' :: Selection.braced (o.selections.map Selection.rendered))

structure OperationNode.Written (o : OperationNode) : Prop where
  definitions : ∀ v ∈ o.definitions, v.Written
  directives : o.directives = []
  filled : o.selections ≠ []
  each : ∀ t ∈ o.selections, t.Written

namespace Selection

mutual
def levels : Selection → Nat
  | .field _ _ _ _ below => levelsOfList below
  | .inline _ _ below => levelsOfList below
  | .spread _ _ => 0

def levelsOfList : List Selection → Nat
  | [] => 0
  | t :: rest => max (t.levels + 1) (levelsOfList rest)
end

end Selection

/-! ### Reading it back -/

namespace Grammar
variable {rest : List Char} {bound : Nat}

theorem variableNode_append {v : VariableNode} (hv : v.Written) (hbound : v.rendered.length ≤ bound)
    (h : Follows ['!', '@', '='] rest) :
    variableNode bound (v.rendered ++ rest) = some (v, rest) := by
  obtain ⟨hname, htype, hconstants⟩ := hv
  have hdepth := depth_le_length v.type
  simp only [VariableNode.rendered, List.length_append, List.length_cons] at hbound
  have hmark : rest.head? ≠ some '!' := by
    intro hhead
    obtain ⟨more, rfl⟩ := List.head?_eq_some_iff.1 hhead
    exact h.stops '!' (by rw [skipped_of_isSolid (by decide)]; rfl) (by decide)
  have hread : typeRef bound (' ' :: (v.type.text.toList ++ rest)) = some (v.type, rest) := by
    rw [typeRef, Skips.token _ ' ' _ (by decide)]
    exact typeRef_append htype (by omega) h.ends hmark
  have hdefault : defaultValue bound rest = none := bind_of_none (h.symbol rfl (by decide))
  have htext : v.rendered ++ rest =
      '$' :: (v.name.toList ++ ':' :: ' ' :: (v.type.text.toList ++ rest)) := by
    simp [VariableNode.rendered]
  rw [htext, variableNode, bind_of_some (a := ()) rfl,
    bind_of_some (name_append hname (ends_cons (by decide) _)), bind_of_some (a := ()) rfl,
    bind_of_some hread, bind_of_some (directives_of_follows h (by decide)),
    bind_of_some (maybe_of_none hdefault)]
  obtain ⟨name, type, constants⟩ := v
  cases hconstants
  rfl

theorem variableNodes_append {definitions : List VariableNode} (h : ∀ v ∈ definitions, v.Written)
    (hbound : (bracketed '(' ')' (definitions.map VariableNode.rendered)).length ≤ bound + 1) :
    variableNodes bound (bracketed '(' ')' (definitions.map VariableNode.rendered) ++ rest) =
      some (definitions, rest) := by
  obtain ⟨henough, hlengths⟩ := fits_of_bracketed hbound
  have hlisted : Listed (variableNode bound) VariableNode.rendered [',', ' ']
      (Follows ['!', '@', '=']) definitions (')' :: rest) :=
    ⟨((Skips.symbol "$").bind _).append (by decide),
      fun v hv s hs => variableNode_append (h v hv) (hlengths v hv) hs,
      fun v _ s => ⟨ends_cons (by decide) _, fun c hc => by cases hc; decide⟩,
      follows_cons (by decide) (by decide) (by decide) rest, rfl⟩
  have hread := hlisted.many henough
  rw [bracketed, List.cons_append, List.append_assoc, List.singleton_append, variableNodes,
    bind_of_some (a := ()) rfl, bind_of_some hread, bind_of_some (a := ()) rfl]
  rfl

theorem operationKind_append (kind : OperationKind) (s : List Char) :
    operationKind (kind.text.toList ++ s) = some (kind, s) := by
  cases kind <;> rfl

theorem maybe_variableNodes {definitions : List VariableNode} (h : ∀ v ∈ definitions, v.Written)
    (hbound : (VariableNode.listText definitions).length ≤ bound + 1)
    (hrest : Follows ['(', '@'] rest) :
    ∃ definitions?, maybe (variableNodes bound) (VariableNode.listText definitions ++ rest) =
      some (definitions?, rest) ∧ definitions?.getD [] = definitions := by
  cases definitions with
  | nil => exact ⟨none, maybe_of_none (bind_of_none (hrest.symbol rfl (by decide))), rfl⟩
  | cons v definitions =>
    exact ⟨some (v :: definitions), maybe_of_some (variableNodes_append h hbound), rfl⟩

theorem operationNode_append {o : OperationNode} (ho : o.Written)
    (hbound : o.rendered.length ≤ bound) (rest : List Char) :
    operationNode bound (o.rendered ++ rest) = some (.operation none o, rest) := by
  obtain ⟨kind, definitions, directives, selections⟩ := o
  obtain ⟨hdefinitions, hdirectives, hfilled, heach⟩ := ho
  cases hdirectives
  dsimp only at hdefinitions hfilled heach
  simp only [OperationNode.rendered, List.length_append, List.length_cons] at hbound
  have hbehind : Follows ['(', '@']
      (' ' :: (Selection.braced (selections.map Selection.rendered) ++ rest)) :=
    follows_space (by decide) (by decide) _
  have hname : name (VariableNode.listText definitions ++
      ' ' :: (Selection.braced (selections.map Selection.rendered) ++ rest)) = none := by
    refine name_of_head fun c hc => ?_
    cases definitions <;> cases hc <;> decide
  have hlist : (VariableNode.listText definitions).length ≤ bound + 1 := by omega
  obtain ⟨definitions?, hread, hdefinitions?⟩ := maybe_variableNodes hdefinitions hlist hbehind
  have hset : selectionSet bound
      (' ' :: (Selection.braced (selections.map Selection.rendered) ++ rest)) =
        some (selections, rest) := by
    rw [selectionSet_skips bound ' ' _ (by decide)]
    exact selectionSet_append hfilled heach (fun t ht => readsBack (heach t ht)) (by omega) rest
  rw [OperationNode.rendered, List.append_assoc, List.append_assoc, List.cons_append, operationNode]
  refine orElse_of_some ?_
  rw [bind_of_some (operationKind_append kind _), bind_of_some (maybe_of_none hname),
    bind_of_some hread, bind_of_some (directives_of_follows hbehind (by decide)),
    bind_of_some hset, hdefinitions?]
  rfl

theorem executableNodes_rendered {o : OperationNode} (ho : o.Written) :
    (executableNodes o.rendered.length).all? o.rendered = some [.operation none o] := by
  have hfirst : operationNode o.rendered.length o.rendered = some (.operation none o, []) := by
    simpa using operationNode_append ho (Nat.le_refl _) []
  have hend : ∀ bound, (operationNode bound <|> fragmentNode bound) [] = none := by
    intro bound
    cases bound <;> rfl
  have hmany : many1 o.rendered.length (operationNode o.rendered.length <|>
      fragmentNode o.rendered.length) o.rendered = some ([.operation none o], []) := by
    rw [many1, bind_of_some (orElse_of_some hfirst), bind_of_some (many_of_none _ (hend _))]
    rfl
  have hnodes : executableNodes o.rendered.length o.rendered = some ([.operation none o], []) := by
    rw [executableNodes, bind_of_some hmany]
    rfl
  simp [Reader.all?, hnodes]

end Grammar

namespace Document

/-! ### Levels -/

def within (levels left : Nat) : Except ParseError Unit :=
  if levels ≤ left then .ok () else .error .recursionLimitExceeded

theorem within_succ (levels left : Nat) : within (levels + 1) (left + 1) = within levels left := by
  simp [within]

theorem within_bind (a b left : Nat) :
    (within a left >>= fun _ => within b left) = within (max a b) left := by
  by_cases ha : a ≤ left
  · simp only [within, Nat.max_le, ha, true_and, if_true]
    rfl
  · simp only [within, Nat.max_le, ha, false_and, if_false]
    rfl

theorem checkList_eq {selections : List Selection} {left : Nat}
    (h : ∀ t ∈ selections, t.check left = within t.levels left) :
    Selection.checkList left selections =
      within (Selection.levelsOfList selections) (left + 1) := by
  induction selections with
  | nil => rfl
  | cons t rest ih =>
    rw [List.forall_mem_cons] at h
    rw [Selection.checkList, h.1, ih h.2, ← within_succ, within_bind]
    rfl

theorem checkBelow_eq {selections : List Selection}
    (h : ∀ t ∈ selections, ∀ left, t.check left = within t.levels left) (left : Nat) :
    Selection.checkBelow left selections = within (Selection.levelsOfList selections) left := by
  cases selections with
  | nil => rfl
  | cons t rest =>
    cases left with
    | zero =>
      have hdeep : ¬Selection.levelsOfList (t :: rest) ≤ 0 := by
        rw [Selection.levelsOfList]
        omega
      rw [within, if_neg hdeep]
      rfl
    | succ left => exact checkList_eq fun u hu => h u hu left

theorem check_eq {t : Selection} (ht : t.Written) (left : Nat) :
    t.check left = within t.levels left := by
  induction ht generalizing left with
  | @field alias? name args below aliased named given each ih =>
    have hfinite : (args.all fun a => a.value.isFinite) = true :=
      List.all_eq_true.2 fun a ha => (given a ha).1.value.isFinite (given a ha).2
    rw [Selection.check, hfinite]
    exact checkBelow_eq ih left
  | @inline condition below named filled each ih =>
    rw [Selection.check]
    exact checkBelow_eq ih left

/-- The text of an operation is read as a document of that operation, unless it has too many
levels. -/
theorem parse_rendered {o : OperationNode} (ho : o.Written) {text : String}
    (htext : text.toList = o.rendered) :
    parse text = if Selection.levelsOfList o.selections ≤ nestingLimit + 1
      then .ok ⟨.anonymous o, []⟩ else .error .recursionLimitExceeded := by
  have hcheck : o.check = within (Selection.levelsOfList o.selections) (nestingLimit + 1) := by
    have hconstants : (o.definitions.all fun v => v.constants.all Value.isFinite) = true :=
      List.all_eq_true.2 fun v hv => by simp [(ho.definitions v hv).constants]
    rw [OperationNode.check, hconstants, ho.directives]
    exact checkList_eq fun t ht => check_eq (ho.each t ht) nestingLimit
  have hparse : parse text = o.check >>= fun _ => .ok ⟨.anonymous o, []⟩ := by
    unfold parse
    dsimp only
    rw [htext, Grammar.executableNodes_rendered ho]
    change ((o.check >>= fun _ => List.forM [] ExecutableNode.check) >>= fun _ => _) = _
    cases o.check <;> rfl
  rw [hparse, hcheck, within]
  split <;> rfl

end Document

/-! ### What a text can hold -/

structure VariableNode.Spelled (v : VariableNode) : Prop where
  named : IsName v.name
  typed : v.type.Spelled

structure OperationNode.Spelled (o : OperationNode) : Prop where
  definitions : ∀ v ∈ o.definitions, v.Spelled
  each : ∀ t ∈ o.selections, t.Spelled

structure FragmentNode.Spelled (f : FragmentNode) : Prop where
  condition : IsName f.condition
  each : ∀ t ∈ f.selections, t.Spelled

def ExecutableNode.Spelled : ExecutableNode → Prop
  | operation _ o => o.Spelled
  | fragment f => f.Spelled

namespace Grammar

theorem variableNode_spelled (bound : Nat) : (variableNode bound).Yields VariableNode.Spelled := by
  refine .andThen fun _ => name_yields.bind fun name hname => .andThen fun _ => ?_
  refine (Yields.token (rawType_spelled bound)).bind fun type htype => .andThen fun _ => ?_
  exact .andThen fun _ => .pure ⟨hname, htype⟩

theorem operationNode_spelled (bound : Nat) :
    (operationNode bound).Yields ExecutableNode.Spelled := by
  have hset := (selections_spelled bound).1
  have hvariables : (variableNodes bound).Yields fun vs => ∀ v ∈ vs, v.Spelled :=
    .andThen fun _ => ((variableNode_spelled bound).many bound).bind fun vs hvs =>
      .andThen fun _ => .pure hvs
  refine .orElse ?named (hset.bind fun selections hselections => .pure ⟨nofun, hselections⟩)
  refine .andThen fun _ => .andThen fun _ =>
    hvariables.maybe.bind fun definitions? hdefinitions => ?_
  refine .andThen fun _ => hset.bind fun selections hselections => .pure ⟨?_, hselections⟩
  cases definitions? with
  | none => exact nofun
  | some definitions => exact hdefinitions definitions rfl

theorem fragmentNode_spelled (bound : Nat) :
    (fragmentNode bound).Yields ExecutableNode.Spelled := by
  refine .andThen fun _ => .andThen fun _ => condition_yields.bind fun condition hcondition => ?_
  exact .andThen fun _ => (selections_spelled bound).1.bind fun selections hselections =>
    .pure ⟨hcondition, hselections⟩

theorem executableNodes_spelled (bound : Nat) :
    (executableNodes bound).Yields fun nodes => ∀ n ∈ nodes, n.Spelled := by
  have hnode := (operationNode_spelled bound).orElse (fragmentNode_spelled bound)
  refine (hnode.many1 bound).bind fun nodes hnodes => ?_
  exact .andThen fun _ => .pure hnodes.2

end Grammar

/-- The definitions of a document that was read are spelled as documents can spell them. -/
theorem Document.parse_spelled {text : String} {d : Document} (h : Document.parse text = .ok d) :
    (∀ o ∈ d.operations.all, o.Spelled) ∧ ∀ f ∈ d.fragments, f.Spelled := by
  obtain ⟨hoperations, hfragments⟩ := forall_of_parse Grammar.executableNodes_spelled h
  refine ⟨fun o ho => ?_, hfragments⟩
  obtain ⟨_, hspelled⟩ := hoperations o ho
  exact hspelled

end FederatedQuery
