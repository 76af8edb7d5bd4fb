import FederatedQuery.Proofs.Decomposition.Conflicts

/-!
The variables of a request. A document defines what its selection uses, each variable once and with
the type that the operation declares, and an entity fetch defines the variable for the keys besides.
The two only meet if the selection uses a variable of that name.
-/
namespace FederatedQuery

structure Operation.Declares (o : Operation) (s : SelectionSet)
    (definitions : List VariableDefinition) : Prop where
  distinct : (definitions.map (·.name)).Nodup
  used : ∀ name, name ∈ definitions.map (·.name) ↔ s.Uses name
  declared : ∀ v ∈ definitions, o.declared? v.name = some v

theorem Operation.name_of_declared? {o : Operation} {name : String} {v : VariableDefinition}
    (h : o.declared? name = some v) : v.name = name := by
  simpa using List.find?_some h

theorem Operation.declares_of_uses {o : Operation} {s : SelectionSet}
    (h : ∀ name, s.Uses name → ∃ v, o.declared? name = some v) :
    o.Declares s (s.usedVariables.filterMap o.declared?) := by
  have hall : ∀ names : List String, (∀ name ∈ names, ∃ v, o.declared? name = some v) →
      (names.filterMap o.declared?).map (·.name) = names := by
    intro names hnames
    induction names with
    | nil => rfl
    | cons name names ih =>
      obtain ⟨⟨v, hv⟩, hrest⟩ := List.forall_mem_cons.1 hnames
      rw [List.filterMap_cons_some hv, List.map_cons, ih hrest, name_of_declared? hv]
  have hnames := hall s.usedVariables fun name hname =>
    h name (SelectionSet.mem_usedVariables.1 hname)
  refine ⟨?_, fun name => ?_, fun v hv => ?_⟩
  · rw [hnames]
    exact (SelectionSet.listsVariables s).distinct
  · rw [hnames]
    exact SelectionSet.mem_usedVariables
  · obtain ⟨name, -, hname⟩ := List.mem_filterMap.1 hv
    rw [name_of_declared? hname, hname]

/-- Only a fragment that receives keys is entered by a field. -/
theorem MergeSpec.emit_entryField {x : SchemaIndex} {f : FetchFragment} {m : MergeSpec}
    (h : emit x f = .ok m) : m.entryField.isSome = !f.isRoot := by
  unfold emit at h
  by_cases hroot : f.isRoot = true
  · rw [if_pos hroot] at h
    cases h
    rw [hroot]
    rfl
  · rw [if_neg hroot] at h
    rw [Bool.eq_false_iff.2 hroot]
    split at h
    · exact nomatch h
    · cases h
      rfl

/-- The arguments in a fragment are those of fields of the operation, as keys have none. -/
theorem Planner.decompose_uses {p : Planner} {o : Operation} {d : Decomposition}
    (h : p.decompose o = .ok d)
    (hs : SelectionSet.Everywhere SelectionSet.Collected o.selection) :
    ∀ f ∈ d.fragments, ∀ name, f.selection.Uses name → o.selection.Uses name := by
  intro f hf name huses
  obtain ⟨n, hn, a, ha, hmentions⟩ := huses
  obtain ⟨t, hassembled, hn⟩ := (decompose_assembled h hs f hf).exists_of_mem hn
  cases hidden : n.isHidden with
  | true =>
    rw [(hassembled.keys n hn hidden).2.2] at ha
    exact nomatch ha
  | false =>
    obtain ⟨c, hc, hasked⟩ := hassembled.copies n hn hidden
    rw [SelectionNode.arguments_of_asked hasked] at ha
    exact ⟨c, hc, a, ha, hmentions⟩

namespace FetchOperation

/-- A document defines the variables of a fragment. Those are what the selection uses, behind the
variable for the keys if the fragment receives some. -/
structure Defines (o : Operation) (f : FetchFragment) (definitions : List VariableDefinition) :
    Prop where
  parts : ∃ own, o.Declares f.selection own ∧
    definitions = (if f.isRoot then [] else [representations]) ++ own
  distinct : (definitions.map (·.name)).Nodup ↔
    (f.isRoot = true ∨ ¬f.selection.Uses representations.name)

theorem defines_of_uses {o : Operation} {f : FetchFragment} {m : MergeSpec}
    (hentry : m.entryField.isSome = !f.isRoot)
    (huses : ∀ name, f.selection.Uses name → ∃ v, o.declared? name = some v) :
    Defines o f (definitions o f m.entryField) := by
  have hown := Operation.declares_of_uses huses
  have hparts : definitions o f m.entryField = (if f.isRoot then [] else [representations]) ++
      f.selection.usedVariables.filterMap o.declared? := by
    rw [definitions, hentry]
    cases f.isRoot with
    | true => rfl
    | false => rfl
  refine ⟨⟨_, hown, hparts⟩, ?_⟩
  rw [hparts]
  cases f.isRoot with
  | true => simpa using hown.distinct
  | false =>
    have hkeys := hown.used representations.name
    simp only [Bool.false_eq_true, if_false, List.singleton_append, List.map_cons,
      List.nodup_cons, hkeys, false_or]
    exact and_iff_left hown.distinct

end FetchOperation

/-- The document of every node of a plan defines the variables that its selection uses, with the
types that the operation declares for them, and for an entity fetch the variable that carries the
keys. Each is defined once, unless the selection of an entity fetch uses a variable of that name. -/
theorem plan_documents {text : String} {name? : Option String} {p : Planner} {o : Operation}
    {plan : Plan} (ho : Operation.parse text name? p.index = .ok o) (h : p.plan o = .ok plan) :
    ∀ n ∈ plan.nodes, ∃ m, plan.mergeSpec? n.id = some m ∧ n.fetch = .make o n.fragment m ∧
      FetchOperation.Defines o n.fragment
        (FetchOperation.definitions o n.fragment m.entryField) := by
  obtain ⟨d, hd, hbuild⟩ := Planner.build_of_plan h
  obtain ⟨-, -, hmade, -⟩ := Planner.build_made hbuild
  intro n hn
  obtain ⟨i, hi⟩ := List.mem_iff_getElem?.1 hn
  obtain ⟨m, hm, hmade⟩ := hmade i n hi
  have hfragment : n.fragment ∈ d.fragments := List.mem_of_getElem? hmade.represents.fragment
  refine ⟨m, ?_, hmade.fetch, FetchOperation.defines_of_uses
    (MergeSpec.emit_entryField hmade.spec) fun name huses => ?_⟩
  · rw [Plan.mergeSpec?, hmade.represents.id, hm]
  · exact Operation.parse_declared ho (Planner.decompose_uses hd (Operation.parse_everywhere ho)
      n.fragment hfragment name huses)

def Planner.planOf (p : Planner) (text : String) : Plan :=
  (p.plan (p.operationOf text)).toOption.getD ⟨.query, [], []⟩

def pageText : String := "query($page: Int) { node { ... on A { owner { bio(page: $page) } } } }"

theorem plan_documents_homes : (homes.planOf pageText).nodes.length = 2 ∧
    ∀ n ∈ (homes.planOf pageText).nodes, ∃ m, (homes.planOf pageText).mergeSpec? n.id = some m ∧
      ((FetchOperation.definitions (homes.operationOf pageText) n.fragment m.entryField).map
        (·.name)).Nodup := by
  have hparse : Operation.parse pageText none homes.index = .ok (homes.operationOf pageText) :=
    Planner.operationOf_of_isOk (by decide +kernel)
  have hplan : homes.plan (homes.operationOf pageText) = .ok (homes.planOf pageText) :=
    ok_of_isOk (by decide +kernel) _
  have hspares : ∀ n ∈ (homes.planOf pageText).nodes,
      FetchOperation.representations.name ∉ n.fragment.selection.usedVariables := by
    decide +kernel
  refine ⟨by decide +kernel, fun n hn => ?_⟩
  obtain ⟨m, hm, -, hdefines⟩ := plan_documents hparse hplan n hn
  refine ⟨m, hm, hdefines.distinct.2 (.inr fun huses => ?_)⟩
  exact hspares n hn (SelectionSet.mem_usedVariables.2 huses)

def clashText : String :=
  "query($representations: Int) { node { ... on A { owner { bio(page: $representations) } } } }"

def clashDocument : String :=
  "query($representations: [_Any!]!, $representations: Int) " ++
  "{ _entities(representations: $representations) { ... on User { bio(page: $representations) } } }"

/-- The document for `s2` defines `representations` for the keys and for the page. -/
theorem homes_representations_twice : homesSchema.index.isValid = true ∧
    Operation.parse clashText none homes.index = .ok (homes.operationOf clashText) ∧
    homes.plan (homes.operationOf clashText) = .ok (homes.planOf clashText) ∧
    ∃ n ∈ (homes.planOf clashText).nodes, ∃ m ∈ (homes.planOf clashText).mergeSpec? n.id,
      FetchOperation.definitions (homes.operationOf clashText) n.fragment m.entryField =
        [⟨"representations", "[_Any!]!"⟩, ⟨"representations", "Int"⟩] ∧
      n.fetch.document = clashDocument :=
  ⟨by decide +kernel, Planner.operationOf_of_isOk (by decide +kernel),
    ok_of_isOk (by decide +kernel) _, by decide +kernel⟩

end FederatedQuery
