import FederatedQuery.Proofs.Operation.Gathered
import FederatedQuery.Proofs.SchemaIndex.Built

/-!
Well-typed operations. What is read from a text fits the schema at every field: the place to which
its keys lead, the type on which it is selected, the type that it returns, and the variables of the
operation.
-/
namespace FederatedQuery

def SelectionSet.Apart (s : SelectionSet) : Prop :=
  s.Pairwise fun a b => ¬(a.responseKey = b.responseKey ∧ a.onType = b.onType)

structure Operation.WellTyped (o : Operation) (x : SchemaIndex) : Prop where
  defined : ∀ n ∈ o.selection.allFields, x.hasType n.onType = true
  returns : ∀ n ∈ o.selection.allFields, (n.name = typenameField ∧ n.ofType = "String") ∨
    ∃ f, x.field? n.onType n.name = some f ∧ n.ofType = f.ofType
  rootPaths : ∀ n ∈ o.selection, n.responsePath = [n.responseKey]
  paths : ∀ n ∈ o.selection.allFields, ∀ c ∈ n.children,
    c.responsePath = n.responsePath ++ [c.responseKey]
  apart : SelectionSet.Everywhere SelectionSet.Apart o.selection
  declared : ∀ n ∈ o.selection.allFields, ∀ a ∈ n.arguments, ∀ name, a.value.Mentions name →
    ∃ v ∈ o.definitions, v.name = name
  visible : ∀ n ∈ o.selection.allFields, n.isHidden = false

namespace Scope
variable {s : Scope} {enclosing onType name ofType : String} {keys : List String}
  {n : SelectionNode}

theorem returns_of_returnType? (h : s.returnType? onType name = some ofType) :
    (name = typenameField ∧ ofType = "String") ∨
      ∃ f, s.index.field? onType name = some f ∧ ofType = f.ofType := by
  unfold returnType? at h
  by_cases hname : name = typenameField
  · rw [if_pos hname] at h
    exact .inl ⟨hname, (Option.some.inj h).symm⟩
  · rw [if_neg hname] at h
    obtain ⟨f, hf, htype⟩ := Option.map_eq_some_iff.1 h
    exact .inr ⟨f, hf, htype.symm⟩

theorem hasType_of_shows (h : s.Shows enclosing onType)
    (henclosing : s.index.hasType enclosing = true) : s.index.hasType onType = true := by
  cases h with
  | inl hsame => exact hsame ▸ henclosing
  | inr hnamed => exact hnamed.2

namespace Gathers

/-- Every field below was collected too, and on a type of the schema, if only composite types have
fields below them. -/
theorem of_mem_allFields (h : s.Gathers enclosing keys n)
    (henclosing : s.index.hasType enclosing = true)
    (hcomposite : ∀ m ∈ SelectionSet.allFields [n], m.children ≠ [] →
      s.index.hasType m.ofType = true) {m : SelectionNode} (hm : m ∈ SelectionSet.allFields [n]) :
    ∃ type keys, s.index.hasType type = true ∧ s.Gathers type keys m := by
  induction h with
  | @field enclosing keys n path shown spelled returns below ih =>
    obtain ⟨_, hn, hplace⟩ := SelectionSet.mem_allFields_iff.1 hm
    cases List.mem_singleton.1 hn
    cases hplace with
    | inl hself =>
      subst hself
      exact ⟨enclosing, keys, henclosing, .field path shown spelled returns below⟩
    | inr hbelow =>
      rw [SelectionSet.allFields_eq_flatMap] at hbelow
      obtain ⟨c, hc, hm⟩ := List.mem_flatMap.1 hbelow
      have hchild : ∀ {d}, d ∈ SelectionSet.allFields [c] → d ∈ SelectionSet.allFields [n] :=
        fun hd => SelectionSet.mem_allFields_of_child List.mem_cons_self
          (SelectionSet.allFields_subset (by simpa using hc) hd)
      have hself : n ∈ SelectionSet.allFields [n] :=
        SelectionSet.mem_allFields_of_mem List.mem_cons_self
      exact ih c hc (hcomposite n hself (List.ne_nil_of_mem hc))
        (fun d hd => hcomposite d (hchild hd)) hm

end Gathers
end Scope

theorem SelectionSet.Collected.isApart {s : SelectionSet} (h : s.Collected) : s.Apart :=
  h.apart.imp fun hab hsame => absurd (Scope.meets_iff.2 hsame) (Bool.eq_false_iff.1 hab)

/-- An operation that was read from a text is well-typed. -/
theorem parse_wellTyped {b : Blueprint} {x : SchemaIndex} {text : String} {name? : Option String}
    {o : Operation} (hb : b.index = .valid x) (h : Operation.parse text name? x = .ok o) :
    o.WellTyped x := by
  obtain ⟨d, node, hparse, hsource⟩ := Operation.parse_eq_ok.1 h
  obtain ⟨hoperations, hfragments⟩ := Document.parse_spelled hparse
  have hspelled := hoperations node (Document.mem_all_of_select hsource.selected)
  have hplace := hsource.collects.gathers hfragments hspelled.each (.inl rfl) nofun
  obtain ⟨_, hanswers⟩ := Operation.parse_answers h
  have hroot := (SchemaIndex.root_of_rootType hb hsource.rootType).1
  have hfields : ∀ n ∈ o.selection.allFields, ∃ type keys, x.hasType type = true ∧
      Scope.Gathers ⟨x, d.fragments, o.definitions⟩ type keys n := by
    intro n hn
    rw [SelectionSet.allFields_eq_flatMap] at hn
    obtain ⟨root, hmem, hn⟩ := List.mem_flatMap.1 hn
    refine (hplace root hmem).of_mem_allFields hroot (fun m hm => ?_) hn
    exact (hanswers m (SelectionSet.allFields_subset (by simpa using hmem) hm)).composite
  have hshape := Operation.parse_everywhere h
  constructor
  case defined =>
    intro n hn
    obtain ⟨type, keys, htype, hgathers⟩ := hfields n hn
    exact Scope.hasType_of_shows hgathers.shown htype
  case returns =>
    intro n hn
    obtain ⟨type, keys, -, hgathers⟩ := hfields n hn
    exact Scope.returns_of_returnType? hgathers.returns
  case rootPaths => exact fun n hn => (hplace n hn).path
  case paths =>
    intro n hn c hc
    obtain ⟨type, keys, -, hgathers⟩ := hfields n hn
    exact (hgathers.of_child hc).path
  case apart => exact hshape.imp fun _ hs => hs.isApart
  case declared =>
    intro n hn a ha name hmentions
    obtain ⟨v, hv⟩ := Operation.parse_declared h ⟨n, hn, a, ha, hmentions⟩
    exact ⟨v, List.mem_of_find?_eq_some hv, by simpa using List.find?_some hv⟩
  case visible =>
    intro n hn
    obtain ⟨t, ht, hn⟩ := hshape.exists_of_mem hn
    exact ht.visible n hn

def friendsText : String :=
  "query Mine($n: Int) \x7b me \x7b ...Person friends(page: \x7bfirst: [$n]\x7d) \x7b id \x7d " ++
    "\x7d \x7d fragment Person on User \x7b key: id __typename " ++
    "friends(page: \x7bfirst: [$n]\x7d) \x7b ... on User \x7b key: id \x7d \x7d \x7d"

theorem parse_wellTyped_friends : circleSchema.index = .valid circle.index ∧
    Operation.parse friendsText none circle.index = .ok (circle.operationOf friendsText) ∧
    (circle.operationOf friendsText).selection.allFields.map (·.responsePath) =
      [["me"], ["me", "key"], ["me", "__typename"], ["me", "friends"], ["me", "friends", "key"],
        ["me", "friends", "id"]] ∧
    (circle.operationOf friendsText).WellTyped circle.index := by
  have hindex : circleSchema.index = .valid circle.index :=
    Validated.eq_valid_of_isValid (by decide +kernel) ⟨"", none, none, .empty⟩
  have hparse : Operation.parse friendsText none circle.index =
      .ok (circle.operationOf friendsText) :=
    Planner.operationOf_of_isOk (by decide +kernel)
  exact ⟨hindex, hparse, by decide +kernel, parse_wellTyped hindex hparse⟩

end FederatedQuery
