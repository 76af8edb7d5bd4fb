import FederatedQuery.Proofs.Decomposition.Contents
import FederatedQuery.Proofs.Operation.Collect
import FederatedQuery.Proofs.Plan.Validity

/-!
When fragments ask for different data under one response key. Inside a fragment only an alias that
is the name of a hidden key does; of two fragments for one place, only fields below different fields
of the operation do.
-/
namespace FederatedQuery

def SelectionNode.Shadows (a b : SelectionNode) : Prop :=
  a.isHidden = false ∧ b.isHidden = true ∧ a.alias? = some b.name ∧ a.onType = b.onType

instance (a b : SelectionNode) : Decidable (a.Shadows b) := inferInstanceAs (Decidable (_ ∧ _))

def SelectionNode.Agrees (a b : SelectionNode) : Prop :=
  a.name = b.name ∧ a.arguments = b.arguments

instance (a b : SelectionNode) : Decidable (a.Agrees b) := inferInstanceAs (Decidable (_ ∧ _))

namespace SelectionSet

def ConflictFree (s : SelectionSet) : Prop :=
  ∀ a ∈ s, ∀ b ∈ s, Scope.meets a b = true → a.Agrees b

instance (s : SelectionSet) : Decidable s.ConflictFree := inferInstanceAs (Decidable (∀ _ ∈ _, _))

/-- Siblings of a fragment: copies of fields of an operation and hidden keys that are owed. Of two
that meet, one is an alias and the other a key of that name. -/
structure Assembled (owed : String → String → Prop) (fields s : SelectionSet) : Prop where
  copies : ∀ a ∈ s, a.isHidden = false → ∃ c ∈ fields, a.asked = c.asked
  keys : ∀ b ∈ s, b.isHidden = true →
    owed b.onType b.name ∧ b.alias? = none ∧ b.arguments = []
  apart : s.Pairwise fun a b => Scope.meets a b = true → a.Shadows b

namespace Assembled
variable {p : Planner} {owed : String → String → Prop} {fields s t : SelectionSet}

theorem nil (owed : String → String → Prop) (fields : SelectionSet) : Assembled owed fields [] :=
  ⟨by simp, by simp, .nil⟩

/-- Copies of siblings of an operation do not meet. -/
theorem of_copies (hs : Collected s) (hfields : s ⊆ fields)
    (heads : (t.map SelectionNode.head).Sublist (s.map SelectionNode.head)) :
    Assembled owed fields t := by
  have hcopy : ∀ a ∈ t, ∃ c ∈ s, c.head = a.head := fun a ha =>
    List.mem_map.1 (heads.subset (List.mem_map_of_mem ha))
  have hvisible : ∀ a ∈ t, a.isHidden = false := by
    intro a ha
    obtain ⟨c, hc, hhead⟩ := hcopy a ha
    rw [← SelectionNode.isHidden_of_head hhead]
    exact hs.visible c hc
  refine ⟨fun a ha _ => ?_, fun b hb hidden => ?_, ?_⟩
  · obtain ⟨c, hc, hhead⟩ := hcopy a ha
    exact ⟨c, hfields hc, (SelectionNode.asked_of_head hhead).symm⟩
  · rw [hvisible b hb] at hidden
    exact nomatch hidden
  · -- whether fields meet shows in their heads
    have hapart : (s.map SelectionNode.head).Pairwise fun x y =>
        ¬(x.1.alias?.getD x.1.name = y.1.alias?.getD y.1.name ∧ x.1.onType = y.1.onType) := by
      refine List.pairwise_map.2 (hs.apart.imp fun hmeets hsame => ?_)
      exact Bool.eq_false_iff.1 hmeets (Scope.meets_iff.2 hsame)
    refine (List.pairwise_map.1 (hapart.sublist heads)).imp fun hdiffer hmeets => ?_
    exact absurd (Scope.meets_iff.1 hmeets) hdiffer

theorem adds (h : Assembled owed fields s) (hadds : p.Adds owed s t) :
    Assembled owed fields t := by
  induction hadds with
  | refl => exact h
  | @key t type key place _ due lacks ih =>
    obtain ⟨copies, keys, apart⟩ := ih
    refine ⟨List.forall_mem_append.2 ⟨copies, ?_⟩, List.forall_mem_append.2 ⟨keys, ?_⟩, ?_⟩
    · intro b hb hvisible
      rw [List.mem_singleton.1 hb] at hvisible
      exact nomatch hvisible
    · intro b hb _
      rw [List.mem_singleton.1 hb]
      exact ⟨due, rfl, rfl⟩
    · refine List.pairwise_append.2 ⟨apart, List.pairwise_singleton _ _, fun a ha b hb hmeets => ?_⟩
      rw [List.mem_singleton.1 hb] at hmeets ⊢
      obtain ⟨hkey, htype⟩ := Scope.meets_iff.1 hmeets
      have hkey : a.alias?.getD a.name = key := hkey
      cases halias : a.alias? with
      | none =>
        -- a field without alias is the key itself, which was lacking
        rw [halias] at hkey
        have hheld : t.holdsKey type type key = true :=
          holdsKey_iff.2 ⟨a, ha, hkey, halias, .inl htype⟩
        rw [hheld] at lacks
        exact nomatch lacks
      | some answer =>
        rw [halias] at hkey
        have hvisible : a.isHidden = false := by
          rw [← Bool.not_eq_true]
          intro hidden
          rw [(keys a ha hidden).2.1] at halias
          exact nomatch halias
        exact ⟨hvisible, rfl, halias.trans (congrArg some hkey), htype⟩

theorem agrees_or_shadows (h : Assembled owed fields s) {a b : SelectionNode} (ha : a ∈ s)
    (hb : b ∈ s) (hmeets : Scope.meets a b = true) : a.Agrees b ∨ a.Shadows b ∨ b.Shadows a := by
  have hpairs : s.Pairwise fun x y => Scope.meets x y = true →
      x.Agrees y ∨ x.Shadows y ∨ y.Shadows x :=
    h.apart.imp fun hshadows hmeets => .inr (.inl (hshadows hmeets))
  refine Scope.of_pairwise_meets (fun x => .inl ⟨rfl, rfl⟩) (fun x y hxy => ?_) hpairs ha hb hmeets
  rcases hxy with ⟨hname, harguments⟩ | hshadows | hshadows
  · exact .inl ⟨hname.symm, harguments.symm⟩
  · exact .inr (.inr hshadows)
  · exact .inr (.inl hshadows)

/-- A selection below a type name is kept as the operation has it. -/
theorem below_of_collected (hs : Below Collected s) (hfields : s.allFields ⊆ fields) :
    Below (Assembled owed fields) s := by
  intro n hn
  exact .of_copies (hs n hn) (List.Subset.trans (children_subset_allFields hn) hfields) (.refl _)

end Assembled
end SelectionSet

namespace Planner
variable {p : Planner}

theorem Keeps.assembled {owed : String → String → Prop} {source : Source} {provided : List String}
    {fields s t : SelectionSet} (h : p.Keeps owed source provided s t)
    (hs : SelectionSet.Below SelectionSet.Collected s) (hfields : s.allFields ⊆ fields) :
    SelectionSet.Below (SelectionSet.Assembled owed fields) t := by
  induction h with
  | nil => exact SelectionSet.below_nil _
  | @skip _ n s t _ ih =>
    rw [SelectionSet.allFields_cons] at hfields
    exact ih (SelectionSet.below_cons.1 hs).2 fun c hc => hfields (by simp [hc])
  | @typename _ n s t _ _ ih =>
    rw [SelectionSet.allFields_cons] at hfields
    obtain ⟨hself, hrest⟩ := SelectionSet.below_cons.1 hs
    have hchildren : SelectionSet.allFields n.children ⊆ fields := fun c hc =>
      hfields (by simp [hc])
    refine SelectionSet.below_cons.2 ⟨⟨?_, ?_⟩, ih hrest fun c hc => hfields (by simp [hc])⟩
    · exact .of_copies hself.1 (fun c hc => hchildren (SelectionSet.mem_allFields_of_mem hc))
        (.refl _)
    · exact .below_of_collected hself.2 hchildren
  | @field _ n s t kept children _ below adds _ ihbelow ihrest =>
    rw [SelectionSet.allFields_cons] at hfields
    obtain ⟨hself, hrest⟩ := SelectionSet.below_cons.1 hs
    have hchildren : SelectionSet.allFields n.children ⊆ fields := fun c hc =>
      hfields (by simp [hc])
    have hkept : SelectionSet.Assembled owed fields kept :=
      .of_copies hself.1 (fun c hc => hchildren (SelectionSet.mem_allFields_of_mem hc)) below.heads
    refine SelectionSet.below_cons.2 ⟨⟨hkept.adds adds, ?_⟩, ihrest hrest fun c hc => ?_⟩
    · exact adds.everywhere_below (.nil owed fields) (ihbelow hself.2 hchildren)
    · exact hfields (by simp [hc])

theorem FilledWith.assembled {owed : String → String → Prop} {fields s all : SelectionSet}
    {f : FetchFragment} (h : p.FilledWith owed fields f)
    (hs : SelectionSet.Everywhere SelectionSet.Collected s) (hfields : fields.Sublist s)
    (hall : s.allFields ⊆ all) :
    SelectionSet.Everywhere (SelectionSet.Assembled owed all) f.selection := by
  obtain ⟨-, nodes, hkeeps, hadds⟩ := h
  have hself : s ⊆ all := fun c hc => hall (SelectionSet.mem_allFields_of_mem hc)
  have hbelow := hkeeps.assembled (hs.2.subset hfields.subset)
    (List.Subset.trans (SelectionSet.allFields_subset hfields.subset) hall)
  have hnodes : SelectionSet.Assembled owed all nodes :=
    .of_copies hs.1 hself (hkeeps.heads.trans (hfields.map _))
  exact ⟨hnodes.adds hadds, hadds.everywhere_below (.nil owed all) hbelow⟩

theorem decompose_assembled {o : Operation} {d : Decomposition} (h : p.decompose o = .ok d)
    (hs : SelectionSet.Everywhere SelectionSet.Collected o.selection) :
    ∀ f ∈ d.fragments, SelectionSet.Everywhere
      (SelectionSet.Assembled (p.Owes d.fragments) (SelectionSet.allFields o.selection))
      f.selection := by
  intro f hf
  cases decompose_fills h f hf with
  | inl hroot =>
    obtain ⟨-, fields, hfields, hfilled⟩ := hroot
    exact hfilled.assembled hs hfields (List.Subset.refl _)
  | inr hbelow =>
    obtain ⟨q, fields, hq, hfields, -, hfilled⟩ := hbelow
    have hq : q ∈ SelectionSet.allFields o.selection := List.mem_map_of_mem hq
    exact hfilled.assembled (hs.children hq) hfields (SelectionSet.allFields_children_subset hq)

/-- No field of the operation has a key of its type for an alias, unless it is that key. -/
def SparesKeys (p : Planner) (o : Operation) (d : Decomposition) : Prop :=
  ∀ f ∈ d.fragments, ∀ k ∈ p.carried f.requiredKeys, ∀ n ∈ SelectionSet.allFields o.selection,
    n.onType = f.onType → n.alias? = some k → n.name = k ∧ n.arguments = []

instance (p : Planner) (o : Operation) (d : Decomposition) : Decidable (p.SparesKeys o d) :=
  inferInstanceAs (Decidable (∀ _ ∈ _, _))

theorem SparesKeys.agrees {o : Operation} {d : Decomposition} (h : p.SparesKeys o d)
    {s : SelectionSet} {a b : SelectionNode}
    (hs : SelectionSet.Assembled (p.Owes d.fragments) (SelectionSet.allFields o.selection) s)
    (ha : a ∈ s) (hb : b ∈ s) (hshadows : a.Shadows b) : a.Agrees b := by
  obtain ⟨hvisible, hidden, halias, htype⟩ := hshadows
  obtain ⟨c, hc, hasked⟩ := hs.copies a ha hvisible
  obtain ⟨⟨f, hf, honType, hkey⟩, -, harguments⟩ := hs.keys b hb hidden
  have hcalias : c.alias? = some b.name := by
    rw [← SelectionNode.alias_of_asked hasked, halias]
  have hctype : c.onType = f.onType := by
    rw [← SelectionNode.onType_of_asked hasked, htype, honType]
  obtain ⟨hname, hnone⟩ := h f hf b.name hkey c hc hctype hcalias
  rw [← SelectionNode.name_of_asked hasked] at hname
  rw [← SelectionNode.arguments_of_asked hasked] at hnone
  exact ⟨hname, hnone.trans harguments.symm⟩

end Planner

/-- Siblings of a fragment that answer to one response key on one type agree, unless one is an alias
and the other a hidden key of that name. They all agree if no alias of the operation is a key of its
type. -/
theorem decompose_conflictFree {text : String} {name? : Option String} {p : Planner} {o : Operation}
    {d : Decomposition} (ho : Operation.parse text name? p.index = .ok o)
    (h : p.decompose o = .ok d) :
    (∀ f ∈ d.fragments, SelectionSet.Everywhere (fun s => ∀ a ∈ s, ∀ b ∈ s,
      Scope.meets a b = true → a.Agrees b ∨ a.Shadows b ∨ b.Shadows a) f.selection) ∧
    (p.SparesKeys o d →
      ∀ f ∈ d.fragments, SelectionSet.Everywhere SelectionSet.ConflictFree f.selection) := by
  have hassembled := Planner.decompose_assembled h (Operation.parse_everywhere ho)
  constructor
  · intro f hf
    exact (hassembled f hf).imp fun s hs a ha b hb => hs.agrees_or_shadows ha hb
  · intro hspares f hf
    refine (hassembled f hf).imp fun s hs a ha b hb hmeets => ?_
    rcases hs.agrees_or_shadows ha hb hmeets with hagrees | hshadows | hshadows
    · exact hagrees
    · exact hspares.agrees hs ha hb hshadows
    · obtain ⟨hname, harguments⟩ := hspares.agrees hs hb ha hshadows
      exact ⟨hname.symm, harguments.symm⟩

theorem shop_parse : Operation.parse
    "{ reviews { product { estimate weight } author { name email } __typename id } }"
    none shop.index = .ok shopQuery := by
  rw [shopQuery]
  exact ok_of_isOk (by decide +kernel) _

theorem decompose_conflictFree_shop : shop.SparesKeys shopQuery shopFragments ∧
    ∀ f ∈ shopFragments.fragments,
      SelectionSet.Everywhere SelectionSet.ConflictFree f.selection := by
  have hspares : shop.SparesKeys shopQuery shopFragments := by decide +kernel
  exact ⟨hspares, (decompose_conflictFree shop_parse shop_decompose).2 hspares⟩

def aliasText : String := "{ node { ... on A { owner { id: name bio } } } }"

/-- One fragment asks for the name and for the key under `id`. -/
theorem homes_alias_conflicts : homesSchema.index.isValid = true ∧
    Operation.parse aliasText none homes.index = .ok (homes.operationOf aliasText) ∧
    homes.decompose (homes.operationOf aliasText) = .ok (homes.fragmentsOf aliasText) ∧
    ∃ f ∈ (homes.fragmentsOf aliasText).fragments,
      ¬SelectionSet.Everywhere SelectionSet.ConflictFree f.selection :=
  ⟨by decide +kernel, Planner.operationOf_of_isOk (by decide +kernel),
    Planner.fragmentsOf_of_isOk (by decide +kernel), by decide +kernel⟩

/-! ### Fragments for one place -/

def FetchFragment.Overlaps (f g : FetchFragment) (a b : SelectionNode) : Prop :=
  (f.isRoot = false ∧ g.isRoot = false) ∧ f.providedPath = g.providedPath ∧ f.onType = g.onType ∧
    (a.isHidden = false ∧ b.isHidden = false) ∧ a.responseKey = b.responseKey

instance (f g : FetchFragment) (a b : SelectionNode) : Decidable (f.Overlaps g a b) :=
  inferInstanceAs (Decidable (_ ∧ _))

structure SelectionSet.Offers (s : SelectionSet) (keys : List String) (way : List SelectionNode)
    (n : SelectionNode) : Prop where
  descends : SelectionSet.Descends s way
  keys : way.map (·.responseKey) = keys
  field : ∃ c ∈ SelectionSet.after s way, n.asked = c.asked

theorem Planner.FilledBelow.offers {p : Planner} {owed : String → String → Prop} {s : SelectionSet}
    {f : FetchFragment} (h : p.FilledBelow owed [] s f) :
    ∃ way, ∀ n ∈ f.selection, n.isHidden = false →
      n.onType = f.onType ∧ SelectionSet.Offers s f.providedPath.keys way n := by
  obtain ⟨q, fields, hq, hfields, hrequires, hfilled⟩ := h
  obtain ⟨way, hway, hkeys⟩ := SelectionSet.exists_way_of_mem_located hq
  refine ⟨way ++ [q], fun n hn hvisible => ?_⟩
  obtain ⟨c, hc, hasked⟩ := hfilled.copy hn hvisible
  refine ⟨(SelectionNode.onType_of_asked hasked).trans (hrequires c hc).1, hway, hkeys.symm, c, ?_,
    hasked⟩
  rw [SelectionSet.after_concat]
  exact hfields.subset hc

/-- Two fragments for one place and one type agree on every response key, unless the operation leads
there on two ways of the same response keys but different types. -/
theorem decompose_agrees {text : String} {name? : Option String} {p : Planner} {o : Operation}
    {d : Decomposition} (ho : Operation.parse text name? p.index = .ok o)
    (h : p.decompose o = .ok d) {f g : FetchFragment} (hf : f ∈ d.fragments)
    (hg : g ∈ d.fragments) {a b : SelectionNode} (ha : a ∈ f.selection) (hb : b ∈ g.selection)
    (hoverlap : f.Overlaps g a b) :
    a.Agrees b ∨ ∃ v w : List SelectionNode,
      SelectionSet.Offers o.selection f.providedPath.keys v a ∧
      SelectionSet.Offers o.selection f.providedPath.keys w b ∧
      v.map (·.onType) ≠ w.map (·.onType) := by
  have hcollected := Operation.parse_everywhere ho
  obtain ⟨⟨hfentered, hgentered⟩, hpath, htype, ⟨havisible, hbvisible⟩, hkey⟩ := hoverlap
  obtain ⟨v, hv⟩ := (Planner.decompose_fills_entered h hf hfentered).offers
  obtain ⟨w, hw⟩ := (Planner.decompose_fills_entered h hg hgentered).offers
  obtain ⟨hatype, hav⟩ := hv a ha havisible
  obtain ⟨hbtype, hbw⟩ := hw b hb hbvisible
  rw [← hpath] at hbw
  by_cases htypes : v.map (·.onType) = w.map (·.onType)
  · -- the ways are one, and so are the fields at its end
    left
    have hways : v = w := SelectionSet.eq_of_descends hcollected hav.descends hbw.descends
      (hav.keys.trans hbw.keys.symm) htypes
    subst hways
    obtain ⟨c, hc, hac⟩ := hav.field
    obtain ⟨e, he, hbe⟩ := hbw.field
    have hmeets : Scope.meets c e = true := by
      rw [Scope.meets_iff, ← SelectionNode.responseKey_of_asked hac,
        ← SelectionNode.responseKey_of_asked hbe, ← SelectionNode.onType_of_asked hac,
        ← SelectionNode.onType_of_asked hbe]
      exact ⟨hkey, hatype.trans (htype.trans hbtype.symm)⟩
    have hsame : c = e := (hcollected.after hav.descends).eq_of_meets hc he hmeets
    have hasked : a.asked = b.asked := hac.trans (hsame ▸ hbe.symm)
    exact ⟨SelectionNode.name_of_asked hasked, SelectionNode.arguments_of_asked hasked⟩
  · exact .inr ⟨v, w, hav, hbw, htypes⟩

def pagesText : String :=
  "{ node { ... on A { owner { bio(page: 1) } } ... on B { owner { bio(page: 1) } } } }"

theorem decompose_agrees_homes : ∃ f ∈ (homes.fragmentsOf pagesText).fragments,
    ∃ g ∈ (homes.fragmentsOf pagesText).fragments, ∃ a ∈ f.selection, ∃ b ∈ g.selection,
      f.Overlaps g a b ∧ (a.Agrees b ∨ ∃ v w : List SelectionNode,
        SelectionSet.Offers (homes.operationOf pagesText).selection f.providedPath.keys v a ∧
        SelectionSet.Offers (homes.operationOf pagesText).selection f.providedPath.keys w b ∧
        v.map (·.onType) ≠ w.map (·.onType)) := by
  have hparse : Operation.parse pagesText none homes.index = .ok (homes.operationOf pagesText) :=
    Planner.operationOf_of_isOk (by decide +kernel)
  have hdecompose : homes.decompose (homes.operationOf pagesText) =
      .ok (homes.fragmentsOf pagesText) := Planner.fragmentsOf_of_isOk (by decide +kernel)
  have hoverlaps : ∃ f ∈ (homes.fragmentsOf pagesText).fragments,
      ∃ g ∈ (homes.fragmentsOf pagesText).fragments, ∃ a ∈ f.selection, ∃ b ∈ g.selection,
        f.Overlaps g a b := by decide +kernel
  obtain ⟨f, hf, g, hg, a, ha, b, hb, hoverlap⟩ := hoverlaps
  exact ⟨f, hf, g, hg, a, ha, b, hb, hoverlap,
    decompose_agrees hparse hdecompose hf hg ha hb hoverlap⟩

def otherPagesText : String :=
  "{ node { ... on A { owner { bio(page: 1) } } ... on B { owner { bio(page: 2) } } } }"

/-- Two fragments for one place and one type ask for different pages. -/
theorem homes_pages_conflict : homesSchema.index.isValid = true ∧
    Operation.parse otherPagesText none homes.index = .ok (homes.operationOf otherPagesText) ∧
    homes.decompose (homes.operationOf otherPagesText) = .ok (homes.fragmentsOf otherPagesText) ∧
    ∃ f ∈ (homes.fragmentsOf otherPagesText).fragments,
      ∃ g ∈ (homes.fragmentsOf otherPagesText).fragments,
      ∃ a ∈ f.selection, ∃ b ∈ g.selection, f.Overlaps g a b ∧ ¬a.Agrees b :=
  ⟨by decide +kernel, Planner.operationOf_of_isOk (by decide +kernel),
    Planner.fragmentsOf_of_isOk (by decide +kernel), by decide +kernel⟩

end FederatedQuery
