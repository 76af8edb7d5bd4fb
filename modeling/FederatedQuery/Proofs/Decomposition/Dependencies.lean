import FederatedQuery.Proofs.Plan.RootOrder

/-!
The shape of the dependencies. A fragment that receives keys waits for one other, from which it has
them all. A root fragment receives nothing, and it waits for others only in a mutation, so the
fragments of a query make a forest.
-/
namespace FederatedQuery
namespace Decomposition
variable {drafts : List Draft}

/-- The dependencies of a draft are those on its parents, each with all its keys. -/
theorem parentsOf_ofDrafts {d : Draft} {id : Nat} (h : (d, id) ∈ drafts.zipIdx) :
    (ofDrafts drafts).parentsOf id =
      d.parents.map fun parent => ⟨parent, id, d.fragment.requiredKeys⟩ := by
  have hnone : ∀ (more : List Draft) (start : Nat), (∀ e ∈ more.zipIdx start, e.2 ≠ id) →
      (more.zipIdx start).flatMap (fun e => (e.1.parents.map fun parent =>
        (⟨parent, e.2, e.1.fragment.requiredKeys⟩ : Dependency)).filter (·.child = id)) = [] := by
    intro more start hmore
    refine List.flatMap_eq_nil_iff.2 fun e he => List.filter_eq_nil_iff.2 fun dep hdep => ?_
    obtain ⟨parent, -, rfl⟩ := List.mem_map.1 hdep
    simpa using hmore e he
  -- the draft stands between others, which have other numbers
  obtain ⟨hlt, hget⟩ : ∃ hlt : id < drafts.length, drafts[id] = d :=
    List.getElem?_eq_some_iff.1 (List.mem_zipIdx_iff_getElem?.1 h)
  have hlength : (drafts.take id).length = id := List.length_take_of_le hlt.le
  have hsplit : drafts = drafts.take id ++ d :: drafts.drop (id + 1) := by
    rw [← hget, List.getElem_cons_drop, List.take_append_drop]
  have hfront := hnone (drafts.take id) 0 fun e he => by
    have := List.snd_lt_of_mem_zipIdx he
    omega
  have hbehind := hnone (drafts.drop (id + 1)) (id + 1) fun e he => by
    have := List.le_snd_of_mem_zipIdx he
    omega
  have hself : (d.parents.map fun parent =>
      (⟨parent, id, d.fragment.requiredKeys⟩ : Dependency)).filter (·.child = id) =
      d.parents.map fun parent => ⟨parent, id, d.fragment.requiredKeys⟩ := by
    refine List.filter_eq_self.2 fun dep hdep => ?_
    obtain ⟨parent, -, rfl⟩ := List.mem_map.1 hdep
    exact decide_eq_true rfl
  rw [parentsOf, ofDrafts, List.filter_flatMap]
  conv_lhs => rw [hsplit, List.zipIdx_append, hlength, Nat.zero_add, List.zipIdx_cons]
  rw [List.flatMap_append, List.flatMap_cons, hfront, hbehind, hself, List.append_nil]
  rfl

structure EnteredOnce (d : Decomposition) (id : Nat) (f : FetchFragment) : Prop where
  below : f.providedPath ≠ .root
  parent : ∃ parent < id, d.parentsOf id = [⟨parent, id, f.requiredKeys⟩]

/-- The root fragments wait for nothing, every other fragment waits for one, and going on from there
leads to one root fragment. -/
structure Forest (d : Decomposition) : Prop where
  roots : ∀ (id : Nat) f, d.fragments[id]? = some f →
    (f.isRoot = true ↔ ∀ parent, ¬d.Waits id parent)
  parent : ∀ {id parent other : Nat}, d.Waits id parent → d.Waits id other → parent = other
  acyclic : ∀ id, ¬Relation.TransGen d.Waits id id
  tree : ∀ id < d.fragments.length, ∃! root, Relation.ReflTransGen d.Waits id root ∧
    ∃ f, d.fragments[root]? = some f ∧ f.isRoot = true

theorem waits_iff {d : Decomposition} {id parent : Nat} :
    d.Waits id parent ↔ ∃ dep ∈ d.parentsOf id, dep.parent = parent := by
  simp [Waits, parentsOf, and_assoc]

namespace EnteredOnce
variable {d : Decomposition} {id : Nat} {f : FetchFragment}

theorem waits (h : d.EnteredOnce id f) :
    ∃ parent < id, ∀ other, d.Waits id other ↔ other = parent := by
  obtain ⟨parent, hlt, hparents⟩ := h.parent
  refine ⟨parent, hlt, fun other => ?_⟩
  rw [waits_iff, hparents]
  simp [eq_comm]

end EnteredOnce

/-- If what receives keys was entered once and nothing else waits, there is a forest. -/
theorem forest_of_enteredOnce {d : Decomposition}
    (hentered : ∀ (id : Nat) f, d.fragments[id]? = some f → f.isRoot = false → d.EnteredOnce id f)
    (hroots : ∀ (id : Nat) f, d.fragments[id]? = some f → f.isRoot = true → ∀ parent,
      ¬d.Waits id parent)
    (hbounds : ∀ {id parent : Nat}, d.Waits id parent → id < d.fragments.length) : d.Forest := by
  have hcases : ∀ {id parent : Nat}, d.Waits id parent → ∃ f, d.fragments[id]? = some f ∧
      f.isRoot = false := by
    intro id parent hwaits
    have hf := List.getElem?_eq_getElem (hbounds hwaits)
    refine ⟨_, hf, Bool.eq_false_iff.2 fun hroot => ?_⟩
    exact hroots id _ hf hroot parent hwaits
  have hparent : ∀ {id parent other : Nat}, d.Waits id parent → d.Waits id other →
      parent = other := by
    intro id parent other hwaits hother
    obtain ⟨f, hf, hroot⟩ := hcases hwaits
    obtain ⟨only, -, honly⟩ := (hentered id f hf hroot).waits
    exact ((honly parent).1 hwaits).trans ((honly other).1 hother).symm
  have hlt : ∀ {id parent : Nat}, d.Waits id parent → parent < id := by
    intro id parent hwaits
    obtain ⟨f, hf, hroot⟩ := hcases hwaits
    obtain ⟨only, hless, honly⟩ := (hentered id f hf hroot).waits
    rwa [(honly parent).1 hwaits]
  refine ⟨fun id f hf => ⟨hroots id f hf, fun hnone => ?_⟩, hparent, fun id hcycle => ?_, ?_⟩
  · rw [← Bool.not_eq_false]
    intro hroot
    obtain ⟨only, -, honly⟩ := (hentered id f hf hroot).waits
    exact hnone only ((honly only).2 rfl)
  · have hdown : ∀ {i j : Nat}, Relation.TransGen d.Waits i j → j < i := by
      intro i j hij
      induction hij with
      | single hwaits => exact hlt hwaits
      | tail _ hwaits ih => exact Nat.lt_trans (hlt hwaits) ih
    exact Nat.lt_irrefl id (hdown hcycle)
  · intro id hid
    induction id using Nat.strong_induction_on with
    | h id ih =>
      have hf := List.getElem?_eq_getElem hid
      cases hroot : d.fragments[id].isRoot with
      | true =>
        refine ⟨id, ⟨.refl, _, hf, hroot⟩, fun other hother => ?_⟩
        cases hother.1.cases_head with
        | inl heq => exact heq.symm
        | inr hstep =>
          obtain ⟨parent, hwaits, -⟩ := hstep
          exact absurd hwaits (hroots id _ hf hroot parent)
      | false =>
        obtain ⟨parent, hless, honly⟩ := (hentered id _ hf hroot).waits
        have hwaits := (honly parent).2 rfl
        obtain ⟨root, ⟨hpath, hisRoot⟩, hunique⟩ := ih parent hless (hless.trans hid)
        refine ⟨root, ⟨.head hwaits hpath, hisRoot⟩, fun other hother => ?_⟩
        obtain ⟨hother, g, hg, hgroot⟩ := hother
        refine hunique other ⟨?_, g, hg, hgroot⟩
        cases hother.cases_head with
        | inl heq =>
          -- the fragment itself is no root fragment
          rw [← heq, hf] at hg
          cases hg
          rw [hroot] at hgroot
          exact nomatch hgroot
        | inr hstep =>
          obtain ⟨first, hfirst, hrest⟩ := hstep
          exact hparent hfirst hwaits ▸ hrest

end Decomposition

section Root
variable {p : Planner} {serial : Bool} {rootType : String} {previous? : Option Nat} {next : Nat}
  {groups : List (Source × List SelectionNode)} {drafts : List Draft}

/-- Root fragments stand on the root type, at the root. -/
theorem EntersRoots.place (h : EntersRoots Planner.Rooted serial rootType previous? next groups
    drafts) : ∀ d ∈ drafts, d.fragment.isRoot = true →
      d.fragment.onType = rootType ∧ d.fragment.providedPath = .root := by
  induction h with
  | nil => simp
  | @cons previous? next source fields nodes inner more groups fill _ ih =>
    obtain ⟨-, hinner⟩ := fill.rooted
    refine List.forall_mem_append.2 ⟨List.forall_mem_cons.2 ⟨fun _ => ⟨rfl, rfl⟩, ?_⟩, ih⟩
    intro d hd hroot
    exact absurd (List.isEmpty_iff.1 hroot) (hinner (Nat.lt_succ_self next) d hd)

end Root

namespace Planner
variable {b : Blueprint} {p : Planner} {o : Operation} {d : Decomposition}

structure HoldsRoots (p : Planner) (o : Operation) (f : FetchFragment) : Prop where
  place : f.providedPath = .root
  type : f.onType = o.rootType
  fields : ∃ fields : SelectionSet, fields ≠ [] ∧ fields.Sublist o.rootFields ∧
    f.selection.map SelectionNode.bare = fields.map SelectionNode.bare ∧
    ∀ n ∈ fields, (p.index.ownersOf n.onType n.name).head? = some f.source

theorem decompose_holdsRoots (hb : b.index = .valid p.index) (h : p.decompose o = .ok d) :
    ∀ f ∈ d.roots, p.HoldsRoots o f := by
  intro f hf
  have hplace : f.onType = o.rootType ∧ f.providedPath = .root := by
    obtain ⟨hmem, hroot⟩ := List.mem_filter.1 hf
    cases decomposes_of_ok (complete_rooted hb) h with
    | mk fields owned enters =>
      obtain ⟨e, he, rfl⟩ := List.mem_map.1 hmem
      exact enters.place e he hroot
  obtain ⟨roots, drafts, rfl, hrooted⟩ := decompose_rooted hb h
  have hgroup : (f.source, f.selection.map SelectionNode.bare) ∈
      (rootGroups o roots).map fun g => (g.1, g.2.map SelectionNode.bare) := by
    rw [← hrooted.fragments]
    exact List.mem_map_of_mem hf
  obtain ⟨g, hg, heq⟩ := List.mem_map.1 hgroup
  obtain ⟨hsource, hfields⟩ := Prod.mk.inj heq
  refine ⟨hplace.2, hplace.1, g.2, ne_nil_of_mem_rootGroups hg, ?_, hfields.symm, fun n hn => ?_⟩
  · rw [← hrooted.fields]
    exact sublist_roots_of_mem_rootGroups hg
  · have hmem : (g.1, n) ∈ ungroup (rootGroups o roots) := mem_ungroup.2 ⟨g, hg, rfl, hn⟩
    rw [← hsource]
    exact hrooted.owned _ ((ungroup_rootGroups_perm o roots).subset hmem)

/-- What was entered waits for one draft in front of it, below the root. -/
theorem Entered.waitsForOne {above : List String} {s : SelectionSet} {holders : List Holder}
    {numbered : List (Draft × Nat)} {e : Draft × Nat} (h : p.Entered above s holders numbered e) :
    ∃ parent < e.2, e.1.parents = [parent] ∧ e.1.fragment.providedPath ≠ .root := by
  obtain ⟨holder, -, way, last, field, -, hentered⟩ := h
  obtain ⟨parent, hparents⟩ : ∃ parent, e.1.parents = [parent] := by
    cases hentered.receives with
    | direct parents owns held => exact ⟨_, parents⟩
    | beyond mem parents before place same owns held => exact ⟨_, parents⟩
  refine ⟨parent, hentered.earlier parent (by simp [hparents]), hparents, fun hroot => ?_⟩
  have hkeys := p.keys_foldl_placeBelow (way ++ [last]) holder.1.path
  rw [hentered.path, hroot] at hkeys
  simp [ResponsePath.keys, ResponsePath.root] at hkeys

theorem decompose_enteredOnce (h : p.decompose o = .ok d) {id : Nat} {f : FetchFragment}
    (hf : d.fragments[id]? = some f) (hroot : f.isRoot = false) : d.EnteredOnce id f := by
  obtain ⟨drafts, rfl, groups, -, htraced⟩ := decompose_traced h
  obtain ⟨c, hc, rfl⟩ := Decomposition.exists_draft hf
  cases htraced _ hc with
  | inl root =>
    have hempty : c.fragment.isRoot = true := List.isEmpty_iff.2 root.keys
    rw [hempty] at hroot
    exact nomatch hroot
  | inr hentered =>
    obtain ⟨parent, hlt, hparents, hbelow⟩ := hentered.waitsForOne
    refine ⟨hbelow, parent, hlt, ?_⟩
    rw [Decomposition.parentsOf_ofDrafts hc, hparents]
    rfl

/-- Dependencies lead from a fragment to one in front of it. -/
theorem decompose_bounds (h : p.decompose o = .ok d) :
    ∀ dep ∈ d.dependencies, dep.parent < dep.child ∧ dep.child < d.fragments.length ∧
      ∃ f, d.fragments[dep.child]? = some f ∧ dep.keys = f.requiredKeys := by
  obtain ⟨drafts, rfl, groups, -, htraced⟩ := decompose_traced h
  intro dep hdep
  obtain ⟨c, hc, hparent, hkeys⟩ := Decomposition.mem_dependencies_ofDrafts.1 hdep
  have hf := Decomposition.fragment?_ofDrafts hc
  refine ⟨?_, (List.getElem?_eq_some_iff.1 hf).1, _, hf, hkeys⟩
  cases htraced _ hc with
  | inl root => exact root.earlier _ hparent
  | inr hentered =>
    obtain ⟨_, -, _, _, _, -, hentered⟩ := hentered
    exact hentered.earlier _ hparent

end Planner

/-- Dependencies lead to fragments in front. What receives keys was entered once, below the root;
what does not is a root fragment, and it waits without keys, in mutations only. The fragments of any
other operation make a forest. -/
theorem decompose_dependencies {b : Blueprint} {p : Planner} {o : Operation} {d : Decomposition}
    (hb : b.index = .valid p.index) (h : p.decompose o = .ok d) :
    (∀ dep ∈ d.dependencies, dep.parent < dep.child ∧ dep.child < d.fragments.length) ∧
    (∀ (id : Nat) f, d.fragments[id]? = some f → f.requiredKeys ≠ [] → d.EnteredOnce id f) ∧
    (∀ (id : Nat) f, d.fragments[id]? = some f → f.requiredKeys = [] → p.HoldsRoots o f ∧
      (∀ dep ∈ d.parentsOf id, dep.keys = []) ∧
      (o.kind ≠ .mutation → d.parentsOf id = [])) ∧
    (o.kind ≠ .mutation → d.Forest) := by
  have hbounds := Planner.decompose_bounds h
  have hfree : o.kind ≠ .mutation → ∀ (id : Nat) f, d.fragments[id]? = some f →
      f.isRoot = true → ∀ parent, ¬d.Waits id parent := by
    intro hkind id f hf hroot
    obtain ⟨roots, drafts, rfl, hrooted⟩ := Planner.decompose_rooted hb h
    exact (hrooted.parallel hkind).free id f hf hroot
  refine ⟨fun dep hdep => ⟨(hbounds dep hdep).1, (hbounds dep hdep).2.1⟩, fun id f hf hkeys => ?_,
    fun id f hf hkeys => ?_, fun hkind => ?_⟩
  · exact Planner.decompose_enteredOnce h hf (by simpa [FetchFragment.isRoot] using hkeys)
  · have hroot : f.isRoot = true := List.isEmpty_iff.2 hkeys
    have hmem : f ∈ d.roots := List.mem_filter.2 ⟨List.mem_of_getElem? hf, hroot⟩
    refine ⟨Planner.decompose_holdsRoots hb h f hmem, fun dep hdep => ?_, fun hkind => ?_⟩
    · obtain ⟨hin, hchild⟩ := List.mem_filter.1 hdep
      obtain ⟨-, -, g, hg, hequal⟩ := hbounds dep hin
      rw [of_decide_eq_true hchild, hf] at hg
      cases hg
      rw [hequal, hkeys]
    · refine List.eq_nil_iff_forall_not_mem.2 fun dep hdep => ?_
      exact hfree hkind id f hf hroot dep.parent (Decomposition.waits_iff.2 ⟨dep, hdep, rfl⟩)
  · refine Decomposition.forest_of_enteredOnce (fun id f => Planner.decompose_enteredOnce h)
      (hfree hkind) fun hwaits => ?_
    exact Planner.lt_of_waits h hwaits

/-- In the shop, `shipping` waits for `products`, and all goes back to `reviews`. -/
theorem decompose_dependencies_shop : shopQuery.kind ≠ .mutation ∧
    shopFragments.fragments.map (·.isRoot) = [true, false, false, false] ∧
    shopFragments.Forest ∧ ∀ (id : Nat) f, shopFragments.fragments[id]? = some f →
      f.requiredKeys ≠ [] → shopFragments.EnteredOnce id f := by
  have hkind : shopQuery.kind ≠ .mutation := by decide +kernel
  obtain ⟨-, hentered, -, hforest⟩ := decompose_dependencies shop_index shop_decompose
  exact ⟨hkind, by decide +kernel, hforest hkind, hentered⟩

end FederatedQuery
