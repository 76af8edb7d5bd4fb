import FederatedQuery.Proofs.Decomposition.Provenance

/-!
Every key that a fragment receives is selected by the fragment it depends on, at the place where
the child starts, and by a source that resolves it.
-/
namespace FederatedQuery

structure KeysStand (parent child : FetchFragment) (way : List SelectionNode) : Prop where
  below : child.providedPath.keysBelow? parent.providedPath = some (way.map (·.responseKey))
  held : ∀ k ∈ child.requiredKeys, ∃ n ∈ SelectionSet.after parent.selection way,
    n.name = k ∧ n.alias? = none ∧
      (n.onType = child.onType ∨ way.getLast?.map (·.ofType) = some n.onType)

namespace Decomposition

theorem mem_dependencies_ofDrafts {drafts : List Draft} {dep : Dependency} :
    dep ∈ (ofDrafts drafts).dependencies ↔ ∃ d, (d, dep.child) ∈ drafts.zipIdx ∧
      dep.parent ∈ d.parents ∧ dep.keys = d.fragment.requiredKeys := by
  obtain ⟨parent, child, keys⟩ := dep
  simp only [ofDrafts, List.mem_flatMap, List.mem_map, Prod.exists, Dependency.mk.injEq]
  constructor
  · rintro ⟨d, id, hmem, q, hq, rfl, rfl, rfl⟩
    exact ⟨d, hmem, hq, rfl⟩
  · rintro ⟨d, hmem, hq, rfl⟩
    exact ⟨d, child, hmem, parent, hq, rfl, rfl, rfl⟩

theorem fragment?_ofDrafts {drafts : List Draft} {d : Draft} {id : Nat}
    (h : (d, id) ∈ drafts.zipIdx) : (ofDrafts drafts).fragments[id]? = some d.fragment := by
  have hget : drafts[id]? = some d := List.mem_zipIdx_iff_getElem?.1 h
  simp [ofDrafts, hget]

end Decomposition

namespace Planner
variable {p : Planner} {s : SelectionSet} {numbered : List (Draft × Nat)}

theorem mem_map_holder {holder : Holder} (h : holder ∈ numbered.map Draft.holder) :
    ∃ d, (d, holder.1.id) ∈ numbered ∧ d.fragment.source = holder.1.source ∧
      d.fragment.providedPath = holder.1.path ∧ d.fragment.selection = holder.2 := by
  obtain ⟨e, he, rfl⟩ := List.mem_map.1 h
  exact ⟨e.1, he, rfl, rfl, rfl⟩

/-- What a draft waits for supplies its keys. -/
theorem Entered.supplied {e : Draft × Nat} {id : Nat}
    (h : p.Entered [] s (numbered.map Draft.holder) numbered e) (hid : id ∈ e.1.parents) :
    ∃ d, (d, id) ∈ numbered ∧
      p.index.resolvesAll e.1.fragment.onType d.fragment.source e.1.fragment.requiredKeys = true ∧
      ∃ way, SelectionSet.Descends d.fragment.selection way ∧
        (s.DistinctKeys → SelectionSet.DescendsFirst d.fragment.selection way) ∧
        KeysStand d.fragment e.1.fragment way := by
  obtain ⟨holder, hholder, way, last, field, -, hentered⟩ := h
  cases hentered.receives with
  | direct parents owns held =>
    obtain ⟨d, hd, hsource, hpath, hselection⟩ := mem_map_holder hholder
    rw [parents, List.mem_singleton] at hid
    subst hid
    refine ⟨d, hd, hsource ▸ owns, way ++ [last], hselection ▸ hentered.descends,
      hselection ▸ hentered.first, ?_, fun k hk => ?_⟩
    · rw [← hentered.path, hpath]
      exact p.keysBelow?_foldl_placeBelow _ _
    · obtain ⟨n, hn, hname, halias, htype⟩ := SelectionSet.holdsKey_iff.1 (held k hk)
      rw [SelectionSet.after_concat]
      exact ⟨n, hn, hname, halias, htype.imp_right fun ht => by simp [ht]⟩
  | @beyond base id mem parents before place same owns held =>
    rw [parents, List.mem_singleton] at hid
    subst hid
    -- the base stands at the same place, so no way is left to go
    refine ⟨base, mem, owns, [], trivial, fun _ => trivial, ?_, fun k hk => ?_⟩
    · rw [place]
      exact p.keysBelow?_foldl_placeBelow [] _
    · obtain ⟨n, hn, hname, halias, htype⟩ := SelectionSet.holdsKey_iff.1 (held k hk)
      exact ⟨n, hn, hname, halias, .inl (htype.elim (·) (·))⟩

end Planner

/-- A dependency hands over the key that the source of the child wants and all that its fields
require. The parent resolves each of them and selects it where the child starts. -/
theorem decompose_forwards_keys {p : Planner} {o : Operation} {d : Decomposition}
    (h : p.decompose o = .ok d) {dep : Dependency} (hdep : dep ∈ d.dependencies)
    (hkeys : dep.keys ≠ []) :
    ∃ parent child, d.fragments[dep.parent]? = some parent ∧
      d.fragments[dep.child]? = some child ∧
      dep.keys = child.requiredKeys ∧
      p.index.keyFor child.onType child.source <+: dep.keys ∧
      (∀ n ∈ child.selection, n.isHidden = false →
        p.index.requiresOf n.onType n.name child.source ⊆ dep.keys) ∧
      (∀ k ∈ dep.keys, parent.source ∈ p.index.ownersOf child.onType k) ∧
      ∃ way, SelectionSet.Descends parent.selection way ∧ KeysStand parent child way := by
  obtain ⟨drafts, rfl, groups, -, htraced⟩ := Planner.decompose_traced h
  obtain ⟨c, hc, hparent, hequal⟩ := Decomposition.mem_dependencies_ofDrafts.1 hdep
  cases htraced _ hc with
  | inl hroot => exact absurd (hequal.trans hroot.keys) hkeys
  | inr hentered =>
    obtain ⟨f, hf, howns, way, hway, -, hstand⟩ := hentered.supplied hparent
    refine ⟨f.fragment, c.fragment, Decomposition.fragment?_ofDrafts hf,
      Decomposition.fragment?_ofDrafts hc, hequal, ?_⟩
    rw [hequal]
    obtain ⟨_, -, _, _, _, -, hentered⟩ := hentered
    exact ⟨hentered.formed.keyed, hentered.formed.requires,
      fun k hk => SchemaIndex.mem_ownersOf_of_resolvesAll howns hk, way, hway, hstand⟩

/-- The keys of the shop stand where they are needed, also those for `shipping`. -/
theorem decompose_forwards_keys_shop :
    shopFragments.dependencies.map (fun dep => (dep.parent, dep.child)) = [(0, 1), (1, 2), (0, 3)] ∧
    ∀ dep ∈ shopFragments.dependencies, ∃ parent child way,
      shopFragments.fragments[dep.parent]? = some parent ∧
      shopFragments.fragments[dep.child]? = some child ∧
      SelectionSet.Descends parent.selection way ∧ KeysStand parent child way := by
  have hkeys : ∀ dep ∈ shopFragments.dependencies, dep.keys ≠ [] := by decide +kernel
  refine ⟨by decide +kernel, fun dep hdep => ?_⟩
  obtain ⟨parent, child, hparent, hchild, -, -, -, -, way, hway, hstand⟩ :=
    decompose_forwards_keys shop_decompose hdep (hkeys dep hdep)
  exact ⟨parent, child, way, hparent, hchild, hway, hstand⟩

end FederatedQuery
