import FederatedQuery.Proofs.Decomposition.Contents
import FederatedQuery.Proofs.Decomposition.Routing

/-!
Sub-selections. A field that loses all of its children to other sources is left with a key of what
is entered below it, so a copy of a field has a sub-selection exactly if the field has one. The keys
have none, whatever they return.
-/
namespace FederatedQuery

def SelectionNode.WellFormed (x : SchemaIndex) (n : SelectionNode) : Prop :=
  n.children ≠ [] ↔ x.hasType n.ofType = true

instance (x : SchemaIndex) (n : SelectionNode) : Decidable (n.WellFormed x) :=
  inferInstanceAs (Decidable (_ ↔ _))

namespace Planner

/-- A copy of a field of the selection, with a sub-selection exactly if the field has one, or a key
that is owed. -/
def Stems (p : Planner) (owed : String → String → Prop) (s : SelectionSet) (c : SelectionNode) :
    Prop :=
  (∃ q ∈ s.allFields, c.asked = q.asked ∧ (c.children = [] ↔ q.children = [])) ∨
    ∃ place type key, owed type key ∧ c = p.keyNode place type key

structure Retained (p : Planner) (s t : SelectionSet) (drafts : List Draft) : Prop where
  kept : ∀ c ∈ t.allFields, p.Stems (p.Owes (drafts.map (·.fragment))) s c
  filled : ∀ d ∈ drafts, d.fragment.selection ≠ []
  entered : ∀ d ∈ drafts, ∀ c ∈ d.fragment.selection.allFields,
    p.Stems (p.Owes (drafts.map (·.fragment))) s c

def CarriesLeaves (p : Planner) (d : Decomposition) : Prop :=
  ∀ f ∈ d.fragments, ∀ k ∈ p.carried f.requiredKeys,
    p.index.hasType (p.keyNode [] f.onType k).ofType = false

instance (p : Planner) (d : Decomposition) : Decidable (p.CarriesLeaves d) :=
  inferInstanceAs (Decidable (∀ _ ∈ _, _))

section Laws
variable {p : Planner} {owed more : String → String → Prop} {s s' t t' : SelectionSet}
  {c : SelectionNode} {drafts others : List Draft}

theorem Stems.mono (h : p.Stems owed s c) (hs : s ⊆ t)
    (hmore : ∀ type key, owed type key → more type key) : p.Stems more t c := by
  cases h with
  | inl hcopy =>
    obtain ⟨q, hq, hasked, hchildren⟩ := hcopy
    exact .inl ⟨q, SelectionSet.allFields_subset hs hq, hasked, hchildren⟩
  | inr hkey =>
    obtain ⟨place, type, key, due, heq⟩ := hkey
    exact .inr ⟨place, type, key, hmore _ _ due, heq⟩

theorem Stems.of_child {n : SelectionNode} (h : p.Stems owed n.children c) :
    p.Stems owed [n] c := by
  refine h.imp_left fun hcopy => ?_
  obtain ⟨q, hq, hasked, hchildren⟩ := hcopy
  exact ⟨q, SelectionSet.mem_allFields_of_child List.mem_cons_self hq, hasked, hchildren⟩

theorem Stems.of_mem (h : c ∈ s.allFields) : p.Stems owed s c := .inl ⟨c, h, rfl, Iff.rfl⟩

theorem Adds.stems (h : p.Adds owed t t') (ht : ∀ c ∈ t.allFields, p.Stems owed s c) :
    ∀ c ∈ SelectionSet.allFields t', p.Stems owed s c := by
  obtain ⟨added, rfl, hadded⟩ := h.eq_append
  rw [SelectionSet.allFields_append]
  refine List.forall_mem_append.2 ⟨ht, fun c hc => ?_⟩
  obtain ⟨n, hn, hc⟩ := SelectionSet.mem_allFields_iff.1 hc
  obtain ⟨place, type, key, due, rfl⟩ := hadded n hn
  cases hc with
  | inl heq => exact .inr ⟨place, type, key, due, heq⟩
  | inr hbelow => exact nomatch hbelow

namespace Retained

theorem nil (p : Planner) (s : SelectionSet) : p.Retained s [] [] := ⟨nofun, nofun, nofun⟩

theorem append (h : p.Retained s t drafts) (h' : p.Retained s' t' others) :
    p.Retained (s ++ s') (t ++ t') (drafts ++ others) := by
  have hleft := owes_mono (p := p) (List.subset_append_left drafts others)
  have hright := owes_mono (p := p) (List.subset_append_right drafts others)
  refine ⟨?_, List.forall_mem_append.2 ⟨h.filled, h'.filled⟩,
    List.forall_mem_append.2 ⟨fun d hd c hc => ?_, fun d hd c hc => ?_⟩⟩
  · rw [SelectionSet.allFields_append]
    refine List.forall_mem_append.2 ⟨fun c hc => ?_, fun c hc => ?_⟩
    · exact (h.kept c hc).mono (by simp) hleft
    · exact (h'.kept c hc).mono (by simp) hright
  · exact (h.entered d hd c hc).mono (by simp) hleft
  · exact (h'.entered d hd c hc).mono (by simp) hright

theorem subset (h : p.Retained s t drafts) (hs : s ⊆ s') : p.Retained s' t drafts :=
  ⟨fun c hc => (h.kept c hc).mono hs fun _ _ due => due, h.filled,
    fun d hd c hc => (h.entered d hd c hc).mono hs fun _ _ due => due⟩

theorem adds (h : p.Retained s t drafts) (hadds : p.Adds (p.Owes (drafts.map (·.fragment))) t t') :
    p.Retained s t' drafts := ⟨hadds.stems h.kept, h.filled, h.entered⟩

theorem node {n : SelectionNode} (h : p.Retained n.children t drafts)
    (hempty : t = [] ↔ n.children = []) : p.Retained [n] [{ n with children := t }] drafts := by
  refine ⟨fun c hc => ?_, h.filled, fun d hd c hc => (h.entered d hd c hc).of_child⟩
  rw [SelectionSet.allFields_cons, SelectionSet.allFields_nil, List.append_nil] at hc
  cases List.mem_cons.1 hc with
  | inl hself =>
    subst hself
    exact .inl ⟨n, SelectionSet.mem_allFields_of_mem List.mem_cons_self, rfl, hempty⟩
  | inr hbelow => exact (h.kept c hbelow).of_child

end Retained
end Laws

def Retains (p : Planner) : Completion := fun _ _ n m drafts => p.Retained [n] [m] drafts

end Planner

section Retains
variable {b : Blueprint} {C : Completion} {p : Planner} {site : Site} {next : Nat}
  {ns : List SelectionNode} {drafts : List Draft}

theorem CompletesAll.ne_nil {ms : List SelectionNode} (h : CompletesAll C site next ns ms drafts)
    (hne : ns ≠ []) : ms ≠ [] := by
  cases h with
  | nil => exact hne
  | cons first rest => exact List.cons_ne_nil _ _

theorem CompletesAll.retained {ms : List SelectionNode}
    (h : CompletesAll p.Retains site next ns ms drafts) : p.Retained ns ms drafts := by
  induction h with
  | nil => exact .nil p []
  | cons first _ ih => exact first.append ih

theorem Routes.retained {provided : List String} {kept : List SelectionNode}
    {leaving : List ((Source × String) × SelectionNode)}
    (h : Routes p.Retains p site provided next ns kept leaving drafts) :
    p.Retained ns kept drafts := by
  induction h with
  | nil => exact .nil p []
  | @typename _ n _ _ _ _ _ _ ih =>
    have hself : p.Retained [n] [n] [] := ⟨fun c hc => .of_mem hc, nofun, nofun⟩
    exact hself.append ih
  | stays _ first _ ih => exact first.append ih
  | leaves _ _ _ _ ih => exact ih.subset (by simp)

/-- Children stay or leave. -/
theorem Routes.kept_or_leaving {provided : List String} {kept : List SelectionNode}
    {leaving : List ((Source × String) × SelectionNode)}
    (h : Routes C p site provided next ns kept leaving drafts) (hne : ns ≠ []) :
    kept ≠ [] ∨ leaving ≠ [] := by
  cases h with
  | nil => exact absurd rfl hne
  | typename name rest => exact .inl (List.cons_ne_nil _ _)
  | stays resolves first rest => exact .inl (List.cons_ne_nil _ _)
  | leaves lacks foreign owned rest => exact .inr (List.cons_ne_nil _ _)

/-! ### Keys fill what is empty -/

theorem MadeFor.keys_ne_nil (hb : b.index = .valid p.index) {bases : List Entry} {g : Group}
    {e : Entry} (h : MadeFor C p site bases g e) : e.fragment.requiredKeys ≠ [] := by
  have hforwarded : p.index.keyFor g.1.2 g.1.1 ≠ [] →
      p.index.forwardedKeys g.1.2 g.1.1 (g.2.map (·.name)) ≠ [] :=
    (p.index.keyFor_prefix_forwardedKeys g.1.2 g.1.1 (g.2.map (·.name))).ne_nil
  cases h with
  | direct hop fill =>
    obtain ⟨hkey, rfl, -⟩ := SchemaIndex.hop_direct hop
    exact hforwarded hkey
  | base hop =>
    obtain ⟨-, -, -, ⟨entry, hentry, rfl⟩, -⟩ := SchemaIndex.hop_bridged hop
    exact SchemaIndex.key_of_entryPoint? hb hentry
  | beyond hop mem parent same place earlier fill =>
    obtain ⟨hkey, rfl, -⟩ := SchemaIndex.hop_bridged hop
    exact hforwarded hkey

theorem Planner.carry_ne_nil {place : List String} {entries : List Entry} {id : Nat}
    {enclosing? : Option String} {s : SelectionSet}
    (h : s ≠ [] ∨ ∃ c ∈ entries, c.parent = id ∧ c.fragment.requiredKeys ≠ []) :
    p.carry place entries id enclosing? s ≠ [] := by
  obtain ⟨added, heq, -, hheld⟩ := p.carry_spec place entries id enclosing? s
  rw [heq]
  cases h with
  | inl hs => exact List.append_ne_nil_of_left_ne_nil hs added
  | inr hentered =>
    obtain ⟨c, hc, hparent, hkeys⟩ := hentered
    obtain ⟨k, hk⟩ := List.exists_mem_of_ne_nil _ hkeys
    obtain ⟨n, hn, -⟩ := SelectionSet.holdsKey_iff.1
      (hheld c hc hparent k (p.mem_carried.2 (.inr hk)))
    exact List.ne_nil_of_mem hn

/-- The first fragment entered at a site is entered from the site itself. -/
theorem Enters.exists_at_site {groups : List Group} {entries : List Entry}
    (h : Enters C p site [] next groups entries) (hne : groups ≠ []) :
    ∃ e ∈ entries, e.parent = site.id := by
  cases h with
  | nil => exact absurd rfl hne
  | direct hop fill rest => exact ⟨_, List.mem_cons_self, rfl⟩
  | beyond hop base parent same fill rest => exact nomatch base
  | bridged hop fill rest => exact ⟨_, List.mem_cons_self, rfl⟩

/-- An entry has fields, or another one is entered over it. -/
theorem Enters.filled_or_base {known : List Entry} {groups : List Group} {entries : List Entry}
    (h : Enters C p site known next groups entries) (hgroups : ∀ g ∈ groups, g.2 ≠ []) :
    ∀ e ∈ entries, e.fragment.selection ≠ [] ∨ ∃ c ∈ entries, c.parent = e.id := by
  have hwiden : ∀ {entries : List Entry} {first e : Entry},
      (e.fragment.selection ≠ [] ∨ ∃ c ∈ entries, c.parent = e.id) →
      e.fragment.selection ≠ [] ∨ ∃ c ∈ first :: entries, c.parent = e.id := by
    intro entries first e he
    refine he.imp_right fun hbase => ?_
    obtain ⟨c, hc, hparent⟩ := hbase
    exact ⟨c, List.mem_cons_of_mem first hc, hparent⟩
  induction h with
  | nil => exact nofun
  | direct hop fill _ ih =>
    obtain ⟨hfirst, hrest⟩ := List.forall_mem_cons.1 hgroups
    exact List.forall_mem_cons.2 ⟨.inl (fill.ne_nil hfirst), fun e he => hwiden (ih hrest e he)⟩
  | beyond hop base parent same fill _ ih =>
    obtain ⟨hfirst, hrest⟩ := List.forall_mem_cons.1 hgroups
    exact List.forall_mem_cons.2 ⟨.inl (fill.ne_nil hfirst), fun e he => hwiden (ih hrest e he)⟩
  | bridged hop fill _ ih =>
    obtain ⟨hfirst, hrest⟩ := List.forall_mem_cons.1 hgroups
    refine List.forall_mem_cons.2 ⟨.inr ⟨_, List.mem_cons_of_mem _ List.mem_cons_self, rfl⟩,
      List.forall_mem_cons.2 ⟨.inl (fill.ne_nil hfirst), fun e he => ?_⟩⟩
    exact hwiden (hwiden (ih hrest e he))

/-! ### Completed fields -/

theorem MadeFor.retained {bases : List Entry} {g : Group} {e : Entry}
    (h : MadeFor p.Retains p site bases g e) :
    p.Retained g.2 e.fragment.selection e.inner := by
  cases h.filled with
  | inl hempty =>
    rw [hempty.1, hempty.2]
    exact .nil p g.2
  | inr fill => exact fill.retained

/-- With the keys in place, no fragment that was entered is empty. -/
theorem Enters.retained (hb : b.index = .valid p.index) {groups : List Group}
    {entries : List Entry} (h : Enters p.Retains p site [] next groups entries)
    (hgroups : ∀ g ∈ groups, g.2 ≠ [] ∧ g.2 ⊆ ns) (place : List String) :
    p.Retained ns [] ((entries.map (p.carryEntry place entries)).flatMap Entry.drafts) := by
  have hmade := h.made (by simp [Site.Before])
  have hbases := h.filled_or_base fun g hg => (hgroups g hg).1
  set all := (entries.map (p.carryEntry place entries)).flatMap Entry.drafts
  have hretained : ∀ e ∈ entries, p.Retained ns e.fragment.selection e.inner := by
    intro e he
    obtain ⟨-, g, hg, hmade⟩ := hmade e he
    exact hmade.retained.subset (hgroups g hg).2
  have hmore : ∀ e ∈ entries, ∀ type key, p.Owes (e.inner.map (·.fragment)) type key →
      p.Owes (all.map (·.fragment)) type key := by
    intro e he
    exact Planner.owes_mono fun d hd => p.mem_drafts_carryEntry.2 ⟨e, he, .inr hd⟩
  refine ⟨fun _ hc => absurd hc List.not_mem_nil, fun d hd => ?_, fun d hd => ?_⟩
  · obtain ⟨e, he, hd⟩ := p.mem_drafts_carryEntry.1 hd
    cases hd with
    | inl hself =>
      subst hself
      -- a base without fields of its own holds the keys of what is entered over it
      refine Planner.carry_ne_nil ((hbases e he).imp_right fun hbase => ?_)
      obtain ⟨c, hc, hparent⟩ := hbase
      obtain ⟨-, g, -, hg⟩ := hmade c hc
      exact ⟨c, hc, hparent, hg.keys_ne_nil hb⟩
    | inr hinner => exact (hretained e he).filled d hinner
  · obtain ⟨e, he, hd⟩ := p.mem_drafts_carryEntry.1 hd
    cases hd with
    | inl hself =>
      subst hself
      refine Planner.Adds.stems (Planner.carry_adds place none e.fragment.selection
        fun _ hc _ hk => Planner.owes_entered place [] hc hk) fun c hc => ?_
      exact ((hretained e he).kept c hc).mono (List.Subset.refl _) (hmore e he)
    | inr hinner =>
      exact fun c hc =>
        ((hretained e he).entered d hinner c hc).mono (List.Subset.refl _) (hmore e he)

/-- The children that stay hold keys for those that leave. -/
theorem Routes.carry_ne_nil (hb : b.index = .valid p.index) {provided : List String}
    (place : List String) {kept : List SelectionNode}
    {leaving : List ((Source × String) × SelectionNode)} {groups : List Group}
    {entries : List Entry} {later : Nat}
    (routes : Routes C p site provided next ns kept leaving drafts)
    (grouped : groups.Perm (gather leaving)) (enters : Enters C p site [] later groups entries)
    (hne : ns ≠ []) (enclosing? : Option String) :
    p.carry place entries site.id enclosing? kept ≠ [] := by
  refine Planner.carry_ne_nil ((routes.kept_or_leaving hne).imp_right fun hleaving => ?_)
  have hgroups : groups ≠ [] := by
    intro hnil
    have hempty : gather leaving = [] := List.nil_perm.1 (hnil ▸ grouped)
    have hperm := ungroup_gather_perm leaving
    rw [hempty] at hperm
    exact hleaving (List.nil_perm.1 hperm)
  obtain ⟨e, he, hparent⟩ := enters.exists_at_site hgroups
  obtain ⟨-, g, -, hg⟩ := enters.made (by simp [Site.Before]) e he
  exact ⟨e, he, hparent, hg.keys_ne_nil hb⟩

theorem Splits.retained (hb : b.index = .valid p.index) {n : SelectionNode} {place : List String}
    {kept : List SelectionNode} (hne : n.children ≠ [])
    (h : Splits p.Retains p { site with path := p.placeBelow site.path n } n.ofType
      (p.providedBelow site.source n) place n.children next kept drafts) :
    p.Retains site next n { n with children := kept } drafts := by
  cases h with
  | @mk kept leaving drafts groups entries routes grouped enters =>
    have hgroups : ∀ g ∈ groups, g.2 ≠ [] ∧ g.2 ⊆ n.children := by
      intro g hg
      have hg := grouped.subset hg
      exact ⟨ne_nil_of_mem_gather g hg, (routes.group_sublist hg).subset⟩
    have hparts := (routes.retained.append (enters.retained hb hgroups place)).subset
      (show n.children ++ n.children ⊆ n.children by simp)
    rw [List.append_nil] at hparts
    have hcarried := routes.carry_ne_nil hb place grouped enters hne (some n.ofType)
    refine Planner.Retained.node (hparts.adds ?_) (iff_of_false hcarried hne)
    exact Planner.carry_adds place (some n.ofType) kept fun _ he _ hk =>
      Planner.owes_entered place drafts he hk

theorem Planner.complete_retained (hb : b.index = .valid p.index) (n : SelectionNode) :
    p.Completes p.Retains n := by
  refine complete_induction (fun site next n hleaf => ?_)
    (fun _ _ _ _ _ hne h => h.retained hb hne) n
  exact ⟨fun c hc => .of_mem hc, nofun, nofun⟩

theorem EntersRoots.retained {serial : Bool} {rootType : String} {previous? : Option Nat}
    {groups : List (Source × List SelectionNode)}
    (h : EntersRoots p.Retains serial rootType previous? next groups drafts)
    (hgroups : ∀ g ∈ groups, g.2 ≠ [] ∧ g.2 ⊆ ns) : p.Retained ns [] drafts := by
  induction h with
  | nil => exact .nil p ns
  | @cons previous? next source fields nodes inner more groups fill _ ih =>
    obtain ⟨⟨hne, hfields⟩, hgroups⟩ := List.forall_mem_cons.1 hgroups
    have hfill := fill.retained.subset hfields
    set root : Draft := ⟨⟨source, rootType, nodes, [], .root⟩, rootParents serial previous? next⟩
    have hmore := Planner.owes_mono (p := p) (List.subset_cons_self root inner)
    have hroot : p.Retained ns [] (root :: inner) :=
      ⟨nofun, List.forall_mem_cons.2 ⟨fill.ne_nil hne, hfill.filled⟩, List.forall_mem_cons.2
        ⟨fun c hc => (hfill.kept c hc).mono (List.Subset.refl _) hmore,
          fun d hd c hc => (hfill.entered d hd c hc).mono (List.Subset.refl _) hmore⟩⟩
    exact (hroot.append (ih hgroups)).subset (by simp)

/-- No fragment is empty, and all of its fields are copies of fields of the operation or keys. -/
theorem Planner.decompose_retained (hb : b.index = .valid p.index) {o : Operation}
    {d : Decomposition} (h : p.decompose o = .ok d) :
    ∀ f ∈ d.fragments, f.selection ≠ [] ∧
      ∀ c ∈ f.selection.allFields, p.Stems (p.Owes d.fragments) o.selection c := by
  cases decomposes_of_ok (complete_retained hb) h with
  | @mk roots drafts fields _ enters =>
    have hretained : p.Retained o.selection [] drafts := by
      refine enters.retained fun g hg => ?_
      exact ⟨ne_nil_of_mem_rootGroups hg, (sublist_of_mem_rootGroups fields hg).subset⟩
    intro f hf
    obtain ⟨draft, hdraft, rfl⟩ := List.mem_map.1 hf
    exact ⟨hretained.filled draft hdraft, hretained.entered draft hdraft⟩

end Retains

/-- If the fields of an operation have sub-selections where their types need them, so have those of
the fragments, and no fragment is empty. Only a key that returns a type of the index lacks the
sub-selection it needs. -/
theorem decompose_wellFormed {b : Blueprint} {p : Planner} {o : Operation} {d : Decomposition}
    (hb : b.index = .valid p.index) (ho : ∀ n ∈ o.selection.allFields, n.WellFormed p.index)
    (h : p.decompose o = .ok d) :
    (∀ f ∈ d.fragments, f.selection ≠ []) ∧
    (∀ f ∈ d.fragments, ∀ n ∈ f.selection.allFields, n.WellFormed p.index ∨
      p.index.hasType n.ofType = true ∧
        ∃ place type key, p.Owes d.fragments type key ∧ n = p.keyNode place type key) ∧
    (p.CarriesLeaves d → ∀ f ∈ d.fragments, ∀ n ∈ f.selection.allFields,
      n.WellFormed p.index) := by
  have hretained := Planner.decompose_retained hb h
  have hnodes : ∀ f ∈ d.fragments, ∀ n ∈ f.selection.allFields, n.WellFormed p.index ∨
      p.index.hasType n.ofType = true ∧
        ∃ place type key, p.Owes d.fragments type key ∧ n = p.keyNode place type key := by
    intro f hf n hn
    cases (hretained f hf).2 n hn with
    | inl hcopy =>
      obtain ⟨q, hq, hasked, hchildren⟩ := hcopy
      have htype : n.ofType = q.ofType := congrArg Asked.ofType hasked
      refine .inl ?_
      rw [SelectionNode.WellFormed, htype]
      exact (not_congr hchildren).trans (ho q hq)
    | inr hkey =>
      obtain ⟨place, type, key, howes, rfl⟩ := hkey
      cases htype : p.index.hasType (p.keyNode place type key).ofType with
      | true => exact .inr ⟨rfl, place, type, key, howes, rfl⟩
      | false =>
        refine .inl (iff_of_false (fun hne => hne rfl) ?_)
        rw [htype]
        exact nofun
  refine ⟨fun f hf => (hretained f hf).1, hnodes, fun hleaves f hf n hn => ?_⟩
  cases hnodes f hf n hn with
  | inl hformed => exact hformed
  | inr hkey =>
    obtain ⟨htype, place, type, key, ⟨g, hg, rfl, hk⟩, rfl⟩ := hkey
    exact absurd htype (Bool.eq_false_iff.1 (hleaves g hg key hk))

theorem decompose_wellFormed_shop : shop.CarriesLeaves shopFragments ∧
    ∀ f ∈ shopFragments.fragments, f.selection ≠ [] ∧
      ∀ n ∈ f.selection.allFields, n.WellFormed shop.index := by
  have hfields : ∀ n ∈ shopQuery.selection.allFields, n.WellFormed shop.index := by
    decide +kernel
  have hleaves : shop.CarriesLeaves shopFragments := by decide +kernel
  obtain ⟨hfilled, -, hformed⟩ := decompose_wellFormed shop_index hfields shop_decompose
  exact ⟨hleaves, fun f hf => ⟨hfilled f hf, hformed hleaves f hf⟩⟩

def partsSchema : Blueprint :=
  ⟨"Query", none, none, ["catalog", "stock"],
    [⟨"Query", [{ graph := "catalog" }], [⟨"part", .named "Part" false, []⟩]⟩,
     ⟨"Maker", [{ graph := "catalog" }, { graph := "stock" }],
       [⟨"name", .named "String" false, []⟩]⟩,
     ⟨"Part", [{ graph := "catalog", key := some "maker" },
         { graph := "stock", key := some "maker" }],
       [⟨"maker", .named "Maker" false, []⟩,
        ⟨"count", .named "Int" false, [{ graph := some "stock" }]⟩]⟩]⟩

def parts : Planner := ⟨partsSchema.index.value?.getD ⟨"", none, none, .empty⟩, {}⟩

def partsText : String := "{ part { count } }"

/-- The maker is asked for without a field of it. -/
theorem parts_maker_bare : partsSchema.index.isValid = true ∧
    Operation.parse partsText none parts.index = .ok (parts.operationOf partsText) ∧
    (∀ n ∈ (parts.operationOf partsText).selection.allFields, n.WellFormed parts.index) ∧
    parts.decompose (parts.operationOf partsText) = .ok (parts.fragmentsOf partsText) ∧
    ∃ f ∈ (parts.fragmentsOf partsText).fragments, ∃ n ∈ f.selection.allFields,
      ¬n.WellFormed parts.index :=
  ⟨by decide +kernel, Planner.operationOf_of_isOk (by decide +kernel), by decide +kernel,
    Planner.fragmentsOf_of_isOk (by decide +kernel), by decide +kernel⟩

end FederatedQuery
