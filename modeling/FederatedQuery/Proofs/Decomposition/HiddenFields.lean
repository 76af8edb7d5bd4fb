import FederatedQuery.Proofs.Decomposition.Contents
import FederatedQuery.Proofs.Plan.RootOrder
import FederatedQuery.Proofs.Plan.Validity

/-!
Why fragments hold hidden fields. Each was added for a fragment that waits for its holder and is
attached where the field stands, and no field beside it stood for the key already.
-/
namespace FederatedQuery

def SelectionNode.Doubles (n m : SelectionNode) : Prop :=
  n.isHidden = true ∧ m.alias? = none ∧ m.name = n.name ∧ m.onType = n.onType

instance (n m : SelectionNode) : Decidable (n.Doubles m) := inferInstanceAs (Decidable (_ ∧ _))

namespace SelectionSet
variable {s t : SelectionSet} {n : SelectionNode}

def Shown (s : SelectionSet) : Prop := ∀ n ∈ s.allFields, n.isHidden = false

instance (s : SelectionSet) : Decidable s.Shown := inferInstanceAs (Decidable (∀ _ ∈ _, _))

theorem Shown.subset (h : Shown t) (hst : s ⊆ t) : Shown s :=
  fun n hn => h n (allFields_subset hst hn)

theorem Shown.self (h : Shown [n]) : n.isHidden = false := h n (mem_allFields_of_mem (by simp))

theorem Shown.children (h : Shown s) (hn : n ∈ s.allFields) : Shown n.children :=
  fun c hc => h c (allFields_children_subset hn hc)

def Sparing (s : SelectionSet) : Prop := s.Pairwise fun n m => ¬n.Doubles m ∧ ¬m.Doubles n

instance (s : SelectionSet) : Decidable s.Sparing := inferInstanceAs (Decidable (s.Pairwise _))

theorem Sparing.of_visible (h : ∀ n ∈ s, n.isHidden = false) : s.Sparing := by
  have hnone : ∀ n ∈ s, ∀ m, ¬SelectionNode.Doubles n m := by
    intro n hn m hdoubles
    exact nomatch (h n hn).symm.trans hdoubles.1
  exact List.pairwise_of_forall_mem_list fun n hn m hm => ⟨hnone n hn m, hnone m hm n⟩

end SelectionSet

namespace Planner
variable {p : Planner}

/-! ### No key twice -/

section Sparing
variable {owed : String → String → Prop} {source : Source} {provided : List String}
  {s t : SelectionSet}

theorem Adds.sparing (h : p.Adds owed s t) (hs : ∀ n ∈ s, n.isHidden = false) : t.Sparing := by
  induction h with
  | refl => exact .of_visible hs
  | @key t type key place before _ lacks ih =>
    refine List.pairwise_append.2 ⟨ih, List.pairwise_singleton _ _, fun a ha b hb => ?_⟩
    rw [List.mem_singleton.1 hb]
    have hlacks : a.alias? = none → a.name = key → a.onType ≠ type := by
      intro halias hname htype
      have hheld : t.holdsKey type type key = true :=
        SelectionSet.holdsKey_iff.2 ⟨a, ha, hname, halias, .inl htype⟩
      rw [hheld] at lacks
      exact nomatch lacks
    refine ⟨fun hdoubles => ?_, fun hdoubles => ?_⟩
    · -- a hidden field is a key, so it has no alias
      obtain ⟨hidden, -, hname, htype⟩ := hdoubles
      have halias : a.alias? = none := before.forall_mem (R := fun n => n.isHidden = true →
        n.alias? = none) (fun n hn hidden => nomatch (hs n hn).symm.trans hidden)
        (fun _ _ _ _ _ => rfl) a ha hidden
      exact hlacks halias hname.symm htype.symm
    · obtain ⟨-, halias, hname, htype⟩ := hdoubles
      exact hlacks halias hname htype

theorem Keeps.sparing (h : p.Keeps owed source provided s t) (hs : s.Shown) :
    (∀ n ∈ t, n.isHidden = false) ∧ SelectionSet.Below SelectionSet.Sparing t := by
  have hvisible : ∀ {s t : SelectionSet} {provided : List String},
      p.Keeps owed source provided s t → s.Shown → ∀ n ∈ t, n.isHidden = false := by
    intro s t provided h hs n hn
    obtain ⟨c, hc, hhead⟩ := List.mem_map.1 (h.heads.subset (List.mem_map_of_mem hn))
    rw [← SelectionNode.isHidden_of_head hhead]
    exact hs c (SelectionSet.mem_allFields_of_mem hc)
  refine ⟨hvisible h hs, ?_⟩
  induction h with
  | nil => exact SelectionSet.below_nil _
  | skip _ ih => exact ih (hs.subset (by simp))
  | @typename _ n s t _ _ ih =>
    refine SelectionSet.below_cons.2 ⟨?_, ih (hs.subset (by simp))⟩
    have hn := hs.children (SelectionSet.mem_allFields_of_mem (n := n) (by simp))
    refine ⟨.of_visible fun c hc => hn c (SelectionSet.mem_allFields_of_mem hc), fun c hc => ?_⟩
    exact .of_visible fun e he => hn e (SelectionSet.children_subset_allFields hc he)
  | @field _ n s t kept children _ below adds _ ihbelow ihrest =>
    have hn := hs.children (SelectionSet.mem_allFields_of_mem (n := n) (by simp))
    refine SelectionSet.below_cons.2 ⟨⟨?_, ?_⟩, ihrest (hs.subset (by simp))⟩
    · exact adds.sparing (hvisible below hn)
    · exact adds.everywhere_below .nil (ihbelow hn)

theorem FilledWith.sparing {fields : SelectionSet} {f : FetchFragment}
    (h : p.FilledWith owed fields f) (hs : fields.Shown) :
    SelectionSet.Everywhere SelectionSet.Sparing f.selection := by
  obtain ⟨-, nodes, hkeeps, hadds⟩ := h
  obtain ⟨hvisible, hbelow⟩ := hkeeps.sparing hs
  exact ⟨hadds.sparing hvisible, hadds.everywhere_below .nil hbelow⟩

theorem decompose_sparing {o : Operation} {d : Decomposition} (h : p.decompose o = .ok d)
    (hs : SelectionSet.Shown o.selection) :
    ∀ f ∈ d.fragments, SelectionSet.Everywhere SelectionSet.Sparing f.selection := by
  intro f hf
  cases decompose_fills h f hf with
  | inl hroot =>
    obtain ⟨-, fields, hfields, hfilled⟩ := hroot
    exact hfilled.sparing (hs.subset hfields.subset)
  | inr hbelow =>
    obtain ⟨q, fields, hq, hfields, -, hfilled⟩ := hbelow
    have hq : q ∈ SelectionSet.allFields o.selection := List.mem_map_of_mem hq
    exact hfilled.sparing ((hs.children hq).subset hfields.subset)

end Sparing

/-! ### No key for nothing -/

def Awaited (p : Planner) (numbered : List (Draft × Nat)) (id : Nat) (path : ResponsePath)
    (n : SelectionNode) : Prop :=
  ∃ e ∈ numbered, id ∈ e.1.parents ∧ e.1.fragment.onType = n.onType ∧
    e.1.fragment.providedPath = path ∧ n.name ∈ p.carried e.1.fragment.requiredKeys

/-- Every hidden field of the holder is awaited where it stands. As long as keys are `distinct`, the
fields above it are the first to answer. -/
def Warrants (p : Planner) (distinct : Prop) (numbered : List (Draft × Nat)) (h : Holder) : Prop :=
  ∀ way n, SelectionSet.Descends h.2 (way ++ [n]) → n.isHidden = true →
    p.Awaited numbered h.1.id (way.foldl p.placeBelow h.1.path) n ∧
      (distinct → SelectionSet.DescendsFirst h.2 way)

namespace Warrants
variable {distinct : Prop} {numbered more : List (Draft × Nat)} {site : Site} {s t : SelectionSet}

theorem of_shown (h : SelectionSet.Shown s) : p.Warrants distinct numbered (site, s) := by
  intro way n hway hidden
  rw [h n (hway.mem_allFields (by simp))] at hidden
  exact nomatch hidden

theorem mono {h : Holder} {strict : Prop} (hw : p.Warrants distinct numbered h)
    (hn : numbered ⊆ more) (hdistinct : strict → distinct) : p.Warrants strict more h := by
  intro way n hway hidden
  obtain ⟨⟨e, he, hawaits⟩, hfirst⟩ := hw way n hway hidden
  exact ⟨⟨e, hn he, hawaits⟩, fun hd => hfirst (hdistinct hd)⟩

/-- Side by side, as long as the fields answer to different keys. -/
theorem append (hs : p.Warrants distinct numbered (site, s))
    (ht : p.Warrants distinct numbered (site, t))
    (hnodup : distinct → ((s ++ t).map (·.responseKey)).Nodup) :
    p.Warrants distinct numbered (site, s ++ t) := by
  intro way n hway hidden
  have hpart : ∃ u : SelectionSet, SelectionSet.Descends u (way ++ [n]) ∧
      p.Warrants distinct numbered (site, u) := by
    cases way with
    | nil =>
      cases List.mem_append.1 hway.1 with
      | inl hn => exact ⟨s, ⟨hn, hway.2⟩, hs⟩
      | inr hn => exact ⟨t, ⟨hn, hway.2⟩, ht⟩
    | cons c way =>
      cases List.mem_append.1 hway.1 with
      | inl hc => exact ⟨s, ⟨hc, hway.2⟩, hs⟩
      | inr hc => exact ⟨t, ⟨hc, hway.2⟩, ht⟩
  obtain ⟨u, hu, hwarrants⟩ := hpart
  obtain ⟨hawaited, hfirst⟩ := hwarrants way n hu hidden
  refine ⟨hawaited, fun hd => ?_⟩
  cases way with
  | nil => trivial
  | cons c way => exact ⟨SelectionSet.find?_of_nodup (hnodup hd) hway.1, (hfirst hd).2⟩

/-- Hidden fields put behind a selection. -/
theorem adds (hs : p.Warrants distinct numbered (site, s)) {added : SelectionSet}
    (hadded : ∀ n ∈ added, n.children = [] ∧ p.Awaited numbered site.id site.path n) :
    p.Warrants distinct numbered (site, s ++ added) := by
  intro way n hway hidden
  cases way with
  | nil =>
    cases List.mem_append.1 hway.1 with
    | inl hn => exact hs [] n ⟨hn, trivial⟩ hidden
    | inr hn => exact ⟨(hadded n hn).2, fun _ => trivial⟩
  | cons c way =>
    cases List.mem_append.1 hway.1 with
    | inl hc =>
      obtain ⟨hawaited, hfirst⟩ := hs (c :: way) n ⟨hc, hway.2⟩ hidden
      refine ⟨hawaited, fun hd => ⟨?_, (hfirst hd).2⟩⟩
      exact SelectionSet.find?_append_of_some (hfirst hd).1 added
    | inr hc =>
      -- nothing stands below a key
      have hbelow := hway.2
      rw [(hadded c hc).1] at hbelow
      cases way with
      | nil => exact nomatch hbelow.1
      | cons _ _ => exact nomatch hbelow.1

theorem of_children {m : SelectionNode} (hm : m.isHidden = false)
    (h : p.Warrants distinct numbered
      ({ site with path := p.placeBelow site.path m }, m.children)) :
    p.Warrants distinct numbered (site, [m]) := by
  intro way n hway hidden
  cases way with
  | nil =>
    rw [List.mem_singleton.1 hway.1, hm] at hidden
    exact nomatch hidden
  | cons c way =>
    obtain ⟨hc, hway⟩ := hway
    cases List.mem_singleton.1 hc
    obtain ⟨hawaited, hfirst⟩ := h way n hway hidden
    exact ⟨hawaited, fun hd => ⟨by simp [SelectionSet.find?], hfirst hd⟩⟩

end Warrants

def Warranted (p : Planner) : Completion := fun site next n m drafts => m.head = n.head ∧
  (SelectionSet.Shown [n] → ∀ h ∈ (site, [m]) :: (drafts.zipIdx next).map Draft.holder,
    p.Warrants (SelectionSet.DistinctKeys [n]) (drafts.zipIdx next) h)

end Planner

section Warranted
variable {p : Planner} {site : Site} {next : Nat} {ns : List SelectionNode} {drafts : List Draft}

/-- A completed field in front of others. -/
theorem Planner.Warrants.cons {n m : SelectionNode} {ms : List SelectionNode} {more : List Draft}
    (hheads : ((m :: ms).map SelectionNode.head).Sublist ((n :: ns).map SelectionNode.head))
    (hfirst : ∀ h ∈ (site, [m]) :: (drafts.zipIdx next).map Draft.holder,
      p.Warrants (SelectionSet.DistinctKeys [n]) (drafts.zipIdx next) h)
    (hrest : ∀ h ∈ (site, ms) :: (more.zipIdx (next + drafts.length)).map Draft.holder,
      p.Warrants (SelectionSet.DistinctKeys ns) (more.zipIdx (next + drafts.length)) h) :
    ∀ h ∈ (site, m :: ms) :: ((drafts ++ more).zipIdx next).map Draft.holder,
      p.Warrants (SelectionSet.DistinctKeys (n :: ns)) ((drafts ++ more).zipIdx next) h := by
  rw [List.zipIdx_append, List.map_append]
  have hone : SelectionSet.DistinctKeys (n :: ns) → SelectionSet.DistinctKeys [n] :=
    fun hd => hd.sublist (by simp)
  have hothers : SelectionSet.DistinctKeys (n :: ns) → SelectionSet.DistinctKeys ns :=
    fun hd => hd.sublist (by simp)
  obtain ⟨hself, hinner⟩ := List.forall_mem_cons.1 hfirst
  obtain ⟨hselves, hmore⟩ := List.forall_mem_cons.1 hrest
  refine List.forall_mem_cons.2 ⟨?_, List.forall_mem_append.2 ⟨fun h hh => ?_, fun h hh => ?_⟩⟩
  · exact (hself.mono (List.subset_append_left _ _) hone).append
      (hselves.mono (List.subset_append_right _ _) hothers) fun hd => hd.nodup_of_heads hheads
  · exact (hinner h hh).mono (List.subset_append_left _ _) hone
  · exact (hmore h hh).mono (List.subset_append_right _ _) hothers

theorem CompletesAll.warranted {ms : List SelectionNode}
    (h : CompletesAll p.Warranted site next ns ms drafts) :
    ms.map SelectionNode.head = ns.map SelectionNode.head ∧
      (SelectionSet.Shown ns → ∀ h ∈ (site, ms) :: (drafts.zipIdx next).map Draft.holder,
        p.Warrants (SelectionSet.DistinctKeys ns) (drafts.zipIdx next) h) := by
  induction h with
  | nil =>
    refine ⟨rfl, fun hs => List.forall_mem_cons.2 ⟨.of_shown hs, ?_⟩⟩
    simp
  | cons first _ ih =>
    obtain ⟨hhead, hfirst⟩ := first
    obtain ⟨hheads, hrest⟩ := ih
    refine ⟨by simp [hhead, hheads], fun hs => ?_⟩
    exact Planner.Warrants.cons (by simp [hhead, hheads]) (hfirst (hs.subset (by simp)))
      (hrest (hs.subset (by simp)))

theorem Routes.warranted {provided : List String} {kept : List SelectionNode}
    {leaving : List ((Source × String) × SelectionNode)}
    (h : Routes p.Warranted p site provided next ns kept leaving drafts) :
    (kept.map SelectionNode.head).Sublist (ns.map SelectionNode.head) ∧
      (SelectionSet.Shown ns → ∀ h ∈ (site, kept) :: (drafts.zipIdx next).map Draft.holder,
        p.Warrants (SelectionSet.DistinctKeys ns) (drafts.zipIdx next) h) := by
  induction h with
  | nil =>
    refine ⟨.slnil, fun hs => List.forall_mem_cons.2 ⟨.of_shown hs, ?_⟩⟩
    simp
  | @typename next n ns kept leaving drafts _ _ ih =>
    obtain ⟨hheads, hrest⟩ := ih
    have hall : ((n :: kept).map SelectionNode.head).Sublist ((n :: ns).map SelectionNode.head) :=
      hheads.cons_cons _
    refine ⟨hall, fun hs => ?_⟩
    have hself : ∀ h ∈ (site, [n]) :: (([] : List Draft).zipIdx next).map Draft.holder,
        p.Warrants (SelectionSet.DistinctKeys [n]) (([] : List Draft).zipIdx next) h :=
      List.forall_mem_cons.2 ⟨.of_shown (hs.subset (by simp)), by simp⟩
    exact Planner.Warrants.cons hall hself (hrest (hs.subset (by simp)))
  | @stays next n m ns kept leaving drafts more _ first _ ih =>
    obtain ⟨hhead, hfirst⟩ := first
    obtain ⟨hheads, hrest⟩ := ih
    have hall : ((m :: kept).map SelectionNode.head).Sublist
        ((n :: ns).map SelectionNode.head) := by
      rw [List.map_cons, List.map_cons, hhead]
      exact hheads.cons_cons _
    refine ⟨hall, fun hs => ?_⟩
    exact Planner.Warrants.cons hall (hfirst (hs.subset (by simp))) (hrest (hs.subset (by simp)))
  | @leaves next n ns kept leaving drafts owner others _ _ _ _ ih =>
    obtain ⟨hheads, hrest⟩ := ih
    refine ⟨hheads.cons _, fun hs h hh => ?_⟩
    exact (hrest (hs.subset (by simp)) h hh).mono (List.Subset.refl _)
      fun hd => hd.sublist (by simp)

/-- What is carried for entries is awaited by them. -/
theorem Planner.carry_awaited {place : List String} {entries : List Entry} {path : ResponsePath}
    {numbered : List (Draft × Nat)} (hpath : ∀ e ∈ entries, e.fragment.providedPath = path)
    (hn : ∀ e ∈ entries, (p.carryEntry place entries e).drafts.zipIdx e.id ⊆ numbered)
    (id : Nat) (enclosing? : Option String) (s : SelectionSet) :
    ∃ added, p.carry place entries id enclosing? s = s ++ added ∧
      ∀ n ∈ added, n.children = [] ∧ p.Awaited numbered id path n := by
  obtain ⟨added, heq, hadded, -⟩ := p.carry_spec place entries id enclosing? s
  refine ⟨added, heq, fun n hmem => ?_⟩
  obtain ⟨e, he, hparent, k, hk, rfl⟩ := hadded n hmem
  have hself : (⟨(p.carryEntry place entries e).fragment, [e.parent]⟩, e.id) ∈ numbered :=
    hn e he List.mem_cons_self
  exact ⟨rfl, _, hself, by simp [hparent], rfl, hpath e he, hk⟩

theorem MadeFor.warranted {n : SelectionNode} {g : Group} {place : List String}
    {bases entries : List Entry} {numbered : List (Draft × Nat)} {e : Entry}
    (h : MadeFor p.Warranted p { site with path := p.placeBelow site.path n } bases g e)
    (hs : SelectionSet.Shown [n]) (hg : g.2.Sublist n.children) (he : e ∈ entries)
    (hpath : ∀ c ∈ entries, c.fragment.providedPath = p.placeBelow site.path n)
    (hn : ∀ c ∈ entries, (p.carryEntry place entries c).drafts.zipIdx c.id ⊆ numbered) :
    ∀ h ∈ ((p.carryEntry place entries e).drafts.zipIdx e.id).map Draft.holder,
      p.Warrants (SelectionSet.DistinctKeys [n]) numbered h := by
  have hshown : SelectionSet.Shown g.2 :=
    (hs.children (SelectionSet.mem_allFields_of_mem (n := n) (by simp))).subset hg.subset
  have hdistinct : SelectionSet.DistinctKeys [n] → SelectionSet.DistinctKeys g.2 := fun hd =>
    (hd.children (by simp)).sublist hg
  obtain ⟨added, heq, hadded⟩ :=
    Planner.carry_awaited hpath hn e.id none e.fragment.selection
  have hfill : ∀ h ∈ (⟨e.fragment.source, e.id, e.fragment.providedPath⟩, e.fragment.selection) ::
      (e.inner.zipIdx (e.id + 1)).map Draft.holder,
      p.Warrants (SelectionSet.DistinctKeys g.2) (e.inner.zipIdx (e.id + 1)) h := by
    cases h.filled with
    | inl hempty =>
      rw [hempty.1, hempty.2]
      exact List.forall_mem_cons.2 ⟨.of_shown nofun, by simp⟩
    | inr fill => exact fill.warranted.2 hshown
  obtain ⟨hself, hinner⟩ := List.forall_mem_cons.1 hfill
  have hmore : e.inner.zipIdx (e.id + 1) ⊆ numbered :=
    List.Subset.trans (List.subset_cons_self _ _) (hn e he)
  refine List.forall_mem_cons.2 ⟨?_, fun h hh => (hinner h hh).mono hmore hdistinct⟩
  rw [← hpath e he] at hadded
  have hcarried := (hself.mono hmore hdistinct).adds hadded
  rw [← heq] at hcarried
  exact hcarried

theorem Splits.warranted {n : SelectionNode} {place : List String} {kept : List SelectionNode}
    (h : Splits p.Warranted p { site with path := p.placeBelow site.path n } n.ofType
      (p.providedBelow site.source n) place n.children next kept drafts) :
    p.Warranted site next n { n with children := kept } drafts := by
  refine ⟨rfl, fun hs => ?_⟩
  cases h with
  | @mk kept leaving drafts groups entries routes grouped enters =>
    have hmade := enters.made (by simp [Site.Before])
    have hnumbered := (enters.numbered.carry p place entries).zipIdx_drafts
    rw [List.zipIdx_append, hnumbered, List.map_append]
    set numbered := drafts.zipIdx next ++
      (entries.map (p.carryEntry place entries)).flatMap fun e => e.drafts.zipIdx e.id
    have hpath : ∀ e ∈ entries, e.fragment.providedPath = p.placeBelow site.path n := by
      intro e he
      obtain ⟨-, g, -, hmade⟩ := hmade e he
      exact hmade.path
    have hn : ∀ e ∈ entries, (p.carryEntry place entries e).drafts.zipIdx e.id ⊆ numbered :=
      fun e he r hr => List.mem_append_right _
        (List.mem_flatMap.2 ⟨_, List.mem_map_of_mem he, hr⟩)
    have hchildren : SelectionSet.Shown n.children :=
      hs.children (SelectionSet.mem_allFields_of_mem (n := n) (by simp))
    have hdistinct : SelectionSet.DistinctKeys [n] → SelectionSet.DistinctKeys n.children :=
      fun hd => hd.children (by simp)
    obtain ⟨hself, hinner⟩ := List.forall_mem_cons.1 (routes.warranted.2 hchildren)
    refine List.forall_mem_cons.2 ⟨?_, List.forall_mem_append.2 ⟨fun h hh => ?_, fun h hh => ?_⟩⟩
    · obtain ⟨added, heq, hadded⟩ :=
        Planner.carry_awaited hpath hn site.id (some n.ofType) kept
      rw [heq]
      exact .of_children (m := { n with children := kept ++ added }) hs.self
        ((hself.mono (List.subset_append_left _ _) hdistinct).adds hadded)
    · exact (hinner h hh).mono (List.subset_append_left _ _) hdistinct
    · obtain ⟨r, hr, rfl⟩ := List.mem_map.1 hh
      obtain ⟨c, hc, hr⟩ := List.mem_flatMap.1 hr
      obtain ⟨e, he, rfl⟩ := List.mem_map.1 hc
      obtain ⟨-, g, hg, hmade⟩ := hmade e he
      have hgroup := routes.group_sublist (grouped.subset hg)
      exact hmade.warranted hs hgroup he hpath hn _ (List.mem_map_of_mem hr)

theorem Planner.complete_warranted (p : Planner) (n : SelectionNode) :
    p.Completes p.Warranted n := by
  refine complete_induction (fun site next n _ => ⟨rfl, fun hs => ?_⟩)
    (fun _ _ _ _ _ _ h => h.warranted) n
  exact List.forall_mem_cons.2 ⟨.of_shown hs, by simp⟩

theorem EntersRoots.warranted {serial : Bool} {rootType : String} {previous? : Option Nat}
    {groups : List (Source × List SelectionNode)}
    (h : EntersRoots p.Warranted serial rootType previous? next groups drafts)
    (hs : SelectionSet.Shown ns) (hgroups : ∀ g ∈ groups, g.2.Sublist ns) :
    ∀ h ∈ (drafts.zipIdx next).map Draft.holder,
      p.Warrants (SelectionSet.DistinctKeys ns) (drafts.zipIdx next) h := by
  induction h with
  | nil => simp
  | @cons previous? next source fields nodes inner more groups fill _ ih =>
    obtain ⟨hfields, hgroups⟩ := List.forall_mem_cons.1 hgroups
    have hfill := fill.warranted.2 (hs.subset hfields.subset)
    have hlength : next + (inner.length + 1) = next + 1 + inner.length := by omega
    rw [List.zipIdx_append, List.map_append, List.length_cons, hlength]
    refine List.forall_mem_append.2 ⟨fun h hh => ?_, fun h hh => ?_⟩
    · exact (hfill h hh).mono (fun r hr => by simp [hr]) fun hd => hd.sublist hfields
    · exact (ih hgroups h hh).mono (List.subset_append_right _ _) id

end Warranted

/-- Every hidden field is a key, or with the right configuration the type name, that a fragment
needs which waits for the holder and is attached where the field stands. No field beside it asks for
the same without an alias. -/
theorem decompose_hidden_fields {p : Planner} {o : Operation} {d : Decomposition}
    (hs : SelectionSet.Shown o.selection) (h : p.decompose o = .ok d) {id : Nat} {f : FetchFragment}
    (hf : d.fragments[id]? = some f) :
    (∀ way n, SelectionSet.Descends f.selection (way ++ [n]) → n.isHidden = true →
      ∃ dep ∈ d.dependencies, dep.parent = id ∧
        (n.name ∈ dep.keys ∨
          n.name = typenameField ∧ p.config.typenameInRepresentations = true) ∧
        ∃ child, d.fragments[dep.child]? = some child ∧ child.onType = n.onType ∧
          ResponsePath.keysBelow? child.providedPath f.providedPath =
            some (way.map (·.responseKey)) ∧
          (SelectionSet.DistinctKeys o.selection →
            f.selection.findPath? (way.map (·.responseKey)) =
              some (SelectionSet.after f.selection way))) ∧
    SelectionSet.Everywhere SelectionSet.Sparing f.selection := by
  refine ⟨fun way n hway hidden => ?_,
    Planner.decompose_sparing h hs f (List.mem_of_getElem? hf)⟩
  cases Planner.decomposes_of_ok p.complete_warranted h with
  | @mk roots drafts fields _ enters =>
    obtain ⟨c, hc, rfl⟩ := Decomposition.exists_draft hf
    have hwarrants := enters.warranted hs (fun g hg => sublist_of_mem_rootGroups fields hg) _
      (List.mem_map_of_mem hc)
    obtain ⟨⟨e, he, hparent, htype, hpath, hkey⟩, hfirst⟩ := hwarrants way n hway hidden
    refine ⟨⟨id, e.2, e.1.fragment.requiredKeys⟩,
      Decomposition.mem_dependencies_ofDrafts.2 ⟨e.1, he, hparent, rfl⟩, rfl, ?_, e.1.fragment,
      Decomposition.fragment?_ofDrafts he, htype, ?_, fun hd => ?_⟩
    · cases p.mem_carried.1 hkey with
      | inl hname => exact .inr hname.symm
      | inr hname => exact .inl hname
    · rw [hpath]
      exact p.keysBelow?_foldl_placeBelow way c.fragment.providedPath
    · exact SelectionSet.findPath?_eq_some.2 ⟨way, hfirst hd, rfl, rfl⟩

/-- In the shop `products` is asked for a hidden key, since `shipping` waits for it. -/
theorem decompose_hidden_fields_shop : SelectionSet.Shown shopQuery.selection ∧
    (shopFragments.fragments.map fun f =>
      ((SelectionSet.allFields f.selection).filter (·.isHidden)).map (·.name)) =
      [["upc", "id"], ["upc"], [], []] ∧
    ∀ (id : Nat) f, shopFragments.fragments[id]? = some f → ∀ n ∈ f.selection, n.isHidden = true →
      ∃ dep ∈ shopFragments.dependencies, dep.parent = id ∧ n.name ∈ dep.keys := by
  have hshown : SelectionSet.Shown shopQuery.selection := by decide +kernel
  refine ⟨hshown, by decide +kernel, fun id f hf n hn hidden => ?_⟩
  obtain ⟨hwarranted, -⟩ := decompose_hidden_fields hshown shop_decompose hf
  obtain ⟨dep, hdep, hparent, hname, -⟩ := hwarranted [] n ⟨hn, trivial⟩ hidden
  exact ⟨dep, hdep, hparent, hname.resolve_right fun hconfigured => nomatch hconfigured.2⟩

def boxSchema : Blueprint :=
  ⟨"Query", none, none, ["halls", "tickets"],
    [⟨"Query", [{ graph := "halls" }], [⟨"seat", .named "Seat" false, []⟩]⟩,
     ⟨"Seat", [{ graph := "halls", key := some "__typename" },
         { graph := "tickets", key := some "__typename" }],
       [⟨"__typename", .named "String" true, []⟩,
        ⟨"row", .named "Int" false, [{ graph := some "halls" }]⟩,
        ⟨"guest", .named "String" false, [{ graph := some "tickets" }]⟩]⟩]⟩

def box : Planner := ⟨boxSchema.index.value?.getD ⟨"", none, none, .empty⟩, {}⟩

def boxText : String := "{ seat { row guest } }"

/-- A type name that is a key is carried, though the configuration does not ask for type names. -/
theorem box_typename_carried : boxSchema.index.isValid = true ∧
    box.config.typenameInRepresentations = false ∧
    Operation.parse boxText none box.index = .ok (box.operationOf boxText) ∧
    SelectionSet.Shown (box.operationOf boxText).selection ∧
    box.decompose (box.operationOf boxText) = .ok (box.fragmentsOf boxText) ∧
    ∃ f ∈ (box.fragmentsOf boxText).fragments, ∃ n ∈ SelectionSet.allFields f.selection,
      n.isHidden = true ∧ n.name = typenameField :=
  ⟨by decide +kernel, rfl, Planner.operationOf_of_isOk (by decide +kernel), by decide +kernel,
    Planner.fragmentsOf_of_isOk (by decide +kernel), by decide +kernel⟩

end FederatedQuery
