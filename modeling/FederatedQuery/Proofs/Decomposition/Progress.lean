import FederatedQuery.Proofs.SchemaIndex.WellConnected

/-!
Progress of a decomposition over a well-connected schema. The source at hand always declares the
type whose selection is split, so whatever leaves can hop directly, and what is entered can be
entered by its entry point.
-/
namespace FederatedQuery

def Returns {ε α : Type} (r : Except ε α) (P : α → Prop) : Prop := ∃ a, r = .ok a ∧ P a

namespace Returns
variable {ε α β : Type} {r : Except ε α} {P P' : α → Prop} {Q : β → Prop}

theorem ok {a : α} (h : P a) : Returns (.ok a : Except ε α) P := ⟨a, rfl, h⟩

theorem bind {f : α → Except ε β} (h : Returns r P) (hf : ∀ a, P a → Returns (f a) Q) :
    Returns (r >>= f) Q := by
  obtain ⟨a, rfl, ha⟩ := h
  exact hf a ha

theorem mono (h : Returns r P) (hP : ∀ a, P a → P' a) : Returns r P' := by
  obtain ⟨a, hr, ha⟩ := h
  exact ⟨a, hr, hP a ha⟩

theorem mapM {f : α → Except ε β} {items : List α} (h : ∀ a ∈ items, Returns (f a) Q) :
    Returns (items.mapM f) fun bs => ∀ b ∈ bs, Q b := by
  induction items with
  | nil => exact .ok (by simp)
  | cons a items ih =>
    obtain ⟨hfirst, hrest⟩ := List.forall_mem_cons.1 h
    rw [List.mapM_cons]
    exact hfirst.bind fun b hb => (ih hrest).bind fun bs hbs =>
      .ok (List.forall_mem_cons.2 ⟨hb, hbs⟩)

end Returns

structure SchemaIndex.Fits (x : SchemaIndex) (n : SelectionNode) : Prop where
  field : n.isTypename = false → ∃ f, x.field? n.onType n.name = some f ∧ f.ofType = n.ofType
  composite : n.children ≠ [] → x.hasType n.ofType = true
  onward : ∀ c ∈ n.children, c.onType = n.ofType

theorem SchemaIndex.ownersOf_of_field? {x : SchemaIndex} {n : SelectionNode} {f : FieldIndex}
    (hnamed : n.isTypename = false) (hf : x.field? n.onType n.name = some f) :
    x.ownersOf n.onType n.name = f.owners := by
  have hne : n.name ≠ typenameField := by simpa [SelectionNode.isTypename] using hnamed
  rw [ownersOf, if_neg hne, hf]
  rfl

theorem SchemaIndex.WellConnected.ownersOf_ne_nil {x : SchemaIndex} {n : SelectionNode}
    (hx : x.WellConnected) (hn : x.Fits n) (hnamed : n.isTypename = false) :
    x.ownersOf n.onType n.name ≠ [] := by
  obtain ⟨f, hf, -⟩ := hn.field hnamed
  exact ownersOf_of_field? hnamed hf ▸ hx.owned _ _ f hf

namespace Planner
variable {p : Planner} {b : Blueprint} {site : Site} {next : Nat} {ns : List SelectionNode}

def Enterable (p : Planner) (f : FetchFragment) : Prop :=
  f.isRoot = true ∨ (p.index.entryPoint? f.onType f.source).isSome = true

def AllEnterable (p : Planner) (drafts : List Draft) : Prop :=
  ∀ d ∈ drafts, p.Enterable d.fragment

theorem AllEnterable.append {drafts more : List Draft} (h : p.AllEnterable drafts)
    (h' : p.AllEnterable more) : p.AllEnterable (drafts ++ more) :=
  List.forall_mem_append.2 ⟨h, h'⟩

def Progresses (p : Planner) (n : SelectionNode) : Prop :=
  ∀ site next, site.source ∈ p.index.ownersOf n.onType n.name →
    Returns (p.complete n site next) fun r => p.AllEnterable r.2

theorem completeAll_progresses (h : ∀ n ∈ ns, p.Progresses n)
    (howned : ∀ n ∈ ns, site.source ∈ p.index.ownersOf n.onType n.name) :
    Returns (completeAll site next (ns.map p.pending)) fun r => p.AllEnterable r.2 := by
  induction ns generalizing next with
  | nil => exact .ok (by simp [AllEnterable])
  | cons n ns ih =>
    obtain ⟨hfirst, hrest⟩ := List.forall_mem_cons.1 h
    obtain ⟨hown, howned⟩ := List.forall_mem_cons.1 howned
    refine (hfirst site next hown).bind fun first hfirst => ?_
    exact (ih hrest howned).bind fun rest hrest => .ok (hfirst.append hrest)

theorem chooseOwner_returns {x : SchemaIndex} {n : SelectionNode}
    (h : x.ownersOf n.onType n.name ≠ []) (current? : Option Source) (path : ResponsePath) :
    Returns (x.chooseOwner n current? path) (· ∈ x.ownersOf n.onType n.name) := by
  unfold SchemaIndex.chooseOwner
  cases howners : x.ownersOf n.onType n.name with
  | nil => exact absurd howners h
  | cons first others =>
    cases current? with
    | none => exact .ok List.mem_cons_self
    | some current =>
      refine .ok ?_
      split
      · assumption
      · exact List.mem_cons_self

structure Leaves (p : Planner) (site : Site) (children : List SelectionNode)
    (e : (Source × String) × SelectionNode) : Prop where
  mem : e.2 ∈ children
  named : e.2.isTypename = false
  type : e.1.2 = e.2.onType
  owned : e.1.1 ∈ p.index.ownersOf e.2.onType e.2.name
  ne : site.source ≠ e.1.1

theorem Leaves.cons {n : SelectionNode} {e : (Source × String) × SelectionNode}
    (h : p.Leaves site ns e) : p.Leaves site (n :: ns) e :=
  { h with mem := List.mem_cons_of_mem n h.mem }

theorem route_progresses (h : ∀ n ∈ ns, n.isTypename = false → p.Progresses n)
    (howned : ∀ n ∈ ns, n.isTypename = false → p.index.ownersOf n.onType n.name ≠ []) :
    Returns (p.route site [] next (ns.map p.pending)) fun r => p.AllEnterable r.2 ∧
      ∃ leaving : List ((Source × String) × SelectionNode),
        r.1.filterMap Routed.leaving? = leaving.map (fun e => (e.1, p.pending e.2)) ∧
        ∀ e ∈ leaving, p.Leaves site ns e := by
  induction ns generalizing next with
  | nil => exact .ok ⟨by simp [AllEnterable], [], rfl, by simp⟩
  | cons n ns ih =>
    obtain ⟨hfirst, hrest⟩ := List.forall_mem_cons.1 h
    obtain ⟨hown, howned⟩ := List.forall_mem_cons.1 howned
    rw [List.map_cons, pending, route]
    split
    · refine (ih hrest howned).bind fun r hr => ?_
      obtain ⟨hdrafts, leaving, hsame, hleaves⟩ := hr
      exact .ok ⟨hdrafts, leaving, hsame, fun e he => (hleaves e he).cons⟩
    · have hnamed : n.isTypename = false := Bool.eq_false_iff.2 ‹_›
      have howner := chooseOwner_returns (hown hnamed) (some site.source) site.path
      simp only [List.contains_nil, Bool.false_eq_true, if_false]
      refine howner.bind fun owner howner => ?_
      split
      · rename_i hstays
        refine (hfirst hnamed site next (hstays ▸ howner)).bind fun first hfirst => ?_
        refine (ih hrest howned).bind fun r hr => ?_
        obtain ⟨hdrafts, leaving, hsame, hleaves⟩ := hr
        exact .ok ⟨hfirst.append hdrafts, leaving, hsame, fun e he => (hleaves e he).cons⟩
      · rename_i hleaves
        refine (ih hrest howned).bind fun r hr => ?_
        obtain ⟨hdrafts, leaving, hsame, hothers⟩ := hr
        have hself : p.Leaves site (n :: ns) ((owner, n.onType), n) :=
          ⟨List.mem_cons_self, hnamed, rfl, howner, Ne.symm hleaves⟩
        refine .ok ⟨hdrafts, ((owner, n.onType), n) :: leaving, ?_, ?_⟩
        · exact congrArg (((owner, n.onType), p.pending n) :: ·) hsame
        · exact List.forall_mem_cons.2 ⟨hself, fun e he => (hothers e he).cons⟩

structure Ready (p : Planner) (site : Site) (g : Group) : Prop where
  here : site.source ∈ p.index.sourcesOf g.1.2
  there : g.1.1 ∈ p.index.sourcesOf g.1.2
  ne : site.source ≠ g.1.1
  progresses : ∀ n ∈ g.2, p.Progresses n
  owned : ∀ n ∈ g.2, g.1.1 ∈ p.index.ownersOf n.onType n.name

theorem enterDirect_progresses (hb : b.index = .valid p.index) (hx : p.index.WellConnected)
    {groups : List Group} (h : ∀ g ∈ groups, p.Ready site g) :
    Returns (p.enterDirect site next (groups.map p.pendingGroup)) fun r =>
      r.2 = [] ∧ ∀ e ∈ r.1, p.AllEnterable e.drafts := by
  induction groups generalizing next with
  | nil => exact .ok (by simp)
  | cons g groups ih =>
    obtain ⟨hg, hgroups⟩ := List.forall_mem_cons.1 h
    obtain ⟨hpoint, hhop⟩ := hx.hop hb hg.here hg.there hg.ne (g.2.map (·.name))
    have hnames : (g.2.map p.pending).map (·.1.name) = g.2.map (·.name) := by
      simp [pending, Function.comp_def]
    rw [List.map_cons, pendingGroup, enterDirect, hnames, hhop]
    have hentry : Returns (enter site site.id g.1.1 g.1.2
        (p.index.forwardedKeys g.1.2 g.1.1 (g.2.map (·.name))) (g.2.map p.pending) next)
        fun e => p.AllEnterable e.drafts := by
      refine (completeAll_progresses hg.progresses hg.owned).bind fun r hr => ?_
      exact .ok (List.forall_mem_cons.2 ⟨.inr hpoint, hr⟩)
    refine hentry.bind fun e he => (ih hgroups).bind fun r hr => ?_
    exact .ok ⟨hr.1, List.forall_mem_cons.2 ⟨he, hr.2⟩⟩

/-- The groups of the children that leave a field for their owners. -/
theorem ready_of_leaves (hb : b.index = .valid p.index) {enclosing : String}
    (hhere : site.source ∈ p.index.sourcesOf enclosing) (htypes : ∀ n ∈ ns, n.onType = enclosing)
    (hprogress : ∀ n ∈ ns, n.isTypename = false → p.Progresses n)
    {leaving : List ((Source × String) × SelectionNode)} (h : ∀ e ∈ leaving, p.Leaves site ns e) :
    ∀ g ∈ gather leaving, p.Ready site g := by
  intro g hg
  have hleaves : ∀ n ∈ g.2, p.Leaves site ns (g.1, n) := fun n hn =>
    h _ ((ungroup_gather_perm leaving).subset (mem_ungroup.2 ⟨g, hg, rfl, hn⟩))
  obtain ⟨n, hn⟩ := List.exists_mem_of_ne_nil g.2 (ne_nil_of_mem_gather g hg)
  have hfirst := hleaves n hn
  have htype : g.1.2 = enclosing := hfirst.type.trans (htypes n hfirst.mem)
  exact {
    here := htype ▸ hhere
    there := hfirst.type ▸ SchemaIndex.ownersOf_subset_sourcesOf hb _ _ hfirst.owned
    ne := hfirst.ne
    progresses := fun m hm => hprogress m (hleaves m hm).mem (hleaves m hm).named
    owned := fun m hm => (hleaves m hm).owned }

theorem split_progresses (hb : b.index = .valid p.index) (hx : p.index.WellConnected)
    {enclosing : String} {place : List String}
    (hhere : site.source ∈ p.index.sourcesOf enclosing) (htypes : ∀ n ∈ ns, n.onType = enclosing)
    (howned : ∀ n ∈ ns, n.isTypename = false → p.index.ownersOf n.onType n.name ≠ [])
    (hprogress : ∀ n ∈ ns, n.isTypename = false → p.Progresses n) :
    Returns (p.split site enclosing [] place (ns.map p.pending) next) fun r =>
      p.AllEnterable r.2 := by
  refine (route_progresses hprogress howned).bind fun (routed, drafts) hroute => ?_
  obtain ⟨hdrafts, leaving, hsame, hleaves⟩ := hroute
  have hready := ready_of_leaves hb hhere htypes hprogress hleaves
  dsimp only at hsame ⊢
  rw [hsame, gather_map p.pending]
  refine (enterDirect_progresses hb hx hready).bind fun (direct, bridges) hdirect => ?_
  obtain ⟨rfl, hentries⟩ := hdirect
  refine .ok (hdrafts.append fun d hd => ?_)
  obtain ⟨e, he, hd⟩ := p.mem_drafts_carryEntry.1 hd
  have he : e ∈ direct := by simpa using he
  obtain ⟨hself, hinner⟩ := List.forall_mem_cons.1 (hentries e he)
  cases hd with
  | inl hcarries => exact hcarries ▸ hself
  | inr hd => exact hinner d hd

/-- In a well-connected schema without provided names every field is completed by its owners. -/
theorem progresses (hb : b.index = .valid p.index) (hx : p.index.WellConnected)
    (hnone : ∀ type field f, p.index.field? type field = some f →
      ∀ source, f.providesIn source = []) (n : SelectionNode)
    (hfits : ∀ m ∈ SelectionSet.allFields [n], p.index.Fits m) (hnamed : n.isTypename = false) :
    p.Progresses n := by
  induction n using SelectionNode.ofChildren with
  | step n ih =>
    intro site next howner
    have hn := hfits n (SelectionSet.mem_allFields_of_mem List.mem_cons_self)
    have hbelow : ∀ c ∈ n.children, ∀ m ∈ SelectionSet.allFields [c], p.index.Fits m := by
      intro c hc m hm
      refine hfits m (SelectionSet.mem_allFields_of_child List.mem_cons_self ?_)
      exact SelectionSet.allFields_subset (by simpa using hc) hm
    obtain ⟨f, hf, htype⟩ := hn.field hnamed
    rw [complete_eq]
    split
    · exact .ok (by simp [AllEnterable])
    · rename_i hchildren
      have hcomposite : p.index.hasType f.ofType = true :=
        htype ▸ hn.composite fun hnil => hchildren (List.isEmpty_iff.2 hnil)
      have hhere : ({ site with path := p.placeBelow site.path n } : Site).source ∈
          p.index.sourcesOf n.ofType := by
        rw [SchemaIndex.ownersOf_of_field? hnamed hf] at howner
        exact htype ▸ hx.declared _ _ f hf hcomposite howner
      have hprovided : p.providedBelow site.source n = [] := by
        rw [providedBelow, hf]
        exact hnone _ _ f hf site.source
      have howned : ∀ c ∈ n.children, c.isTypename = false →
          p.index.ownersOf c.onType c.name ≠ [] := fun c hc =>
        hx.ownersOf_ne_nil (hbelow c hc c (SelectionSet.mem_allFields_of_mem List.mem_cons_self))
      rw [hprovided]
      refine (split_progresses hb hx hhere hn.onward howned fun c hc => ?_).bind fun r hr => .ok hr
      exact ih c hc (hbelow c hc)

theorem enterRoots_progresses {serial : Bool} {rootType : String} {previous? : Option Nat}
    {groups : List (Source × List SelectionNode)}
    (h : ∀ g ∈ groups, ∀ n ∈ g.2, p.Progresses n ∧ g.1 ∈ p.index.ownersOf n.onType n.name) :
    Returns (enterRoots serial rootType previous? next
      (groups.map fun g => (g.1, g.2.map p.pending))) p.AllEnterable := by
  induction groups generalizing previous? next with
  | nil => exact .ok (by simp [AllEnterable])
  | cons g groups ih =>
    obtain ⟨hg, hgroups⟩ := List.forall_mem_cons.1 h
    have hfill : Returns (completeAll ⟨g.1, next, .root⟩ (next + 1) (g.2.map p.pending)) fun r =>
        p.AllEnterable r.2 :=
      completeAll_progresses (fun n hn => (hg n hn).1) fun n hn => (hg n hn).2
    refine hfill.bind fun (nodes, inner) hinner => ?_
    refine (ih hgroups).bind fun more hmore => .ok ?_
    have hroot : p.AllEnterable [⟨⟨g.1, rootType, nodes, [], .root⟩,
        rootParents serial previous? next⟩] := List.forall_mem_singleton.2 (.inl rfl)
    exact (hroot.append hinner).append hmore

theorem ownRoots_returns
    (h : ∀ n ∈ ns, n.isTypename = false → p.index.ownersOf n.onType n.name ≠ []) :
    Returns (p.ownRoots (ns.map p.pending)) fun _ => True := by
  induction ns with
  | nil => exact .ok trivial
  | cons n ns ih =>
    obtain ⟨hn, hrest⟩ := List.forall_mem_cons.1 h
    rw [List.map_cons, ownRoots]
    split
    · exact ih hrest
    · have hnamed : n.isTypename = false := Bool.eq_false_iff.2 ‹_›
      exact (chooseOwner_returns (hn hnamed) none .root).bind fun _ _ =>
        (ih hrest).bind fun _ _ => .ok trivial

/-- An operation over a well-connected schema has a decomposition, and all of its fragments can be
entered. -/
theorem decompose_progresses (hb : b.index = .valid p.index) (hx : p.index.WellConnected)
    (hnone : ∀ type field f, p.index.field? type field = some f →
      ∀ source, f.providesIn source = []) {o : Operation}
    (hfits : ∀ n ∈ o.selection.allFields, p.index.Fits n) :
    Returns (p.decompose o) fun d => ∀ f ∈ d.fragments, p.Enterable f := by
  have hroot : ∀ n ∈ o.selection, n.isTypename = false → p.Progresses n := by
    intro n hn
    refine progresses hb hx hnone n fun m hm => hfits m ?_
    exact SelectionSet.allFields_subset (by simpa using hn) hm
  have howned := ownRoots_returns (p := p) fun n (hn : n ∈ o.selection) =>
    hx.ownersOf_ne_nil (hfits n (SelectionSet.mem_allFields_of_mem hn))
  obtain ⟨owned, hown, -⟩ := howned
  obtain ⟨roots, rfl, hfields, howners⟩ := ownRoots_of_ok hown
  have hgroups : ∀ g ∈ rootGroups o roots, ∀ n ∈ g.2,
      p.Progresses n ∧ g.1 ∈ p.index.ownersOf n.onType n.name := by
    intro g hg n hn
    have hmem : (g.1, n) ∈ roots :=
      (ungroup_rootGroups_perm o roots).subset (mem_ungroup.2 ⟨g, hg, rfl, hn⟩)
    have hfield : n ∈ o.selection.filter (!·.isTypename) := hfields ▸ List.mem_map_of_mem hmem
    obtain ⟨hn, hnamed⟩ := List.mem_filter.1 hfield
    obtain ⟨others, hothers⟩ := howners _ hmem
    exact ⟨hroot n hn (by simpa using hnamed), hothers ▸ List.mem_cons_self⟩
  rw [decompose, completers_eq_map, hown]
  refine Returns.bind (P := (· = roots.map fun e => (e.1, p.pending e.2))) (.ok rfl) ?_
  rintro _ rfl
  dsimp only
  rw [pending_rootGroups]
  refine (enterRoots_progresses hgroups).bind fun drafts hdrafts => .ok fun f hf => ?_
  obtain ⟨d, hd, rfl⟩ := List.mem_map.1 hf
  exact hdrafts d hd

end Planner
end FederatedQuery
