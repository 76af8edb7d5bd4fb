import FederatedQuery.Proofs.Decomposition.Run

/-!
A decomposition that succeeds is a run: every step that returns a value is one of the relations
between what it was given and what it returns.
-/
namespace FederatedQuery

namespace Planner

def placeBelow (p : Planner) (path : ResponsePath) (n : SelectionNode) : ResponsePath :=
  if (p.index.field? n.onType n.name).any (·.isList) then (path.field n.responseKey).each
  else path.field n.responseKey

def providedBelow (p : Planner) (source : Source) (n : SelectionNode) : List String :=
  ((p.index.field? n.onType n.name).map (·.providesIn source)).getD []

def pending (p : Planner) (n : SelectionNode) : Pending := (n, p.complete n)

theorem completers_eq_map (p : Planner) (ns : List SelectionNode) :
    p.completers ns = ns.map p.pending := by
  induction ns with
  | nil => rfl
  | cons n ns ih => rw [completers, ih]; rfl

theorem complete_eq (p : Planner) (n : SelectionNode) (site : Site) (next : Nat) :
    p.complete n site next = if n.children.isEmpty then .ok (n, [])
      else (p.split { site with path := p.placeBelow site.path n } n.ofType
        (p.providedBelow site.source n) (placeOf n.children) (n.children.map p.pending) next) >>=
          fun r => .ok ({ n with children := r.1 }, r.2) := by
  rw [← completers_eq_map]
  cases n
  rw [complete]
  rfl

def Completes (p : Planner) (C : Completion) (n : SelectionNode) : Prop :=
  ∀ site next m drafts, p.complete n site next = .ok (m, drafts) → C site next n m drafts

variable {p : Planner} {C : Completion} {site : Site} {next : Nat}

theorem completesAll_of_ok {ns ms : List SelectionNode} {drafts : List Draft}
    (hC : ∀ n ∈ ns, p.Completes C n)
    (h : completeAll site next (ns.map p.pending) = .ok (ms, drafts)) :
    CompletesAll C site next ns ms drafts := by
  induction ns generalizing next ms drafts with
  | nil =>
    cases h
    exact .nil next
  | cons n ns ih =>
    obtain ⟨⟨m, ds⟩, hm, h⟩ := bind_eq_ok.1 h
    obtain ⟨⟨rest, more⟩, hr, h⟩ := bind_eq_ok.1 h
    cases h
    exact .cons (hC n (by simp) _ _ _ _ hm) (ih (fun c hc => hC c (List.mem_cons_of_mem n hc)) hr)

theorem chooseOwner_of_ok {x : SchemaIndex} {n : SelectionNode} {current owner : Source}
    {path : ResponsePath} (h : x.chooseOwner n (some current) path = .ok owner) :
    (owner = current ∧ current ∈ x.ownersOf n.onType n.name) ∨
      (current ∉ x.ownersOf n.onType n.name ∧
        ∃ others, x.ownersOf n.onType n.name = owner :: others) := by
  unfold SchemaIndex.chooseOwner at h
  cases ho : x.ownersOf n.onType n.name with
  | nil => simp [ho] at h
  | cons first others =>
    simp only [ho, Except.ok.injEq] at h
    split at h
    · exact .inl ⟨h.symm, ‹_›⟩
    · exact .inr ⟨‹_›, others, by rw [h]⟩

theorem routes_of_ok {provided : List String} {ns : List SelectionNode} {routed : List Routed}
    {drafts : List Draft} (hC : ∀ n ∈ ns, p.Completes C n)
    (h : p.route site provided next (ns.map p.pending) = .ok (routed, drafts)) :
    ∃ leaving, Routes C p site provided next ns (routed.filterMap Routed.kept?) leaving drafts ∧
      routed.filterMap Routed.leaving? = leaving.map fun e => (e.1, p.pending e.2) := by
  induction ns generalizing next routed drafts with
  | nil =>
    cases h
    exact ⟨[], .nil next, rfl⟩
  | cons n ns ih =>
    have hrest := fun c hc => hC c (List.mem_cons_of_mem n hc)
    rw [List.map_cons, pending, route] at h
    split at h
    · obtain ⟨⟨rest, ds⟩, hr, h⟩ := bind_eq_ok.1 h
      cases h
      obtain ⟨leaving, hroutes, hl⟩ := ih hrest hr
      exact ⟨leaving, .typename ‹_› hroutes, hl⟩
    · extract_lets onward at h
      -- a provided name is resolved here whoever owns it
      have howner : ∃ owner, onward owner = .ok (routed, drafts) ∧
          ((owner = site.source ∧
            (n.name ∈ provided ∨ site.source ∈ p.index.ownersOf n.onType n.name)) ∨
          (n.name ∉ provided ∧ site.source ∉ p.index.ownersOf n.onType n.name ∧
            ∃ others, p.index.ownersOf n.onType n.name = owner :: others)) := by
        split at h
        · obtain ⟨owner, ho, h⟩ := bind_eq_ok.1 h
          cases ho
          exact ⟨_, h, .inl ⟨rfl, .inl (by simpa using ‹provided.contains n.name = true›)⟩⟩
        · obtain ⟨owner, ho, h⟩ := bind_eq_ok.1 h
          have hp : n.name ∉ provided := by simpa using ‹¬provided.contains n.name = true›
          cases chooseOwner_of_ok ho with
          | inl hstay => exact ⟨_, h, .inl ⟨hstay.1, .inr hstay.2⟩⟩
          | inr hleave => exact ⟨_, h, .inr ⟨hp, hleave⟩⟩
      clear h
      obtain ⟨owner, h, howner⟩ := howner
      simp only [onward] at h
      rcases howner with ⟨rfl, hres⟩ | ⟨hp, hm, others, hown⟩
      · rw [if_pos rfl] at h
        obtain ⟨⟨m, ds⟩, hn, h⟩ := bind_eq_ok.1 h
        obtain ⟨⟨rest, more⟩, hr, h⟩ := bind_eq_ok.1 h
        cases h
        obtain ⟨leaving, hroutes, hl⟩ := ih hrest hr
        exact ⟨leaving, .stays hres (hC n (by simp) _ _ _ _ hn) hroutes, hl⟩
      · have hne : owner ≠ site.source := fun he => hm (by simp [hown, he])
        rw [if_neg hne] at h
        obtain ⟨⟨rest, ds⟩, hr, h⟩ := bind_eq_ok.1 h
        cases h
        obtain ⟨leaving, hroutes, hl⟩ := ih hrest hr
        exact ⟨_, .leaves hp hm hown hroutes, by simp [Routed.leaving?, hl, pending]⟩

theorem entry_of_ok {parent : Nat} {source : Source} {type : String} {keys : List String}
    {fields : List SelectionNode} {e : Entry} (hC : ∀ n ∈ fields, p.Completes C n)
    (h : enter site parent source type keys (fields.map p.pending) next = .ok e) :
    ∃ nodes inner, CompletesAll C ⟨source, next, site.path⟩ (next + 1) fields nodes inner ∧
      e = site.entry next parent source type keys nodes inner := by
  obtain ⟨⟨nodes, inner⟩, hc, h⟩ := bind_eq_ok.1 h
  cases h
  exact ⟨nodes, inner, completesAll_of_ok hC hc, rfl⟩

def pendingGroup (p : Planner) (g : Group) : (Source × String) × List Pending :=
  (g.1, g.2.map p.pending)

def SetAside (p : Planner) (site : Site) (g : Group) (b : Bridge) : Prop :=
  b.source = g.1.1 ∧ b.type = g.1.2 ∧ b.fields = g.2.map p.pending ∧
    p.index.hop g.1.2 site.source g.1.1 (g.2.map (·.name)) = .ok (.bridged b.base b.baseKeys b.keys)

theorem enters_of_direct {groups : List Group} {entries : List Entry} {bridges : List Bridge}
    (known : List Entry) (hC : ∀ g ∈ groups, ∀ n ∈ g.2, p.Completes C n)
    (h : p.enterDirect site next (groups.map p.pendingGroup) = .ok (entries, bridges)) :
    ∃ direct left, (direct ++ left).Perm groups ∧ Enters C p site known next direct entries ∧
      (∀ e ∈ entries, e.parent = site.id) ∧ List.Forall₂ (p.SetAside site) left bridges := by
  induction groups generalizing next entries bridges known with
  | nil =>
    cases h
    exact ⟨[], [], .nil, .nil known next, by simp, .nil⟩
  | cons g groups ih =>
    obtain ⟨⟨source, type⟩, fields⟩ := g
    have hrest := fun g' hg => hC g' (List.mem_cons_of_mem _ hg)
    have hnames : (fields.map p.pending).map (·.1.name) = fields.map (·.name) := by
      simp [pending, Function.comp_def]
    rw [List.map_cons, pendingGroup, enterDirect, hnames] at h
    split at h
    · exact nomatch h
    · obtain ⟨e, he, h⟩ := bind_eq_ok.1 h
      obtain ⟨⟨others, more⟩, hr, h⟩ := bind_eq_ok.1 h
      cases h
      obtain ⟨nodes, inner, hfill, rfl⟩ := entry_of_ok (hC _ (by simp)) he
      obtain ⟨direct, left, hperm, henters, hparent, hleft⟩ := ih _ hrest hr
      refine ⟨_, left, hperm.cons _, .direct ‹_› hfill henters, ?_, hleft⟩
      exact List.forall_mem_cons.2 ⟨rfl, hparent⟩
    · obtain ⟨⟨others, more⟩, hr, h⟩ := bind_eq_ok.1 h
      cases h
      obtain ⟨direct, left, hperm, henters, hparent, hleft⟩ := ih known hrest hr
      exact ⟨direct, _, List.perm_middle.trans (hperm.cons _), henters, hparent,
        .cons ⟨rfl, rfl, rfl, ‹_›⟩ hleft⟩

def Bases (site : Site) (known : List Entry) (entered : List ((Source × String) × Nat)) : Prop :=
  ∀ e ∈ entered, ∃ b ∈ known, b.id = e.2 ∧ b.parent = site.id ∧
    (b.fragment.source, b.fragment.onType) = e.1

theorem enters_of_bridged {groups : List Group} {entered : List ((Source × String) × Nat)}
    {known entries : List Entry} {bridges : List Bridge} (hbases : Bases site known entered)
    (haside : List.Forall₂ (p.SetAside site) groups bridges)
    (hC : ∀ g ∈ groups, ∀ n ∈ g.2, p.Completes C n)
    (h : enterBridged site entered next bridges = .ok entries) :
    Enters C p site known next groups entries := by
  induction haside generalizing next entered known entries with
  | nil =>
    cases h
    exact .nil known next
  | @cons g b groups bridges hb _ ih =>
    obtain ⟨⟨source, type⟩, fields⟩ := g
    obtain ⟨bsource, btype, bfields, base, baseKeys, keys⟩ := b
    simp only [SetAside] at hb
    obtain ⟨rfl, rfl, rfl, hop⟩ := hb
    have hfields := hC ((bsource, btype), fields) List.mem_cons_self
    have hrest := fun g' hg => hC g' (List.mem_cons_of_mem _ hg)
    rw [enterBridged] at h
    split at h
    · rename_i id hid
      obtain ⟨e, he, h⟩ := bind_eq_ok.1 h
      obtain ⟨others, hr, h⟩ := bind_eq_ok.1 h
      cases h
      obtain ⟨nodes, inner, hfill, rfl⟩ := entry_of_ok hfields he
      obtain ⟨front, behind, hin, -⟩ := List.lookup_eq_some_iff.1 hid
      obtain ⟨b, hmem, rfl, hparent, hkey⟩ := hbases ((base, btype), id) (by simp [hin])
      obtain ⟨rfl, rfl⟩ := Prod.mk.inj hkey
      refine .beyond hop hmem hparent rfl hfill (ih (fun k hk => ?_) hrest hr)
      obtain ⟨b', hb', hrest'⟩ := hbases k hk
      exact ⟨b', List.mem_cons_of_mem _ hb', hrest'⟩
    · obtain ⟨e, he, h⟩ := bind_eq_ok.1 h
      obtain ⟨others, hr, h⟩ := bind_eq_ok.1 h
      cases h
      obtain ⟨nodes, inner, hfill, rfl⟩ := entry_of_ok hfields he
      refine .bridged hop hfill (ih (fun k hk => ?_) hrest hr)
      rcases List.mem_cons.1 hk with rfl | hk
      · exact ⟨site.entry next site.id base btype baseKeys [] [], by simp, rfl, rfl, rfl⟩
      · obtain ⟨b', hb', hrest'⟩ := hbases k hk
        exact ⟨b', List.mem_cons_of_mem _ (List.mem_cons_of_mem _ hb'), hrest'⟩

theorem splits_of_ok {enclosing : String} {provided place : List String}
    {ns kept : List SelectionNode} {drafts : List Draft} (hC : ∀ n ∈ ns, p.Completes C n)
    (h : p.split site enclosing provided place (ns.map p.pending) next = .ok (kept, drafts)) :
    Splits C p site enclosing provided place ns next kept drafts := by
  obtain ⟨⟨routed, ds⟩, hroute, h⟩ := bind_eq_ok.1 h
  obtain ⟨⟨direct, bridges⟩, hdirect, h⟩ := bind_eq_ok.1 h
  obtain ⟨bridged, hbridged, h⟩ := bind_eq_ok.1 h
  cases h
  obtain ⟨leaving, hroutes, hleaving⟩ := routes_of_ok hC hroute
  have hgroups : ∀ g ∈ gather leaving, ∀ n ∈ g.2, p.Completes C n := fun g hg n hn =>
    hC n ((hroutes.group_sublist hg).subset hn)
  rw [hleaving, gather_map p.pending] at hdirect
  obtain ⟨near, far, hperm, henters, hparent, haside⟩ := enters_of_direct [] hgroups hdirect
  have hfar : ∀ g ∈ far, ∀ n ∈ g.2, p.Completes C n := fun g hg =>
    hgroups g (hperm.subset (List.mem_append_right near hg))
  have hbases : Bases site (direct.reverse ++ [])
      (direct.map fun e => ((e.fragment.source, e.fragment.onType), e.id)) := by
    intro e he
    obtain ⟨b, hb, rfl⟩ := List.mem_map.1 he
    exact ⟨b, by simpa using hb, rfl, hparent b hb, rfl⟩
  exact .mk hroutes hperm (henters.append (enters_of_bridged hbases haside hfar hbridged))

/-- A relation that holds of fields copied as they are, and passes from the parts of a split to the
field, relates every field to what it is completed to. -/
theorem complete_induction
    (leaf : ∀ (site : Site) (next : Nat) (n : SelectionNode), n.children = [] → C site next n n [])
    (node : ∀ (site : Site) (next : Nat) (n : SelectionNode) (kept : List SelectionNode)
      (drafts : List Draft), n.children ≠ [] →
      Splits C p { site with path := p.placeBelow site.path n } n.ofType
        (p.providedBelow site.source n) (placeOf n.children) n.children next kept drafts →
      C site next n { n with children := kept } drafts)
    (n : SelectionNode) : p.Completes C n := by
  induction n using SelectionNode.ofChildren with
  | step n ih =>
    intro site next m drafts h
    rw [complete_eq] at h
    split at h
    · cases h
      exact leaf site next n (List.isEmpty_iff.1 ‹_›)
    · obtain ⟨⟨kept, ds⟩, hs, h⟩ := bind_eq_ok.1 h
      cases h
      have hne : n.children ≠ [] := fun he => ‹¬n.children.isEmpty = true› (List.isEmpty_iff.2 he)
      exact node site next n kept ds hne (splits_of_ok ih hs)

theorem ownRoots_of_ok {ns : List SelectionNode} {owned : List (Source × Pending)}
    (h : p.ownRoots (ns.map p.pending) = .ok owned) :
    ∃ roots : List (Source × SelectionNode), owned = roots.map (fun e => (e.1, p.pending e.2)) ∧
      roots.map (·.2) = ns.filter (!·.isTypename) ∧
      ∀ e ∈ roots, ∃ others, p.index.ownersOf e.2.onType e.2.name = e.1 :: others := by
  induction ns generalizing owned with
  | nil =>
    cases h
    exact ⟨[], rfl, rfl, by simp⟩
  | cons n ns ih =>
    rw [List.map_cons, ownRoots] at h
    split at h
    · rename_i hn
      obtain ⟨roots, hr, hf, ho⟩ := ih h
      have hn : n.isTypename = true := hn
      exact ⟨roots, hr, by simp [hf, hn], ho⟩
    · rename_i hn
      obtain ⟨owner, hown, h⟩ := bind_eq_ok.1 h
      obtain ⟨rest, hrest, h⟩ := bind_eq_ok.1 h
      cases h
      obtain ⟨roots, rfl, hf, ho⟩ := ih hrest
      have hn : n.isTypename = false := Bool.eq_false_iff.2 hn
      refine ⟨(owner, n) :: roots, rfl, by simp [hf, hn], List.forall_mem_cons.2 ⟨?_, ho⟩⟩
      unfold SchemaIndex.chooseOwner at hown
      cases hos : p.index.ownersOf n.onType n.name with
      | nil => simp [pending, hos] at hown
      | cons first others =>
        simp only [pending, hos, Except.ok.injEq] at hown
        exact ⟨others, by rw [hown]⟩

theorem pending_rootGroups (o : Operation) (roots : List (Source × SelectionNode)) :
    (if o.kind = .mutation then runs (roots.map fun e => (e.1, p.pending e.2))
      else gather (roots.map fun e => (e.1, p.pending e.2))) =
    (rootGroups o roots).map fun g => (g.1, g.2.map p.pending) := by
  by_cases hk : o.kind = .mutation
  · simp [rootGroups, hk, runs_map p.pending]
  · simp [rootGroups, hk, gather_map p.pending]

theorem entersRoots_of_ok {serial : Bool} {rootType : String} {previous? : Option Nat}
    {groups : List (Source × List SelectionNode)} {drafts : List Draft}
    (hC : ∀ n, p.Completes C n)
    (h : enterRoots serial rootType previous? next
      (groups.map fun g => (g.1, g.2.map p.pending)) = .ok drafts) :
    EntersRoots C serial rootType previous? next groups drafts := by
  induction groups generalizing previous? next drafts with
  | nil =>
    cases h
    exact .nil previous? next
  | cons g groups ih =>
    obtain ⟨⟨nodes, inner⟩, hfill, h⟩ := bind_eq_ok.1 h
    obtain ⟨more, hmore, h⟩ := bind_eq_ok.1 h
    cases h
    exact .cons (completesAll_of_ok (fun n _ => hC n) hfill) (ih hmore)

theorem decomposes_of_ok {o : Operation} {d : Decomposition} (hC : ∀ n, p.Completes C n)
    (h : p.decompose o = .ok d) : Decomposes C p o d := by
  obtain ⟨owned, hown, h⟩ := bind_eq_ok.1 h
  obtain ⟨drafts, hroots, h⟩ := bind_eq_ok.1 h
  cases h
  rw [completers_eq_map] at hown
  obtain ⟨roots, rfl, hf, ho⟩ := ownRoots_of_ok hown
  refine .mk hf ho (entersRoots_of_ok hC ?_)
  rw [← hroots, ← pending_rootGroups]

end Planner

/-- Entries of the same sizes for the same sources and types lead on alike: to the same bases for
what is entered next, and to the same numbers. -/
theorem entered_congr {entries others : List Entry} (h : List.Forall₂ (fun e f => e.id = f.id ∧
      e.fragment.source = f.fragment.source ∧ e.fragment.onType = f.fragment.onType ∧
      e.size = f.size) entries others) :
    (entries.map fun e => ((e.fragment.source, e.fragment.onType), e.id)) =
      others.map (fun e => ((e.fragment.source, e.fragment.onType), e.id)) ∧
    ∀ next, entries.foldl (fun next e => next + e.size) next =
      others.foldl (fun next e => next + e.size) next := by
  constructor
  · refine List.forall₂_eq_eq_eq ▸ List.rel_map (fun e f he => ?_) h
    obtain ⟨hid, hsource, htype, -⟩ := he
    rw [hid, hsource, htype]
  · exact fun next => List.rel_foldl (fun _ _ hn _ _ he => by rw [hn, he.2.2.2]) rfl h

/-- Dependencies come from the parents of drafts and from the keys that drafts receive. -/
theorem Decomposition.dependencies_ofDrafts {drafts drafts' : List Draft}
    (h : List.Forall₂ (fun d e => d.parents = e.parents ∧
      d.fragment.requiredKeys = e.fragment.requiredKeys) drafts drafts') :
    (ofDrafts drafts).dependencies = (ofDrafts drafts').dependencies := by
  have hall : ∀ start, (drafts.zipIdx start).flatMap (fun e => e.1.parents.map fun parent =>
        (⟨parent, e.2, e.1.fragment.requiredKeys⟩ : Dependency)) =
      (drafts'.zipIdx start).flatMap fun e => e.1.parents.map fun parent =>
        ⟨parent, e.2, e.1.fragment.requiredKeys⟩ := by
    induction h with
    | nil => exact fun _ => rfl
    | cons first _ ih =>
      intro start
      rw [List.zipIdx_cons, List.zipIdx_cons, List.flatMap_cons, List.flatMap_cons, ih, first.1,
        first.2]
  exact hall 0

end FederatedQuery
