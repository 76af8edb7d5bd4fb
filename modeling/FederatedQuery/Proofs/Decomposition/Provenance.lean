import FederatedQuery.Proofs.Decomposition.Completeness

/-!
Where fragments come from. Every fragment that enters a type was left for by a field that some
earlier fragment holds, and it receives its keys from that fragment or from a base beside it.
-/
namespace FederatedQuery

abbrev Holder := Site × SelectionSet

def Draft.holder (e : Draft × Nat) : Holder :=
  (⟨e.1.fragment.source, e.2, e.1.fragment.providedPath⟩, e.1.fragment.selection)

namespace Planner

theorem placeBelow_of_asked (p : Planner) (path : ResponsePath) {n m : SelectionNode}
    (h : n.asked = m.asked) : p.placeBelow path n = p.placeBelow path m := by
  have hkey := SelectionNode.responseKey_of_asked h
  have hname := SelectionNode.name_of_asked h
  have htype := SelectionNode.onType_of_asked h
  rw [placeBelow, placeBelow, hkey, hname, htype]

theorem keys_foldl_placeBelow (p : Planner) (way : List SelectionNode) (path : ResponsePath) :
    (way.foldl p.placeBelow path).keys = path.keys ++ way.map (·.responseKey) := by
  induction way generalizing path with
  | nil => simp
  | cons n way ih => simp [ih, keys_placeBelow]

theorem placeBelow_extends (p : Planner) (path : ResponsePath) (n : SelectionNode) :
    ∃ more, p.placeBelow path n = path ++ more := by
  unfold placeBelow
  split
  · exact ⟨[.field n.responseKey, .each], by simp [ResponsePath.each, ResponsePath.field]⟩
  · exact ⟨[.field n.responseKey], rfl⟩

theorem keysBelow?_foldl_placeBelow (p : Planner) (way : List SelectionNode) (path : ResponsePath) :
    ResponsePath.keysBelow? (way.foldl p.placeBelow path) path =
      some (way.map (·.responseKey)) := by
  have hext : ∃ more, way.foldl p.placeBelow path = path ++ more := by
    induction way generalizing path with
    | nil => exact ⟨[], by simp⟩
    | cons n way ih =>
      obtain ⟨first, hfirst⟩ := p.placeBelow_extends path n
      obtain ⟨more, hmore⟩ := ih (p.placeBelow path n)
      exact ⟨first ++ more, by rw [List.foldl_cons, hmore, hfirst, List.append_assoc]⟩
  obtain ⟨more, hmore⟩ := hext
  have hkeys := p.keys_foldl_placeBelow way path
  rw [hmore, ResponsePath.keys, List.filterMap_append] at hkeys
  rw [hmore, ResponsePath.keysBelow?, ResponsePath.below?_append, Option.map_some]
  exact congrArg some (List.append_cancel_left hkeys)

/-! ### Holders inside holders -/

/-- What lies below the first holder lies below the second as well, at the same place. As long as
keys are `distinct`, what is reached by first fields in the first is so in the second. -/
structure Leads (p : Planner) (distinct : Prop) (h g : Holder) : Prop where
  source : g.1.source = h.1.source
  id : g.1.id = h.1.id
  through : ∃ front : List SelectionNode, front.foldl p.placeBelow g.1.path = h.1.path ∧
    (∀ way n, SelectionSet.Descends h.2 (way ++ [n]) →
      SelectionSet.Descends g.2 (front ++ way ++ [n])) ∧
    (distinct → ∀ way n, SelectionSet.DescendsFirst h.2 (way ++ [n]) →
      SelectionSet.DescendsFirst g.2 (front ++ way ++ [n]))

namespace Leads
variable {p : Planner} {distinct : Prop} {h g k : Holder} {site : Site} {s t : SelectionSet}

theorem refl (p : Planner) (distinct : Prop) (h : Holder) : p.Leads distinct h h :=
  ⟨rfl, rfl, [], rfl, fun _ _ hd => hd, fun _ _ _ hd => hd⟩

theorem trans (hg : p.Leads distinct h g) (gk : p.Leads distinct g k) : p.Leads distinct h k := by
  obtain ⟨front, hpath, hway, hfirst⟩ := hg.through
  obtain ⟨front', hpath', hway', hfirst'⟩ := gk.through
  refine ⟨gk.source.trans hg.source, gk.id.trans hg.id, front' ++ front, ?_, ?_, ?_⟩
  · rw [List.foldl_append, hpath', hpath]
  · intro way n hd
    have := hway' (front ++ way) n (hway way n hd)
    simpa [List.append_assoc] using this
  · intro hdistinct way n hd
    have := hfirst' hdistinct (front ++ way) n (hfirst hdistinct way n hd)
    simpa [List.append_assoc] using this

theorem of_subset (hst : s ⊆ t)
    (hfirst : distinct → ∀ n, s.find? n.responseKey = some n → t.find? n.responseKey = some n) :
    p.Leads distinct (site, s) (site, t) := by
  refine ⟨rfl, rfl, [], rfl, fun way n hd => hd.mono hst, fun hdistinct way n hd => ?_⟩
  cases way with
  | nil => exact ⟨hfirst hdistinct n hd.1, trivial⟩
  | cons m way => exact ⟨hfirst hdistinct m hd.1, hd.2⟩

theorem of_append (s t : SelectionSet) : p.Leads distinct (site, s) (site, s ++ t) :=
  of_subset (List.subset_append_left s t) fun _ _ hn => SelectionSet.find?_append_of_some hn t

theorem of_nodup (hst : s ⊆ t) (hnodup : distinct → (t.map (·.responseKey)).Nodup) :
    p.Leads distinct (site, s) (site, t) :=
  of_subset hst fun hdistinct _ hn =>
    SelectionSet.find?_of_nodup (hnodup hdistinct) (hst (SelectionSet.mem_of_find? hn).1)

theorem of_children {n : SelectionNode} :
    p.Leads distinct ({ site with path := p.placeBelow site.path n }, n.children) (site, [n]) := by
  refine ⟨rfl, rfl, [n], rfl, fun way m hd => ⟨by simp, hd⟩, fun _ way m hd => ⟨?_, hd⟩⟩
  simp [SelectionSet.find?]

end Leads

/-! ### How a fragment was entered -/

/-- A draft receives its keys from the holder, below the field `last`, or from a base that receives
its own there and stands at the same place. -/
inductive Receives (p : Planner) (numbered : List (Draft × Nat)) (holder : Site)
    (last : SelectionNode) (d : Draft) : Prop
  | direct (parents : d.parents = [holder.id])
      (owns : p.index.resolvesAll d.fragment.onType holder.source d.fragment.requiredKeys = true)
      (held : ∀ k ∈ d.fragment.requiredKeys,
        SelectionSet.holdsKey last.children d.fragment.onType last.ofType k = true)
  | beyond {base : Draft} {id : Nat} (mem : (base, id) ∈ numbered)
      (parents : d.parents = [id]) (before : base.parents = [holder.id])
      (place : base.fragment.providedPath = d.fragment.providedPath)
      (same : base.fragment.onType = d.fragment.onType)
      (owns : p.index.resolvesAll d.fragment.onType base.fragment.source
        d.fragment.requiredKeys = true)
      (held : ∀ k ∈ d.fragment.requiredKeys,
        base.fragment.selection.holdsKey d.fragment.onType d.fragment.onType k = true)

structure Formed (p : Planner) (source : Source) (provided : List String)
    (children : List SelectionNode) (f : FetchFragment) : Prop where
  departs : ∀ n ∈ f.selection, n.isHidden = false →
    (∃ c ∈ children, n.asked = c.asked) ∧ p.Departs source f.source provided n
  requires : ∀ n ∈ f.selection, n.isHidden = false →
    p.index.requiresOf n.onType n.name f.source ⊆ f.requiredKeys
  keyed : p.index.keyFor f.onType f.source <+: f.requiredKeys
  enterable : p.index.keyFor f.onType f.source ≠ [] ∨
    (p.index.entryPoint? f.onType f.source).isSome = true

structure EnteredBelow (p : Planner) (distinct : Prop) (numbered : List (Draft × Nat))
    (holder : Holder) (way : List SelectionNode) (last field : SelectionNode)
    (e : Draft × Nat) : Prop where
  descends : SelectionSet.Descends holder.2 (way ++ [last])
  first : distinct → SelectionSet.DescendsFirst holder.2 (way ++ [last])
  path : (way ++ [last]).foldl p.placeBelow holder.1.path = e.1.fragment.providedPath
  copy : last.head = field.head
  formed : p.Formed holder.1.source (p.providedBelow holder.1.source last) field.children
    e.1.fragment
  receives : p.Receives numbered holder.1 last e.1
  earlier : ∀ id ∈ e.1.parents, id < e.2

def Entered (p : Planner) (above : List String) (s : SelectionSet) (holders : List Holder)
    (numbered : List (Draft × Nat)) (e : Draft × Nat) : Prop :=
  ∃ holder ∈ holders, ∃ way last field,
    (e.1.fragment.providedPath.keys, field) ∈ SelectionSet.located above s ∧
    p.EnteredBelow (SelectionSet.DistinctKeys s) numbered holder way last field e

theorem Receives.mono {p : Planner} {numbered more : List (Draft × Nat)} {holder site : Site}
    {last : SelectionNode} {d : Draft} (h : p.Receives numbered holder last d)
    (hn : numbered ⊆ more) (hsource : site.source = holder.source) (hid : site.id = holder.id) :
    p.Receives more site last d := by
  cases h with
  | direct parents owns held => exact .direct (hid ▸ parents) (hsource ▸ owns) held
  | beyond mem parents before place same owns held =>
    exact .beyond (hn mem) parents (hid ▸ before) place same owns held

/-- What was entered from a holder or one of the drafts was entered from whatever holds that holder,
or from one of more drafts. -/
theorem Entered.lift {p : Planner} {above above' : List String} {s t : SelectionSet} {g g' : Holder}
    {holders : List Holder} {numbered more : List (Draft × Nat)} {e : Draft × Nat}
    (h : p.Entered above s (g :: numbered.map Draft.holder) numbered e)
    (hlocated : SelectionSet.located above s ⊆ SelectionSet.located above' t)
    (hdistinct : SelectionSet.DistinctKeys t → SelectionSet.DistinctKeys s)
    (hn : numbered ⊆ more) (hmore : more.map Draft.holder ⊆ holders)
    (hg : g' ∈ holders) (hleads : p.Leads (SelectionSet.DistinctKeys t) g g') :
    p.Entered above' t holders more e := by
  obtain ⟨k, hk, way, last, field, hfield, hentered⟩ := h
  have hheld : ∃ k' ∈ holders, p.Leads (SelectionSet.DistinctKeys t) k k' := by
    rcases List.mem_cons.1 hk with rfl | hk
    · exact ⟨g', hg, hleads⟩
    · exact ⟨k, hmore (List.map_subset _ hn hk), .refl _ _ k⟩
  obtain ⟨k', hk', hleads⟩ := hheld
  obtain ⟨front, hpath, hway, hfirst⟩ := hleads.through
  refine ⟨k', hk', front ++ way, last, field, hlocated hfield, ?_⟩
  exact {
    descends := hway way last hentered.descends
    first := fun hd => hfirst hd way last (hentered.first (hdistinct hd))
    path := by rw [List.append_assoc, List.foldl_append, hpath, hentered.path]
    copy := hentered.copy
    formed := hleads.source ▸ hentered.formed
    receives := hentered.receives.mono hn hleads.source hleads.id
    earlier := hentered.earlier }

theorem Entered.subset {p : Planner} {above : List String} {s : SelectionSet}
    {holders more : List Holder} {numbered others : List (Draft × Nat)} {e : Draft × Nat}
    (h : p.Entered above s holders numbered e) (hh : holders ⊆ more) (hn : numbered ⊆ others) :
    p.Entered above s more others e := by
  obtain ⟨g, hg, way, last, field, hfield, hentered⟩ := h
  exact ⟨g, hh hg, way, last, field, hfield,
    { hentered with receives := hentered.receives.mono hn rfl rfl }⟩

def Traced (p : Planner) : Completion := fun site next n m drafts =>
  m.head = n.head ∧ (site.id < next → ∀ e ∈ drafts.zipIdx next,
    p.Entered site.path.keys [n] ((site, [m]) :: (drafts.zipIdx next).map Draft.holder)
      (drafts.zipIdx next) e)

end Planner

section Traced
variable {p : Planner} {site : Site} {next : Nat} {ns : List SelectionNode} {drafts : List Draft}

/-- A completed field in front of others. It must not answer to a key of those behind it. -/
theorem Planner.Entered.cons {n m : SelectionNode} {ms : List SelectionNode} {more : List Draft}
    (hheads : ((m :: ms).map SelectionNode.head).Sublist ((n :: ns).map SelectionNode.head))
    (hfirst : ∀ e ∈ drafts.zipIdx next, p.Entered site.path.keys [n]
      ((site, [m]) :: (drafts.zipIdx next).map Draft.holder) (drafts.zipIdx next) e)
    (hrest : ∀ e ∈ more.zipIdx (next + drafts.length), p.Entered site.path.keys ns
      ((site, ms) :: (more.zipIdx (next + drafts.length)).map Draft.holder)
      (more.zipIdx (next + drafts.length)) e) :
    ∀ e ∈ (drafts ++ more).zipIdx next, p.Entered site.path.keys (n :: ns)
      ((site, m :: ms) :: ((drafts ++ more).zipIdx next).map Draft.holder)
      ((drafts ++ more).zipIdx next) e := by
  intro e he
  rw [List.zipIdx_append] at he ⊢
  cases List.mem_append.1 he with
  | inl he =>
    exact (hfirst e he).lift (SelectionSet.located_subset _ (by simp))
      (fun hd => hd.sublist (by simp)) (List.subset_append_left _ _) (List.subset_cons_self _ _)
      List.mem_cons_self (.of_append [m] ms)
  | inr he =>
    exact (hrest e he).lift (SelectionSet.located_subset _ (by simp))
      (fun hd => hd.sublist (by simp)) (List.subset_append_right _ _) (List.subset_cons_self _ _)
      List.mem_cons_self (.of_nodup (by simp) fun hd => hd.nodup_of_heads hheads)

theorem CompletesAll.traced {ms : List SelectionNode}
    (h : CompletesAll p.Traced site next ns ms drafts) :
    ms.map SelectionNode.head = ns.map SelectionNode.head ∧
      (site.id < next → ∀ e ∈ drafts.zipIdx next,
        p.Entered site.path.keys ns ((site, ms) :: (drafts.zipIdx next).map Draft.holder)
          (drafts.zipIdx next) e) := by
  induction h with
  | nil => exact ⟨rfl, by simp⟩
  | @cons next n m ns ms drafts more first _ ih =>
    obtain ⟨hhead, hfirst⟩ := first
    obtain ⟨hheads, hrest⟩ := ih
    have hall : (m :: ms).map SelectionNode.head = (n :: ns).map SelectionNode.head := by
      simp [hhead, hheads]
    refine ⟨hall, fun hlt => ?_⟩
    exact .cons (hall ▸ List.Sublist.refl _) (hfirst hlt) (hrest (by omega))

theorem Routes.traced {provided : List String} {kept : List SelectionNode}
    {leaving : List ((Source × String) × SelectionNode)}
    (h : Routes p.Traced p site provided next ns kept leaving drafts) :
    (kept.map SelectionNode.head).Sublist (ns.map SelectionNode.head) ∧
      (site.id < next → ∀ e ∈ drafts.zipIdx next,
        p.Entered site.path.keys ns ((site, kept) :: (drafts.zipIdx next).map Draft.holder)
          (drafts.zipIdx next) e) := by
  induction h with
  | nil => exact ⟨.slnil, by simp⟩
  | @typename next n ns kept leaving drafts _ _ ih =>
    obtain ⟨hheads, hrest⟩ := ih
    have hall : ((n :: kept).map SelectionNode.head).Sublist ((n :: ns).map SelectionNode.head) :=
      hheads.cons_cons _
    refine ⟨hall, fun hlt e he => ?_⟩
    exact (hrest hlt e he).lift (SelectionSet.located_subset _ (by simp))
      (fun hd => hd.sublist (by simp)) (List.Subset.refl _) (List.subset_cons_self _ _)
      List.mem_cons_self (.of_nodup (by simp) fun hd => hd.nodup_of_heads hall)
  | @stays next n m ns kept leaving drafts more _ first _ ih =>
    obtain ⟨hhead, hfirst⟩ := first
    obtain ⟨hheads, hrest⟩ := ih
    have hall : ((m :: kept).map SelectionNode.head).Sublist
        ((n :: ns).map SelectionNode.head) := by
      rw [List.map_cons, List.map_cons, hhead]
      exact hheads.cons_cons _
    exact ⟨hall, fun hlt => .cons hall (hfirst hlt) (hrest (by omega))⟩
  | @leaves next n ns kept leaving drafts owner others _ _ _ _ ih =>
    obtain ⟨hheads, hrest⟩ := ih
    refine ⟨hheads.cons _, fun hlt e he => ?_⟩
    exact (hrest hlt e he).lift (SelectionSet.located_subset _ (by simp))
      (fun hd => hd.sublist (by simp)) (List.Subset.refl _) (List.subset_cons_self _ _)
      List.mem_cons_self (.refl _ _ _)

/-- Inside a fragment that is filled, drafts are entered from it or from one another. -/
theorem CompletesAll.traced_inside {d : Draft} {id : Nat} {fields nodes added : List SelectionNode}
    {inner : List Draft} {above : List String} {holders : List Holder}
    {numbered : List (Draft × Nat)}
    (fill : CompletesAll p.Traced ⟨d.fragment.source, id, d.fragment.providedPath⟩ (id + 1) fields
      nodes inner)
    (hd : d.fragment.selection = nodes ++ added)
    (hlocated : SelectionSet.located d.fragment.providedPath.keys fields ⊆
      SelectionSet.located above ns)
    (hdistinct : SelectionSet.DistinctKeys ns → SelectionSet.DistinctKeys fields)
    (hn : (d :: inner).zipIdx id ⊆ numbered) (hholders : numbered.map Draft.holder ⊆ holders) :
    ∀ e ∈ inner.zipIdx (id + 1), p.Entered above ns holders numbered e := by
  intro e he
  obtain ⟨hself, hinner⟩ := List.cons_subset.1 hn
  refine (fill.traced.2 (Nat.lt_succ_self id) e he).lift hlocated hdistinct hinner hholders
    (hholders (List.mem_map_of_mem hself)) ?_
  rw [Draft.holder, hd]
  exact .of_append nodes added

/-- Completed fields of a group are children that leave, and what they require is forwarded. -/
theorem Planner.departs_of_heads {g : Group} {nodes : List SelectionNode} {source : Source}
    {provided : List String} (hheads : nodes.map SelectionNode.head = g.2.map SelectionNode.head)
    (hns : g.2 ⊆ ns) (hdeparts : ∀ n ∈ g.2, n.onType = g.1.2 ∧ p.Departs source g.1.1 provided n) :
    ∀ m ∈ nodes, ((∃ c ∈ ns, m.asked = c.asked) ∧ p.Departs source g.1.1 provided m) ∧
      p.index.requiresOf m.onType m.name g.1.1 ⊆
        p.index.forwardedKeys g.1.2 g.1.1 (g.2.map (·.name)) := by
  intro m hm
  have hmem : m.head ∈ g.2.map SelectionNode.head := hheads ▸ List.mem_map_of_mem hm
  obtain ⟨n, hn, hhead⟩ := List.mem_map.1 hmem
  have hasked := SelectionNode.asked_of_head hhead.symm
  have htype := SelectionNode.onType_of_asked hasked
  have hname := SelectionNode.name_of_asked hasked
  obtain ⟨hon, hdep⟩ := hdeparts n hn
  refine ⟨⟨⟨n, hns hn, hasked⟩, hdep.of_asked hasked⟩, ?_⟩
  rw [htype, hname, hon]
  exact SchemaIndex.requiresOf_subset_forwardedKeys (List.mem_map_of_mem hn)

theorem MadeFor.formed {bases : List Entry} {g : Group} {e : Entry} {provided : List String}
    (h : MadeFor p.Traced p site bases g e) (hns : g.2 ⊆ ns)
    (hdeparts : ∀ n ∈ g.2, n.onType = g.1.2 ∧ p.Departs site.source g.1.1 provided n) :
    p.Formed site.source provided ns e.fragment := by
  have hfill : ∀ {id start : Nat} {nodes : List SelectionNode} {inner : List Draft},
      CompletesAll p.Traced ⟨g.1.1, id, site.path⟩ start g.2 nodes inner →
      p.index.keyFor g.1.2 g.1.1 ≠ [] → p.Formed site.source provided ns
        ⟨g.1.1, g.1.2, nodes, p.index.forwardedKeys g.1.2 g.1.1 (g.2.map (·.name)), site.path⟩ := by
    intro id start nodes inner fill henter
    have hnodes := p.departs_of_heads fill.traced.1 hns hdeparts
    exact ⟨fun n hn _ => (hnodes n hn).1, fun n hn _ => (hnodes n hn).2,
      SchemaIndex.keyFor_prefix_forwardedKeys .., .inl henter⟩
  cases h with
  | direct hop fill =>
    obtain ⟨henter, rfl, -⟩ := SchemaIndex.hop_direct hop
    exact hfill fill henter
  | @base id source baseKeys keys hop =>
    obtain ⟨-, -, -, ⟨entry, hentry, rfl⟩, -, -⟩ := SchemaIndex.hop_bridged hop
    have hkey : p.index.keyFor g.1.2 source = entry.key := by
      rw [SchemaIndex.keyFor, hentry]
    refine ⟨fun n hn => (nomatch hn), fun n hn => (nomatch hn), ?_, ?_⟩
    · exact ⟨[], (List.append_nil _).trans hkey⟩
    · exact .inr (Option.isSome_iff_exists.2 ⟨entry, hentry⟩)
  | beyond hop mem parent same place earlier fill =>
    obtain ⟨henter, rfl, -⟩ := SchemaIndex.hop_bridged hop
    exact hfill fill henter

theorem Planner.Formed.carry {source : Source} {provided : List String} {e : Entry}
    (h : p.Formed source provided ns e.fragment) (place : List String) (entries : List Entry) :
    p.Formed source provided ns (p.carryEntry place entries e).fragment := by
  refine ⟨fun n hn hvisible => ?_, fun n hn hvisible => ?_, h.keyed, h.enterable⟩
  · exact h.departs n (p.mem_of_mem_carryEntry hn hvisible) hvisible
  · exact h.requires n (p.mem_of_mem_carryEntry hn hvisible) hvisible

theorem MadeFor.receives {C : Completion} {path : ResponsePath} {g : Group} {place : List String}
    {entries : List Entry} {numbered : List (Draft × Nat)} {e : Entry} {m : SelectionNode}
    (h : MadeFor C p { site with path := path } entries g e) (he : e ∈ entries)
    (hheld : e.parent = site.id → ∀ k ∈ e.fragment.requiredKeys,
      SelectionSet.holdsKey m.children e.fragment.onType m.ofType k = true)
    (hn : ∀ c ∈ entries, (p.carryEntry place entries c).drafts.zipIdx c.id ⊆ numbered) :
    p.Receives numbered site m ⟨(p.carryEntry place entries e).fragment, [e.parent]⟩ := by
  cases h with
  | direct hop fill =>
    obtain ⟨-, rfl, howns⟩ := SchemaIndex.hop_direct hop
    exact .direct rfl howns (hheld rfl)
  | base hop =>
    obtain ⟨-, -, -, -, howns, -⟩ := SchemaIndex.hop_bridged hop
    exact .direct rfl howns (hheld rfl)
  | @beyond id b baseKeys keys nodes inner hop mem parent same hplace earlier fill =>
    obtain ⟨-, rfl, -, -, -, howns⟩ := SchemaIndex.hop_bridged hop
    obtain ⟨-, -, -, hbase⟩ := p.carryEntry_spec place entries b
    have hparents : [b.parent] = [site.id] := congrArg ([·]) parent
    have hkeys := hbase _ he rfl
    exact .beyond (hn b mem List.mem_cons_self) rfl hparents hplace same (same ▸ howns) hkeys

theorem MadeFor.traced_inner {n : SelectionNode} {g : Group} {place : List String}
    {entries : List Entry} {holders : List Holder} {numbered : List (Draft × Nat)} {e : Entry}
    (h : MadeFor p.Traced p { site with path := p.placeBelow site.path n } entries g e)
    (hns : g.2.Sublist n.children)
    (hn : (p.carryEntry place entries e).drafts.zipIdx e.id ⊆ numbered)
    (hholders : numbered.map Draft.holder ⊆ holders) :
    ∀ r ∈ e.inner.zipIdx (e.id + 1), p.Entered site.path.keys [n] holders numbered r := by
  obtain ⟨added, hselection, -⟩ := p.carryEntry_spec place entries e
  have hpath : e.fragment.providedPath = p.placeBelow site.path n := h.path
  have hlocated : SelectionSet.located e.fragment.providedPath.keys g.2 ⊆
      SelectionSet.located site.path.keys [n] := by
    intro x hx
    rw [hpath, p.keys_placeBelow] at hx
    exact SelectionSet.mem_located_of_child (SelectionSet.located_subset _ hns.subset hx)
  have hdistinct : SelectionSet.DistinctKeys [n] → SelectionSet.DistinctKeys g.2 := fun hd =>
    (hd.children (by simp)).sublist hns
  cases h.filled with
  | inl hempty => simp [hempty.2]
  | inr fill =>
    exact CompletesAll.traced_inside (d := ⟨(p.carryEntry place entries e).fragment, [e.parent]⟩)
      fill hselection hlocated hdistinct hn hholders

/-- A draft that is formed of what stands below a field is entered from that field. -/
theorem Planner.Entered.of_field {n m : SelectionNode} {numbered : List (Draft × Nat)} {d : Draft}
    {id : Nat} (hhead : m.head = n.head)
    (hpath : d.fragment.providedPath = p.placeBelow site.path n)
    (hformed : p.Formed site.source (p.providedBelow site.source m) n.children d.fragment)
    (hreceives : p.Receives numbered site m d) (hearlier : ∀ q ∈ d.parents, q < id) :
    p.Entered site.path.keys [n] ((site, [m]) :: numbered.map Draft.holder) numbered (d, id) := by
  have hm := p.placeBelow_of_asked site.path (SelectionNode.asked_of_head hhead)
  refine ⟨_, List.mem_cons_self, [], m, n, ?_, ⟨?_, ?_, hm.trans hpath.symm, hhead, hformed,
    hreceives, hearlier⟩⟩
  · simp [hpath, p.keys_placeBelow, SelectionSet.located_cons]
  · exact ⟨List.mem_cons_self, trivial⟩
  · simp [SelectionSet.DescendsFirst, SelectionSet.find?]

theorem MadeFor.traced {n m : SelectionNode} {g : Group} {place : List String}
    {entries : List Entry} {numbered : List (Draft × Nat)} {e : Entry}
    (h : MadeFor p.Traced p { site with path := p.placeBelow site.path n } entries g e)
    (he : e ∈ entries) (hlt : site.id < e.id) (hhead : m.head = n.head)
    (hns : g.2.Sublist n.children)
    (hdeparts : ∀ f ∈ g.2, f.onType = g.1.2 ∧
      p.Departs site.source g.1.1 (p.providedBelow site.source m) f)
    (hheld : e.parent = site.id → ∀ k ∈ e.fragment.requiredKeys,
      SelectionSet.holdsKey m.children e.fragment.onType m.ofType k = true)
    (hn : ∀ c ∈ entries, (p.carryEntry place entries c).drafts.zipIdx c.id ⊆ numbered) :
    ∀ r ∈ (p.carryEntry place entries e).drafts.zipIdx e.id,
      p.Entered site.path.keys [n] ((site, [m]) :: numbered.map Draft.holder) numbered r := by
  have hformed := (h.formed hns.subset hdeparts).carry place entries
  have hreceives := h.receives he hheld hn
  intro r hr
  cases List.mem_cons.1 hr with
  | inl hself =>
    subst hself
    refine .of_field hhead h.path hformed hreceives fun q hq => ?_
    rw [List.mem_singleton.1 hq]
    exact h.parent_lt hlt
  | inr hinner => exact h.traced_inner hns (hn e he) (List.subset_cons_self _ _) r hinner

theorem Splits.traced {n : SelectionNode} {place : List String} {kept : List SelectionNode}
    (h : Splits p.Traced p { site with path := p.placeBelow site.path n } n.ofType
      (p.providedBelow site.source n) place n.children next kept drafts) :
    p.Traced site next n { n with children := kept } drafts := by
  refine ⟨rfl, fun hlt => ?_⟩
  cases h with
  | @mk kept leaving drafts groups entries routes grouped enters =>
    obtain ⟨hheads, hroutes⟩ := routes.traced
    have hmade := enters.made (by simp [Site.Before])
    have hnumbered := (enters.numbered.carry p place entries).zipIdx_drafts
    obtain ⟨added, hkept, -, hheld⟩ := p.carry_spec place entries site.id (some n.ofType) kept
    rw [List.zipIdx_append, hnumbered, hkept]
    set numbered := drafts.zipIdx next ++
      (entries.map (p.carryEntry place entries)).flatMap fun e => e.drafts.zipIdx e.id
    set m : SelectionNode := { n with children := kept ++ added }
    -- from the sub-selection to the field
    have hup : SelectionSet.located (site.path.keys ++ [n.responseKey]) n.children ⊆
        SelectionSet.located site.path.keys [n] := fun e he => SelectionSet.mem_located_of_child he
    have hdistinct : SelectionSet.DistinctKeys [n] → SelectionSet.DistinctKeys n.children :=
      fun hd => hd.children (by simp)
    intro e he
    cases List.mem_append.1 he with
    | inl he =>
      have hchildren : p.Leads (SelectionSet.DistinctKeys [n])
          ({ site with path := p.placeBelow site.path n }, kept ++ added) (site, [m]) :=
        .of_children (n := m)
      refine (hroutes hlt e he).lift ?_ hdistinct (List.subset_append_left _ _)
        (List.subset_cons_self _ _) List.mem_cons_self
        ((Planner.Leads.of_append kept added).trans hchildren)
      rw [p.keys_placeBelow]
      exact hup
    | inr he =>
      obtain ⟨c, hc, he⟩ := List.mem_flatMap.1 he
      obtain ⟨e0, he0, rfl⟩ := List.mem_map.1 hc
      obtain ⟨hle, g, hg, hmade⟩ := hmade e0 he0
      rw [List.append_nil] at hmade
      have hgroup := grouped.subset hg
      refine hmade.traced (m := m) he0 (by omega) rfl (routes.group_sublist hgroup)
        (routes.group_departs hgroup) (fun hparent k hk => ?_) (fun c hc => ?_) e he
      · exact hheld e0 he0 hparent k (p.mem_carried.2 (.inr hk))
      · exact fun r hr => List.mem_append_right _
          (List.mem_flatMap.2 ⟨_, List.mem_map_of_mem hc, hr⟩)

theorem Planner.complete_traced (p : Planner) (n : SelectionNode) : p.Completes p.Traced n :=
  complete_induction (fun _ _ _ _ => ⟨rfl, fun _ => by simp⟩)
    (fun _ _ _ _ _ _ h => h.traced) n

structure Planner.RootOf (groups : List (Source × List SelectionNode)) (e : Draft × Nat) :
    Prop where
  keys : e.1.fragment.requiredKeys = []
  path : e.1.fragment.providedPath = .root
  fields : ∃ fields, (e.1.fragment.source, fields) ∈ groups ∧
    e.1.fragment.selection.map SelectionNode.head = fields.map SelectionNode.head
  earlier : ∀ id ∈ e.1.parents, id < e.2

theorem EntersRoots.traced {serial : Bool} {rootType : String} {previous? : Option Nat}
    {groups : List (Source × List SelectionNode)}
    (h : EntersRoots p.Traced serial rootType previous? next groups drafts)
    (hgroups : ∀ g ∈ groups, g.2.Sublist ns) :
    ∀ e ∈ drafts.zipIdx next, Planner.RootOf groups e ∨
      p.Entered [] ns ((drafts.zipIdx next).map Draft.holder) (drafts.zipIdx next) e := by
  induction h with
  | nil => simp
  | @cons previous? next source fields nodes inner more groups fill _ ih =>
    obtain ⟨hfields, hgroups⟩ := List.forall_mem_cons.1 hgroups
    intro e he
    rw [List.zipIdx_append] at he ⊢
    cases List.mem_append.1 he with
    | inl he =>
      cases List.mem_cons.1 he with
      | inl hself =>
        subst hself
        exact .inl ⟨rfl, rfl, ⟨fields, List.mem_cons_self, fill.traced.1⟩,
          fun _ => lt_of_mem_rootParents⟩
      | inr he =>
        have hselection : nodes = nodes ++ [] := (List.append_nil nodes).symm
        refine .inr (CompletesAll.traced_inside
          (d := ⟨⟨source, rootType, nodes, [], .root⟩, rootParents serial previous? next⟩) fill
          hselection (SelectionSet.located_subset _ hfields.subset)
          (fun hd => hd.sublist hfields) (List.subset_append_left _ _) (List.Subset.refl _) e he)
    | inr he =>
      have hlength : next + (inner.length + 1) = next + 1 + inner.length := by omega
      rw [List.length_cons, hlength] at he ⊢
      cases ih hgroups e he with
      | inl hroot =>
        obtain ⟨keys, path, ⟨fields', hmem, hheads⟩, earlier⟩ := hroot
        exact .inl ⟨keys, path, ⟨fields', List.mem_cons_of_mem _ hmem, hheads⟩, earlier⟩
      | inr hentered =>
        exact .inr (hentered.subset (List.map_subset _ (List.subset_append_right _ _))
          (List.subset_append_right _ _))

/-- Every fragment of an operation is a root fragment, for fields whose preferred owner is its
source, or was entered from another. -/
theorem Planner.decompose_traced {o : Operation} {d : Decomposition} (h : p.decompose o = .ok d) :
    ∃ drafts, d = .ofDrafts drafts ∧ ∃ groups : List (Source × List SelectionNode),
      (∀ g ∈ groups, ∀ n ∈ g.2, ∃ others, p.index.ownersOf n.onType n.name = g.1 :: others) ∧
      ∀ e ∈ drafts.zipIdx, RootOf groups e ∨
        p.Entered [] o.selection (drafts.zipIdx.map Draft.holder) drafts.zipIdx e := by
  cases decomposes_of_ok p.complete_traced h with
  | @mk roots drafts fields owned enters =>
    refine ⟨drafts, rfl, _, fun g hg n hn => ?_, enters.traced fun g hg => ?_⟩
    · have hmem : (g.1, n) ∈ ungroup (rootGroups o roots) := mem_ungroup.2 ⟨g, hg, rfl, hn⟩
      exact owned _ ((ungroup_rootGroups_perm o roots).subset hmem)
    · exact sublist_of_mem_rootGroups fields hg

end Traced
end FederatedQuery
