import FederatedQuery.Proofs.Decomposition.KeyForwarding
import FederatedQuery.Proofs.SchemaIndex.Built

/-!
Every source is asked only for what it resolves, and a field leaves the source of its parent only
where it has to.
-/
namespace FederatedQuery

namespace Planner

/-- What a source may hold below a field that provides some names: a type name, a field of its own,
or one that is provided. -/
def Resolves (p : Planner) (source : Source) (provided : List String) (n : SelectionNode) : Prop :=
  n.isTypename = true ∨ source ∈ p.index.ownersOf n.onType n.name ∨
    (n.isHidden = false ∧ n.name ∈ provided)

structure Serves (p : Planner) (source : Source) (s : SelectionSet) : Prop where
  below : ∀ q ∈ s.allFields, ∀ n ∈ q.children, p.Resolves source (p.providedBelow source q) n
  hidden : ∀ n ∈ s.allFields, n.isHidden = true → source ∈ p.index.ownersOf n.onType n.name

namespace Serves
variable {p : Planner} {source : Source} {s t : SelectionSet}

theorem nil (p : Planner) (source : Source) : p.Serves source [] := by
  constructor
  · intro q hq
    exact nomatch hq
  · intro n hn
    exact nomatch hn

theorem append (h : p.Serves source s) (h' : p.Serves source t) : p.Serves source (s ++ t) := by
  constructor
  · intro q hq
    rw [SelectionSet.allFields_append] at hq
    exact (List.mem_append.1 hq).elim (h.below q) (h'.below q)
  · intro n hn
    rw [SelectionSet.allFields_append] at hn
    exact (List.mem_append.1 hn).elim (h.hidden n) (h'.hidden n)

theorem node {n : SelectionNode}
    (hself : n.isHidden = true → source ∈ p.index.ownersOf n.onType n.name)
    (hbelow : ∀ c ∈ n.children, p.Resolves source (p.providedBelow source n) c)
    (h : p.Serves source n.children) : p.Serves source [n] := by
  have hall : ∀ q ∈ SelectionSet.allFields [n], q = n ∨ q ∈ SelectionSet.allFields n.children := by
    intro q hq
    simpa [SelectionSet.allFields_cons] using hq
  constructor
  · intro q hq
    cases hall q hq with
    | inl heq =>
      subst heq
      exact hbelow
    | inr hchild => exact h.below q hchild
  · intro q hq
    cases hall q hq with
    | inl heq =>
      subst heq
      exact hself
    | inr hchild => exact h.hidden q hchild

theorem leaf {n : SelectionNode} (hchildren : n.children = [])
    (hself : n.isHidden = true → source ∈ p.index.ownersOf n.onType n.name) :
    p.Serves source [n] := by
  refine node hself ?_ ?_
  · simp [hchildren]
  · rw [hchildren]
    exact .nil p source

theorem append_owned (h : p.Serves source s) (ht : ∀ n ∈ t, n.children = [] ∧
    source ∈ p.index.ownersOf n.onType n.name) : p.Serves source (s ++ t) := by
  refine h.append ?_
  induction t with
  | nil => exact .nil p source
  | cons n t ih =>
    obtain ⟨hn, ht⟩ := List.forall_mem_cons.1 ht
    exact (leaf hn.1 fun _ => hn.2).append (ih ht)

end Serves

/-! ### Keys -/

structure Supplies (p : Planner) (source : Source) (f : FetchFragment) : Prop where
  owns : p.index.resolvesAll f.onType source f.requiredKeys = true
  declares : source ∈ p.index.sourcesOf f.onType

variable {p : Planner}

theorem Supplies.carried {source : Source} {f : FetchFragment} (h : p.Supplies source f) :
    ∀ k ∈ p.carried f.requiredKeys, source ∈ p.index.ownersOf f.onType k := by
  intro k hk
  cases p.mem_carried.1 hk with
  | inl hname =>
    rw [hname.2, SchemaIndex.ownersOf, if_pos rfl]
    exact h.declares
  | inr hkey => exact SchemaIndex.mem_ownersOf_of_resolvesAll h.owns hkey

/-- Carrying the keys of what a source supplies adds fields of that source. -/
theorem carry_owned {source : Source} {id : Nat} {entries : List Entry}
    (hsupplies : ∀ c ∈ entries, c.parent = id → p.Supplies source c.fragment)
    (place : List String) (enclosing? : Option String) (s : SelectionSet) :
    ∃ added : List SelectionNode, p.carry place entries id enclosing? s = s ++ added ∧
      ∀ n ∈ added, n.children = [] ∧ source ∈ p.index.ownersOf n.onType n.name := by
  obtain ⟨added, heq, hadded, -⟩ := p.carry_spec place entries id enclosing? s
  refine ⟨added, heq, fun n hn => ?_⟩
  obtain ⟨c, hc, hparent, k, hk, rfl⟩ := hadded n hn
  exact ⟨rfl, (hsupplies c hc hparent).carried k hk⟩

end Planner

section Supplies
variable {b : Blueprint} {C : Completion} {p : Planner} {site : Site}

/-- A source that resolves keys of a type declares it, as long as there are keys. -/
theorem Planner.supplies_of_resolvesAll (hb : b.index = .valid p.index) {source : Source}
    {f : FetchFragment} (hkeys : f.requiredKeys ≠ [])
    (howns : p.index.resolvesAll f.onType source f.requiredKeys = true) :
    p.Supplies source f := by
  obtain ⟨k, hk⟩ := List.exists_mem_of_ne_nil _ hkeys
  have howner := SchemaIndex.mem_ownersOf_of_resolvesAll howns hk
  exact ⟨howns, SchemaIndex.ownersOf_subset_sourcesOf hb _ _ howner⟩

theorem MadeFor.supplies (hb : b.index = .valid p.index) {bases : List Entry} {g : Group}
    {e : Entry} (h : MadeFor C p site bases g e) :
    (e.parent = site.id ∧ p.Supplies site.source e.fragment) ∨
      ∃ base ∈ bases, e.parent = base.id ∧ p.Supplies base.fragment.source e.fragment := by
  cases h with
  | direct hop fill =>
    obtain ⟨henter, rfl, howns⟩ := SchemaIndex.hop_direct hop
    have hprefix := p.index.keyFor_prefix_forwardedKeys g.1.2 g.1.1 (g.2.map (·.name))
    have hkeys := hprefix.ne_nil henter
    exact .inl ⟨rfl, Planner.supplies_of_resolvesAll hb hkeys howns⟩
  | base hop =>
    obtain ⟨-, -, -, ⟨entry, hentry, rfl⟩, howns, -⟩ := SchemaIndex.hop_bridged hop
    have hkeys := SchemaIndex.key_of_entryPoint? hb hentry
    exact .inl ⟨rfl, Planner.supplies_of_resolvesAll hb hkeys howns⟩
  | beyond hop mem parent same place earlier fill =>
    obtain ⟨-, rfl, hdeclares, -, -, howns⟩ := SchemaIndex.hop_bridged hop
    exact .inr ⟨_, mem, rfl, howns, hdeclares⟩

/-- The site supplies what is entered from it, and every entry what is entered over it. -/
theorem Enters.supplies (hb : b.index = .valid p.index) {next : Nat} {groups : List Group}
    {entries : List Entry} (h : Enters C p site [] next groups entries) (hlt : site.id < next) :
    (∀ c ∈ entries, c.parent = site.id → p.Supplies site.source c.fragment) ∧
      ∀ e ∈ entries, ∀ c ∈ entries, c.parent = e.id → p.Supplies e.fragment.source c.fragment := by
  have hmade := h.made (by simp [Site.Before])
  have hlater : ∀ e ∈ entries, site.id < e.id := by
    intro e he
    exact Nat.lt_of_lt_of_le hlt (hmade e he).1
  constructor
  · intro c hc hparent
    obtain ⟨-, g, -, hg⟩ := hmade c hc
    cases hg.supplies hb with
    | inl hsite => exact hsite.2
    | inr hbase =>
      -- bases are numbered after the site, so nothing over a base waits for the site
      obtain ⟨base, hmem, hid, -⟩ := hbase
      have hlt := hlater base (by simpa using hmem)
      omega
  · intro e he c hc hparent
    obtain ⟨-, g, -, hg⟩ := hmade c hc
    cases hg.supplies hb with
    | inl hsite =>
      have hlt := hlater e he
      have hid := hsite.1
      omega
    | inr hbase =>
      obtain ⟨base, hmem, hid, hsupplies⟩ := hbase
      have heq := h.numbered.eq_of_id (by simpa using hmem) he (hid.symm.trans hparent)
      exact heq ▸ hsupplies

end Supplies

/-! ### Completed fields -/

structure SelectionSet.Plain (s : SelectionSet) : Prop where
  visible : ∀ n ∈ s.allFields, n.isHidden = false
  leaf : ∀ n ∈ s.allFields, n.isTypename = true → n.children = []

namespace SelectionSet.Plain
variable {s t : SelectionSet}

theorem subset (h : Plain t) (hst : s ⊆ t) : Plain s := by
  have hall := allFields_subset hst
  exact ⟨fun n hn => h.visible n (hall hn), fun n hn => h.leaf n (hall hn)⟩

theorem children {n : SelectionNode} (h : Plain s) (hn : n ∈ s) : Plain n.children :=
  ⟨fun c hc => h.visible c (mem_allFields_of_child hn hc),
    fun c hc => h.leaf c (mem_allFields_of_child hn hc)⟩

end SelectionSet.Plain

def Planner.Served (p : Planner) : Completion := fun site next n m drafts =>
  site.id < next → SelectionSet.Plain [n] → m.head = n.head ∧ p.Serves site.source [m] ∧
    ∀ d ∈ drafts, p.Serves d.fragment.source d.fragment.selection

section Served
variable {b : Blueprint} {p : Planner} {site : Site} {next : Nat} {ns : List SelectionNode}
  {drafts : List Draft}

theorem CompletesAll.served {ms : List SelectionNode}
    (h : CompletesAll p.Served site next ns ms drafts) (hlt : site.id < next)
    (hplain : SelectionSet.Plain ns) :
    p.Serves site.source ms ∧ ∀ d ∈ drafts, p.Serves d.fragment.source d.fragment.selection := by
  induction h with
  | nil => exact ⟨.nil p site.source, by simp⟩
  | cons first _ ih =>
    obtain ⟨-, hm, hdrafts⟩ := first hlt (hplain.subset (by simp))
    obtain ⟨hms, hmore⟩ := ih (by omega) (hplain.subset (by simp))
    exact ⟨hm.append hms, List.forall_mem_append.2 ⟨hdrafts, hmore⟩⟩

theorem Routes.served {provided : List String} {kept : List SelectionNode}
    {leaving : List ((Source × String) × SelectionNode)}
    (h : Routes p.Served p site provided next ns kept leaving drafts) (hlt : site.id < next)
    (hplain : SelectionSet.Plain ns) :
    (∀ m ∈ kept, p.Resolves site.source provided m) ∧ p.Serves site.source kept ∧
      ∀ d ∈ drafts, p.Serves d.fragment.source d.fragment.selection := by
  induction h with
  | nil => exact ⟨by simp, .nil p site.source, by simp⟩
  | @typename _ n ns _ _ _ name _ ih =>
    obtain ⟨hresolves, hkept, hdrafts⟩ := ih hlt (hplain.subset (by simp))
    have hn : n ∈ SelectionSet.allFields (n :: ns) := SelectionSet.mem_allFields_of_mem (by simp)
    have hvisible := hplain.visible n hn
    have hself : p.Serves site.source [n] := .leaf (hplain.leaf n hn name) (by simp [hvisible])
    exact ⟨List.forall_mem_cons.2 ⟨.inl name, hresolves⟩, hself.append hkept, hdrafts⟩
  | @stays _ n m ns _ _ _ _ resolves first _ ih =>
    obtain ⟨hhead, hm, hdrafts⟩ := first hlt (hplain.subset (by simp))
    obtain ⟨hresolves, hkept, hmore⟩ := ih (by omega) (hplain.subset (by simp))
    have hvisible : m.isHidden = false := by
      rw [SelectionNode.isHidden_of_head hhead]
      exact hplain.visible n (SelectionSet.mem_allFields_of_mem (by simp))
    have hname : m.name = n.name :=
      SelectionNode.name_of_asked (SelectionNode.asked_of_head hhead)
    have htype : m.onType = n.onType :=
      SelectionNode.onType_of_asked (SelectionNode.asked_of_head hhead)
    have hself : p.Resolves site.source provided m := by
      rw [Planner.Resolves, hname, htype]
      cases resolves with
      | inl hprovided => exact .inr (.inr ⟨hvisible, hprovided⟩)
      | inr howner => exact .inr (.inl howner)
    exact ⟨List.forall_mem_cons.2 ⟨hself, hresolves⟩, hm.append hkept,
      List.forall_mem_append.2 ⟨hdrafts, hmore⟩⟩
  | leaves _ _ _ _ ih => exact ih hlt (hplain.subset (by simp))

theorem MadeFor.served {bases : List Entry} {g : Group} {e : Entry}
    (h : MadeFor p.Served p site bases g e) (hplain : SelectionSet.Plain g.2) :
    p.Serves e.fragment.source e.fragment.selection ∧
      ∀ d ∈ e.inner, p.Serves d.fragment.source d.fragment.selection := by
  cases h.filled with
  | inl hempty =>
    rw [hempty.1, hempty.2]
    exact ⟨.nil p _, by simp⟩
  | inr fill => exact fill.served (Nat.lt_succ_self _) hplain

theorem Splits.served (hb : b.index = .valid p.index) {n : SelectionNode} {place : List String}
    {kept : List SelectionNode}
    (h : Splits p.Served p { site with path := p.placeBelow site.path n } n.ofType
      (p.providedBelow site.source n) place n.children next kept drafts) :
    p.Served site next n { n with children := kept } drafts := by
  intro hlt hplain
  refine ⟨rfl, ?_⟩
  have hvisible : n.isHidden = false :=
    hplain.visible n (SelectionSet.mem_allFields_of_mem (by simp))
  have hchildren : SelectionSet.Plain n.children := hplain.children (by simp)
  cases h with
  | @mk kept leaving drafts groups entries routes grouped enters =>
    obtain ⟨hresolves, hkept, hdrafts⟩ := routes.served hlt hchildren
    obtain ⟨hsite, hentries⟩ := enters.supplies hb (Nat.lt_of_lt_of_le hlt (Nat.le_add_right _ _))
    obtain ⟨added, heq, hadded⟩ := p.carry_owned hsite place (some n.ofType) kept
    constructor
    · refine .node (by simp [hvisible]) ?_ (heq ▸ hkept.append_owned hadded)
      intro c hc
      cases List.mem_append.1 (heq ▸ hc) with
      | inl hc => exact hresolves c hc
      | inr hc => exact .inr (.inl (hadded c hc).2)
    · refine List.forall_mem_append.2 ⟨hdrafts, fun d hd => ?_⟩
      obtain ⟨e, he, hd⟩ := p.mem_drafts_carryEntry.1 hd
      obtain ⟨-, g, hg, hmade⟩ := enters.made (by simp [Site.Before]) e he
      have hsublist := routes.group_sublist (grouped.subset hg)
      obtain ⟨hself, hinner⟩ := hmade.served (hchildren.subset hsublist.subset)
      cases hd with
      | inl hfirst =>
        subst hfirst
        obtain ⟨more, hmore, howned⟩ :=
          p.carry_owned (hentries e he) place none e.fragment.selection
        show p.Serves e.fragment.source (p.carry place entries e.id none e.fragment.selection)
        rw [hmore]
        exact hself.append_owned howned
      | inr hd => exact hinner d hd

theorem Planner.complete_served (hb : b.index = .valid p.index) (n : SelectionNode) :
    p.Completes p.Served n := by
  refine complete_induction (fun site next n hleaf => ?_) (fun _ _ _ _ _ _ h => h.served hb) n
  intro _ hplain
  have hvisible := hplain.visible n (SelectionSet.mem_allFields_of_mem (by simp))
  exact ⟨rfl, .leaf hleaf (by simp [hvisible]), by simp⟩

theorem EntersRoots.served {serial : Bool} {rootType : String} {previous? : Option Nat}
    {groups : List (Source × List SelectionNode)}
    (h : EntersRoots p.Served serial rootType previous? next groups drafts)
    (hplain : ∀ g ∈ groups, SelectionSet.Plain g.2) :
    ∀ d ∈ drafts, p.Serves d.fragment.source d.fragment.selection := by
  induction h with
  | nil => simp
  | cons fill _ ih =>
    obtain ⟨hfields, hrest⟩ := List.forall_mem_cons.1 hplain
    obtain ⟨hself, hinner⟩ := fill.served (Nat.lt_succ_self _) hfields
    exact List.forall_mem_append.2 ⟨List.forall_mem_cons.2 ⟨hself, hinner⟩, ih hrest⟩

theorem Planner.decompose_served (hb : b.index = .valid p.index) {o : Operation} {d : Decomposition}
    (hplain : SelectionSet.Plain o.selection) (h : p.decompose o = .ok d) :
    ∀ f ∈ d.fragments, p.Serves f.source f.selection := by
  intro f hf
  cases decomposes_of_ok (complete_served hb) h with
  | @mk roots drafts fields _ enters =>
    have hgroups : ∀ g ∈ rootGroups o roots, SelectionSet.Plain g.2 := by
      intro g hg
      exact hplain.subset (sublist_of_mem_rootGroups fields hg).subset
    obtain ⟨draft, hdraft, rfl⟩ := List.mem_map.1 hf
    exact enters.served hgroups draft hdraft

end Served

/-! ### Fragments -/

namespace Decomposition

def Waits (d : Decomposition) (child parent : Nat) : Prop :=
  ∃ dep ∈ d.dependencies, dep.child = child ∧ dep.parent = parent

def EntersFrom (d : Decomposition) (child origin : Nat) : Prop :=
  d.Waits child origin ∨ ∃ base fragment entered, d.fragments[base]? = some fragment ∧
    d.fragments[child]? = some entered ∧ fragment.onType = entered.onType ∧
    fragment.providedPath = entered.providedPath ∧ d.Waits child base ∧ d.Waits base origin

theorem waits_ofDrafts {drafts : List Draft} {d : Draft} {id parent : Nat}
    (h : (d, id) ∈ drafts.zipIdx) (hparent : parent ∈ d.parents) :
    (ofDrafts drafts).Waits id parent := by
  have hdep : ⟨parent, id, d.fragment.requiredKeys⟩ ∈ (ofDrafts drafts).dependencies :=
    mem_dependencies_ofDrafts.2 ⟨d, h, hparent, rfl⟩
  exact ⟨_, hdep, rfl, rfl⟩

end Decomposition

namespace Planner
variable {p : Planner} {b : Blueprint} {o : Operation}

theorem RootOf.preferred {groups : List (Source × List SelectionNode)} {e : Draft × Nat}
    (h : RootOf groups e)
    (howned : ∀ g ∈ groups, ∀ n ∈ g.2, ∃ others,
      p.index.ownersOf n.onType n.name = g.1 :: others) :
    ∀ n ∈ e.1.fragment.selection, ∃ others,
      p.index.ownersOf n.onType n.name = e.1.fragment.source :: others := by
  intro n hn
  obtain ⟨fields, hfields, hheads⟩ := h.fields
  have hhead : n.head ∈ fields.map SelectionNode.head := hheads ▸ List.mem_map_of_mem hn
  obtain ⟨m, hm, hsame⟩ := List.mem_map.1 hhead
  have hasked := SelectionNode.asked_of_head hsame
  rw [← SelectionNode.name_of_asked hasked, ← SelectionNode.onType_of_asked hasked]
  exact howned _ hfields m hm

theorem EnteredBelow.keys_ne_nil (hb : b.index = .valid p.index) {distinct : Prop}
    {numbered : List (Draft × Nat)} {holder : Holder} {way : List SelectionNode}
    {last field : SelectionNode} {e : Draft × Nat}
    (h : p.EnteredBelow distinct numbered holder way last field e) :
    e.1.fragment.requiredKeys ≠ [] := by
  refine h.formed.keyed.ne_nil ?_
  cases h.formed.enterable with
  | inl hkey => exact hkey
  | inr hpoint =>
    obtain ⟨point, hpoint⟩ := Option.isSome_iff_exists.1 hpoint
    rw [SchemaIndex.keyFor, hpoint]
    exact SchemaIndex.key_of_entryPoint? hb hpoint

theorem Entered.entersFrom {drafts : List Draft} {holder : Site} {last : SelectionNode}
    {e : Draft × Nat} (he : e ∈ drafts.zipIdx) (h : p.Receives drafts.zipIdx holder last e.1) :
    (Decomposition.ofDrafts drafts).EntersFrom e.2 holder.id := by
  cases h with
  | direct parents owns held =>
    exact .inl (Decomposition.waits_ofDrafts he (by simp [parents]))
  | @beyond base id mem parents before place same owns held =>
    exact .inr ⟨id, _, _, Decomposition.fragment?_ofDrafts mem, Decomposition.fragment?_ofDrafts he,
      same, place, Decomposition.waits_ofDrafts he (by simp [parents]),
      Decomposition.waits_ofDrafts mem (by simp [before])⟩

end Planner

/-- The preferred owners of the root fields get them. Inside a fragment stands only what its source
resolves. What was entered consists of fields that their parent's source neither owns nor is
provided with, for the preferred owner. Hidden fields stand with an owner. -/
theorem decompose_routes {b : Blueprint} {p : Planner} {o : Operation} {d : Decomposition}
    (hb : b.index = .valid p.index)
    (visible : ∀ n ∈ SelectionSet.allFields o.selection, n.isHidden = false)
    (leaf : ∀ n ∈ SelectionSet.allFields o.selection, n.isTypename = true → n.children = [])
    (h : p.decompose o = .ok d) {id : Nat} {f : FetchFragment} (hf : d.fragments[id]? = some f) :
    (f.isRoot = true → ∀ n ∈ f.selection,
      ∃ others, p.index.ownersOf n.onType n.name = f.source :: others) ∧
    (∀ q ∈ SelectionSet.allFields f.selection, ∀ n ∈ q.children,
      p.Resolves f.source (p.providedBelow f.source q) n) ∧
    (f.isRoot = false → ∃ origin holder parent field,
      d.EntersFrom id origin ∧ d.fragments[origin]? = some holder ∧
      (f.providedPath.keys, parent) ∈
        SelectionSet.located holder.providedPath.keys holder.selection ∧
      (f.providedPath.keys, field) ∈ SelectionSet.located [] o.selection ∧
      parent.head = field.head ∧
      ∀ n ∈ f.selection, n.isHidden = false → (∃ c ∈ field.children, n.asked = c.asked) ∧
        (∃ others, p.index.ownersOf n.onType n.name = f.source :: others) ∧
        holder.source ≠ f.source ∧ holder.source ∉ p.index.ownersOf n.onType n.name ∧
        n.name ∉ p.providedBelow holder.source parent) ∧
    (∀ n ∈ SelectionSet.allFields f.selection, n.isHidden = true →
      f.source ∈ p.index.ownersOf n.onType n.name) := by
  have hserves := Planner.decompose_served hb ⟨visible, leaf⟩ h f (List.mem_of_getElem? hf)
  obtain ⟨drafts, rfl, groups, howned, htraced⟩ := Planner.decompose_traced h
  obtain ⟨c, hc, rfl⟩ : ∃ c, drafts[id]? = some c ∧ c.fragment = f := by
    simpa [Decomposition.ofDrafts] using hf
  have hmem : (c, id) ∈ drafts.zipIdx := List.mem_zipIdx_iff_getElem?.2 hc
  refine ⟨fun hroot n hn => ?_, hserves.below, fun hroot => ?_, hserves.hidden⟩
  · cases htraced _ hmem with
    | inl root => exact root.preferred howned n hn
    | inr hentered =>
      -- what was entered receives keys, and a root fragment none
      obtain ⟨_, -, _, _, _, -, hentered⟩ := hentered
      exact absurd (List.isEmpty_iff.1 hroot) (hentered.keys_ne_nil hb)
  · cases htraced _ hmem with
    | inl root =>
      have hempty : c.fragment.isRoot = true := List.isEmpty_iff.2 root.keys
      rw [hempty] at hroot
      cases hroot
    | inr hentered =>
      obtain ⟨holder, hholder, way, last, field, hfield, hentered⟩ := hentered
      obtain ⟨k, hk, hsource, hpath, hselection⟩ := Planner.mem_map_holder hholder
      refine ⟨holder.1.id, k.fragment, last, field,
        Planner.Entered.entersFrom hmem hentered.receives, Decomposition.fragment?_ofDrafts hk, ?_,
        hfield, hentered.copy, fun n hn hvisible => ?_⟩
      · have hlocated := SelectionSet.Descends.mem_located holder.1.path.keys hentered.descends
        rw [hpath, hselection, ← hentered.path, p.keys_foldl_placeBelow]
        exact hlocated
      · obtain ⟨hchild, hdeparts⟩ := hentered.formed.departs n hn hvisible
        rw [hsource]
        exact ⟨hchild, hdeparts.owned, hdeparts.ne, hdeparts.foreign, hdeparts.lacks⟩

theorem shop_index : shopSchema.index = .valid shop.index :=
  Validated.eq_valid_of_isValid (by decide +kernel) ⟨"", none, none, .empty⟩

theorem decompose_routes_shop : shopFragments.fragments.length = 4 ∧
    ∀ (id : Nat) f, shopFragments.fragments[id]? = some f →
      (∀ q ∈ SelectionSet.allFields f.selection, ∀ n ∈ q.children,
        shop.Resolves f.source (shop.providedBelow f.source q) n) ∧
      ∀ n ∈ SelectionSet.allFields f.selection, n.isHidden = true →
        f.source ∈ shop.index.ownersOf n.onType n.name := by
  refine ⟨by decide +kernel, fun id f hf => ?_⟩
  have hroutes := decompose_routes shop_index (by decide +kernel) (by decide +kernel)
    shop_decompose hf
  exact ⟨hroutes.2.1, hroutes.2.2.2⟩

end FederatedQuery
