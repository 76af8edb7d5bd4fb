import FederatedQuery.Proofs.Decomposition.Completeness
import FederatedQuery.Proofs.Selection.Everywhere

/-!
What a fragment holds. It keeps fields of one selection of the operation, each with what it keeps of
its sub-selection; behind them, at whatever depth, stand hidden fields for the keys of other
fragments.
-/
namespace FederatedQuery
namespace Planner

def Owes (p : Planner) (fragments : List FetchFragment) (type key : String) : Prop :=
  ∃ f ∈ fragments, f.onType = type ∧ key ∈ p.carried f.requiredKeys

theorem owes_mono {p : Planner} {drafts more : List Draft} (h : drafts ⊆ more) :
    ∀ type key, p.Owes (drafts.map (·.fragment)) type key →
      p.Owes (more.map (·.fragment)) type key := by
  intro type key howes
  obtain ⟨f, hf, hkey⟩ := howes
  exact ⟨f, List.map_subset _ h hf, hkey⟩

inductive Adds (p : Planner) (owed : String → String → Prop) (s : SelectionSet) :
    SelectionSet → Prop
  | refl : Adds p owed s s
  | key {t : SelectionSet} {type key : String} (place : List String) (before : Adds p owed s t)
      (due : owed type key) (lacks : t.holdsKey type type key = false) :
      Adds p owed s (t ++ [p.keyNode place type key])

/-- What a source keeps of a selection below a field that provides some names. A type name is kept
as it is; any other field that is kept is one that the source resolves there. -/
inductive Keeps (p : Planner) (owed : String → String → Prop) (source : Source) :
    (provided : List String) → SelectionSet → SelectionSet → Prop
  | nil (provided : List String) : Keeps p owed source provided [] []
  | skip {provided : List String} {n : SelectionNode} {s t : SelectionSet}
      (rest : Keeps p owed source provided s t) : Keeps p owed source provided (n :: s) t
  | typename {provided : List String} {n : SelectionNode} {s t : SelectionSet}
      (name : n.isTypename = true) (rest : Keeps p owed source provided s t) :
      Keeps p owed source provided (n :: s) (n :: t)
  | field {provided : List String} {n : SelectionNode} {s t kept children : SelectionSet}
      (resolves : n.name ∈ provided ∨ source ∈ p.index.ownersOf n.onType n.name)
      (below : Keeps p owed source (p.providedBelow source n) n.children kept)
      (adds : p.Adds owed kept children) (rest : Keeps p owed source provided s t) :
      Keeps p owed source provided (n :: s) ({ n with children } :: t)

structure FilledWith (p : Planner) (owed : String → String → Prop) (fields : SelectionSet)
    (f : FetchFragment) : Prop where
  preferred : ∀ n ∈ fields, ∃ others, p.index.ownersOf n.onType n.name = f.source :: others
  content : ∃ nodes, p.Keeps owed f.source [] fields nodes ∧ p.Adds owed nodes f.selection

def FilledBelow (p : Planner) (owed : String → String → Prop) (above : List String)
    (s : SelectionSet) (f : FetchFragment) : Prop :=
  ∃ q fields, (f.providedPath.keys, q) ∈ SelectionSet.located above s ∧
    List.Sublist fields q.children ∧
    (∀ n ∈ fields, n.onType = f.onType ∧
      p.index.requiresOf n.onType n.name f.source ⊆ f.requiredKeys) ∧ p.FilledWith owed fields f

/-! ### Laws -/

section Laws
variable {p : Planner} {owed more : String → String → Prop} {source : Source}
  {provided : List String} {s t u : SelectionSet}

theorem Adds.mono (h : p.Adds owed s t) (hmore : ∀ type key, owed type key → more type key) :
    p.Adds more s t := by
  induction h with
  | refl => exact .refl
  | key place _ due lacks ih => exact .key place ih (hmore _ _ due) lacks

theorem Adds.trans (h : p.Adds owed s t) (h' : p.Adds owed t u) : p.Adds owed s u := by
  induction h' with
  | refl => exact h
  | key place _ due lacks ih => exact .key place ih due lacks

theorem Adds.eq_append (h : p.Adds owed s t) : ∃ added : SelectionSet, t = s ++ added ∧
    ∀ n ∈ added, ∃ place type key, owed type key ∧ n = p.keyNode place type key := by
  induction h with
  | refl => exact ⟨[], by simp, by simp⟩
  | @key _ type key place _ due _ ih =>
    obtain ⟨added, rfl, hadded⟩ := ih
    refine ⟨added ++ [p.keyNode place type key], by simp, ?_⟩
    exact List.forall_mem_append.2 ⟨hadded, by simpa using ⟨place, type, key, due, rfl⟩⟩

theorem Adds.forall_mem {R : SelectionNode → Prop} (h : p.Adds owed s t) (hs : ∀ n ∈ s, R n)
    (hkey : ∀ place type key, owed type key → R (p.keyNode place type key)) : ∀ n ∈ t, R n := by
  obtain ⟨added, rfl, hadded⟩ := h.eq_append
  refine List.forall_mem_append.2 ⟨hs, fun n hn => ?_⟩
  obtain ⟨place, type, key, due, rfl⟩ := hadded n hn
  exact hkey place type key due

theorem Adds.mem_of_visible (h : p.Adds owed s t) {n : SelectionNode} (hn : n ∈ t)
    (hvisible : n.isHidden = false) : n ∈ s := by
  obtain ⟨added, rfl, hadded⟩ := h.eq_append
  cases List.mem_append.1 hn with
  | inl hn => exact hn
  | inr hn =>
    obtain ⟨place, type, key, -, rfl⟩ := hadded n hn
    exact nomatch hvisible

theorem Adds.everywhere_below {Q : SelectionSet → Prop} (h : p.Adds owed s t) (hnil : Q [])
    (hs : SelectionSet.Below Q s) : SelectionSet.Below Q t := by
  obtain ⟨added, rfl, hadded⟩ := h.eq_append
  refine SelectionSet.below_append.2 ⟨hs, .of_leaves hnil fun n hn => ?_⟩
  obtain ⟨place, type, key, -, rfl⟩ := hadded n hn
  rfl

theorem Keeps.mono (h : p.Keeps owed source provided s t)
    (hmore : ∀ type key, owed type key → more type key) : p.Keeps more source provided s t := by
  induction h with
  | nil => exact .nil _
  | skip _ ih => exact .skip ih
  | typename name _ ih => exact .typename name ih
  | field resolves _ adds _ below rest => exact .field resolves below (adds.mono hmore) rest

/-- What is kept are copies, in their order. -/
theorem Keeps.heads (h : p.Keeps owed source provided s t) :
    (t.map SelectionNode.head).Sublist (s.map SelectionNode.head) := by
  induction h with
  | nil => exact .slnil
  | skip _ ih => exact ih.cons _
  | typename _ _ ih => exact ih.cons_cons _
  | field _ _ _ _ _ rest => exact rest.cons_cons _

theorem Keeps.copy (h : p.Keeps owed source provided s t) {n : SelectionNode} (hn : n ∈ t) :
    ∃ c ∈ s, n.asked = c.asked := by
  obtain ⟨c, hc, hhead⟩ := List.mem_map.1 (h.heads.subset (List.mem_map_of_mem hn))
  exact ⟨c, hc, (SelectionNode.asked_of_head hhead).symm⟩

variable {above above' : List String} {fields : SelectionSet} {f : FetchFragment}

theorem FilledWith.mono (h : p.FilledWith owed fields f)
    (hmore : ∀ type key, owed type key → more type key) : p.FilledWith more fields f := by
  obtain ⟨preferred, nodes, hkeeps, hadds⟩ := h
  exact ⟨preferred, nodes, hkeeps.mono hmore, hadds.mono hmore⟩

/-- The visible fields of a fragment are copies of those that it is filled with. -/
theorem FilledWith.copy (h : p.FilledWith owed fields f) {n : SelectionNode}
    (hn : n ∈ f.selection) (hvisible : n.isHidden = false) : ∃ c ∈ fields, n.asked = c.asked := by
  obtain ⟨-, nodes, hkeeps, hadds⟩ := h
  exact hkeeps.copy (hadds.mem_of_visible hn hvisible)

theorem FilledBelow.lift (h : p.FilledBelow owed above s f)
    (hlocated : SelectionSet.located above s ⊆ SelectionSet.located above' t)
    (hmore : ∀ type key, owed type key → more type key) : p.FilledBelow more above' t f := by
  obtain ⟨q, fields, hq, hsublist, hfields, hfilled⟩ := h
  exact ⟨q, fields, hlocated hq, hsublist, hfields, hfilled.mono hmore⟩

theorem Adds.foldl {α : Type} {add : SelectionSet → α → SelectionSet} {items : List α}
    (h : ∀ a ∈ items, ∀ s, p.Adds owed s (add s a)) (s : SelectionSet) :
    p.Adds owed s (items.foldl add s) := by
  induction items generalizing s with
  | nil => exact .refl
  | cons a items ih =>
    obtain ⟨ha, hitems⟩ := List.forall_mem_cons.1 h
    exact (ha s).trans (ih hitems (add s a))

theorem holdsKey_of_type {type enclosing key : String} (h : s.holdsKey type type key = true) :
    s.holdsKey type enclosing key = true := by
  obtain ⟨n, hn, hname, halias, htype⟩ := SelectionSet.holdsKey_iff.1 h
  exact SelectionSet.holdsKey_iff.2 ⟨n, hn, hname, halias, .inl (htype.elim id id)⟩

theorem injectKeys_adds {type : String} {keys : List String} (place : List String)
    (enclosing : String) (s : SelectionSet) (hdue : ∀ k ∈ p.carried keys, owed type k) :
    p.Adds owed s (p.injectKeys place type enclosing keys s) := by
  refine Adds.foldl (fun k hk s => ?_) s
  by_cases hheld : s.holdsKey type enclosing k = true
  · rw [if_pos hheld]
    exact .refl
  · rw [if_neg hheld]
    have hlacks : s.holdsKey type type k = false :=
      Bool.eq_false_iff.2 fun h => hheld (holdsKey_of_type h)
    exact .key place .refl (hdue k hk) hlacks

theorem carry_adds {entries : List Entry} {id : Nat} (place : List String)
    (enclosing? : Option String) (s : SelectionSet)
    (hdue : ∀ e ∈ entries, ∀ k ∈ p.carried e.fragment.requiredKeys, owed e.fragment.onType k) :
    p.Adds owed s (p.carry place entries id enclosing? s) := by
  refine Adds.foldl (fun e he s => ?_) s
  have he : e ∈ entries := (List.mem_filter.1 he).1
  exact injectKeys_adds place _ s (hdue e he)

/-- The keys that an entry receives are owed once it is among the drafts. -/
theorem owes_entered (place : List String) (drafts : List Draft) {entries : List Entry} {e : Entry}
    (he : e ∈ entries) {k : String} (hk : k ∈ p.carried e.fragment.requiredKeys) :
    p.Owes ((drafts ++ (entries.map (p.carryEntry place entries)).flatMap Entry.drafts).map
      (·.fragment)) e.fragment.onType k := by
  have hself : (⟨(p.carryEntry place entries e).fragment, [e.parent]⟩ : Draft) ∈
      (entries.map (p.carryEntry place entries)).flatMap Entry.drafts :=
    p.mem_drafts_carryEntry.2 ⟨e, he, .inl rfl⟩
  exact ⟨_, List.mem_map_of_mem (List.mem_append_right drafts hself), rfl, hk⟩

end Laws

def Fills (p : Planner) : Completion := fun site _ n m drafts =>
  (∃ kept children, p.Keeps (p.Owes (drafts.map (·.fragment))) site.source
      (p.providedBelow site.source n) n.children kept ∧
    p.Adds (p.Owes (drafts.map (·.fragment))) kept children ∧ m = { n with children }) ∧
  ∀ d ∈ drafts, p.FilledBelow (p.Owes (drafts.map (·.fragment))) site.path.keys [n] d.fragment

end Planner

section Fills
variable {p : Planner} {site : Site} {next : Nat} {ns : List SelectionNode} {drafts : List Draft}

/-- The preferred owner of fields owns them. -/
theorem SchemaIndex.owns_of_preferred {x : SchemaIndex} {source : Source}
    (h : ∀ n ∈ ns, ∃ others, x.ownersOf n.onType n.name = source :: others) :
    ∀ n ∈ ns, source ∈ x.ownersOf n.onType n.name := by
  intro n hn
  obtain ⟨others, howned⟩ := h n hn
  rw [howned]
  exact List.mem_cons_self

/-- A completed field in front of others that are kept. -/
theorem Planner.Fills.cons {provided : List String} {n m : SelectionNode} {kept : SelectionSet}
    {more : List Draft} (first : p.Fills site next n m drafts)
    (hresolves : n.name ∈ provided ∨ site.source ∈ p.index.ownersOf n.onType n.name)
    (hkeeps : p.Keeps (p.Owes (more.map (·.fragment))) site.source provided ns kept)
    (hmore : ∀ d ∈ more, p.FilledBelow (p.Owes (more.map (·.fragment))) site.path.keys ns
      d.fragment) :
    p.Keeps (p.Owes ((drafts ++ more).map (·.fragment))) site.source provided (n :: ns)
        (m :: kept) ∧
      ∀ d ∈ drafts ++ more, p.FilledBelow (p.Owes ((drafts ++ more).map (·.fragment)))
        site.path.keys (n :: ns) d.fragment := by
  obtain ⟨⟨below, children, hbelow, hadds, rfl⟩, hdrafts⟩ := first
  have hleft := Planner.owes_mono (p := p) (List.subset_append_left drafts more)
  have hright := Planner.owes_mono (p := p) (List.subset_append_right drafts more)
  constructor
  · exact .field hresolves (hbelow.mono hleft) (hadds.mono hleft) (hkeeps.mono hright)
  · refine List.forall_mem_append.2 ⟨fun d hd => ?_, fun d hd => ?_⟩
    · exact (hdrafts d hd).lift (SelectionSet.located_subset _ (by simp)) hleft
    · exact (hmore d hd).lift (SelectionSet.located_subset _ (by simp)) hright

theorem CompletesAll.fills {ms : List SelectionNode}
    (h : CompletesAll p.Fills site next ns ms drafts)
    (hresolves : ∀ n ∈ ns, site.source ∈ p.index.ownersOf n.onType n.name) :
    p.Keeps (p.Owes (drafts.map (·.fragment))) site.source [] ns ms ∧
      ∀ d ∈ drafts, p.FilledBelow (p.Owes (drafts.map (·.fragment))) site.path.keys ns
        d.fragment := by
  induction h with
  | nil => exact ⟨.nil _, by simp⟩
  | cons first _ ih =>
    obtain ⟨hn, hns⟩ := List.forall_mem_cons.1 hresolves
    obtain ⟨hkeeps, hmore⟩ := ih hns
    exact first.cons (.inr hn) hkeeps hmore

theorem Routes.fills {provided : List String} {kept : List SelectionNode}
    {leaving : List ((Source × String) × SelectionNode)}
    (h : Routes p.Fills p site provided next ns kept leaving drafts) :
    p.Keeps (p.Owes (drafts.map (·.fragment))) site.source provided ns kept ∧
      ∀ d ∈ drafts, p.FilledBelow (p.Owes (drafts.map (·.fragment))) site.path.keys ns
        d.fragment := by
  induction h with
  | nil => exact ⟨.nil _, by simp⟩
  | typename name _ ih =>
    obtain ⟨hkeeps, hdrafts⟩ := ih
    refine ⟨.typename name hkeeps, fun d hd => ?_⟩
    exact (hdrafts d hd).lift (SelectionSet.located_subset _ (by simp)) fun _ _ howes => howes
  | stays resolves first _ ih =>
    obtain ⟨hkeeps, hmore⟩ := ih
    exact first.cons resolves hkeeps hmore
  | leaves _ _ _ _ ih =>
    obtain ⟨hkeeps, hdrafts⟩ := ih
    refine ⟨.skip hkeeps, fun d hd => ?_⟩
    exact (hdrafts d hd).lift (SelectionSet.located_subset _ (by simp)) fun _ _ howes => howes

/-- An entry is filled with its group, or with nothing if it only is a base. -/
theorem MadeFor.fills {bases : List Entry} {g : Group} {e : Entry} {provided : List String}
    (h : MadeFor p.Fills p site bases g e)
    (hdeparts : ∀ n ∈ g.2, n.onType = g.1.2 ∧ p.Departs site.source g.1.1 provided n) :
    ∃ fields : SelectionSet, fields.Sublist g.2 ∧
      (∀ n ∈ fields, n.onType = e.fragment.onType ∧
        p.index.requiresOf n.onType n.name e.fragment.source ⊆ e.fragment.requiredKeys) ∧
      p.FilledWith (p.Owes (e.inner.map (·.fragment))) fields e.fragment ∧
      ∀ d ∈ e.inner, p.FilledBelow (p.Owes (e.inner.map (·.fragment))) site.path.keys g.2
        d.fragment := by
  have hpreferred : ∀ n ∈ g.2, ∃ others, p.index.ownersOf n.onType n.name = g.1.1 :: others :=
    fun n hn => (hdeparts n hn).2.owned
  have hresolves := SchemaIndex.owns_of_preferred hpreferred
  have hrequires : ∀ n ∈ g.2, n.onType = g.1.2 ∧ p.index.requiresOf n.onType n.name g.1.1 ⊆
      p.index.forwardedKeys g.1.2 g.1.1 (g.2.map (·.name)) := by
    intro n hn
    have htype := (hdeparts n hn).1
    refine ⟨htype, ?_⟩
    rw [htype]
    exact SchemaIndex.requiresOf_subset_forwardedKeys (List.mem_map_of_mem hn)
  cases h with
  | direct hop fill =>
    obtain ⟨-, rfl, -⟩ := SchemaIndex.hop_direct hop
    obtain ⟨hkeeps, hinner⟩ := fill.fills hresolves
    exact ⟨g.2, .refl _, hrequires, ⟨hpreferred, _, hkeeps, .refl⟩, hinner⟩
  | @base id source baseKeys keys hop =>
    have hnone : p.Keeps (p.Owes []) source [] [] [] := .nil []
    exact ⟨[], List.nil_sublist _, by simp, ⟨by simp, [], hnone, .refl⟩, fun d hd => nomatch hd⟩
  | beyond hop mem parent same place earlier fill =>
    obtain ⟨-, rfl, -⟩ := SchemaIndex.hop_bridged hop
    obtain ⟨hkeeps, hinner⟩ := fill.fills hresolves
    exact ⟨g.2, .refl _, hrequires, ⟨hpreferred, _, hkeeps, .refl⟩, hinner⟩

theorem Splits.fills {n : SelectionNode} {place : List String} {kept : List SelectionNode}
    (h : Splits p.Fills p { site with path := p.placeBelow site.path n } n.ofType
      (p.providedBelow site.source n) place n.children next kept drafts) :
    p.Fills site next n { n with children := kept } drafts := by
  cases h with
  | @mk kept leaving drafts groups entries routes grouped enters =>
    obtain ⟨hkeeps, hdrafts⟩ := routes.fills
    have hmade := enters.made (by simp [Site.Before])
    set all := drafts ++ (entries.map (p.carryEntry place entries)).flatMap Entry.drafts
    have hleft := Planner.owes_mono (p := p) (show drafts ⊆ all by simp [all])
    have hdue : ∀ e ∈ entries, ∀ k ∈ p.carried e.fragment.requiredKeys,
        p.Owes (all.map (·.fragment)) e.fragment.onType k :=
      fun _ he _ hk => Planner.owes_entered place drafts he hk
    have hup : SelectionSet.located (p.placeBelow site.path n).keys n.children ⊆
        SelectionSet.located site.path.keys [n] := by
      intro e he
      rw [p.keys_placeBelow] at he
      exact SelectionSet.mem_located_of_child he
    refine ⟨⟨kept, _, hkeeps.mono hleft, Planner.carry_adds place _ kept hdue, rfl⟩, ?_⟩
    refine List.forall_mem_append.2 ⟨fun d hd => (hdrafts d hd).lift hup hleft, fun d hd => ?_⟩
    obtain ⟨e, he, hd⟩ := p.mem_drafts_carryEntry.1 hd
    obtain ⟨-, g, hg, hmade⟩ := hmade e he
    have hgroup := grouped.subset hg
    have hsublist := routes.group_sublist hgroup
    have hinner := Planner.owes_mono (p := p) (show e.inner ⊆ all from fun d hd =>
      List.mem_append_right _ (p.mem_drafts_carryEntry.2 ⟨e, he, .inr hd⟩))
    obtain ⟨fields, hfields, hrequires, hfilled, hbelow⟩ :=
      hmade.fills (routes.group_departs hgroup)
    cases hd with
    | inl hself =>
      subst hself
      have hpath : e.fragment.providedPath = p.placeBelow site.path n := hmade.path
      obtain ⟨preferred, nodes, hnodes, hadded⟩ := hfilled.mono hinner
      refine ⟨n, fields, ?_, hfields.trans hsublist, hrequires, preferred, nodes, hnodes, ?_⟩
      · show (e.fragment.providedPath.keys, n) ∈ _
        rw [hpath, p.keys_placeBelow]
        exact SelectionSet.mem_located_of_mem List.mem_cons_self
          (by simp [SelectionSet.located_cons])
      · exact hadded.trans (Planner.carry_adds place none _ hdue)
    | inr hd =>
      exact (hbelow d hd).lift
        (List.Subset.trans (SelectionSet.located_subset _ hsublist.subset) hup) hinner

theorem Planner.complete_fills (p : Planner) (n : SelectionNode) : p.Completes p.Fills n := by
  refine complete_induction (fun site next n hleaf => ?_) (fun _ _ _ _ _ _ h => h.fills) n
  refine ⟨⟨[], [], ?_, .refl, ?_⟩, by simp⟩
  · rw [hleaf]
    exact .nil _
  · rw [← hleaf]
    cases n
    rfl

theorem EntersRoots.fills {serial : Bool} {rootType : String} {previous? : Option Nat}
    {groups : List (Source × List SelectionNode)}
    (h : EntersRoots p.Fills serial rootType previous? next groups drafts)
    (hgroups : ∀ g ∈ groups, g.2.Sublist ns ∧
      ∀ n ∈ g.2, ∃ others, p.index.ownersOf n.onType n.name = g.1 :: others) :
    ∀ d ∈ drafts, (d.fragment.requiredKeys = [] ∧ ∃ fields : SelectionSet, fields.Sublist ns ∧
        p.FilledWith (p.Owes (drafts.map (·.fragment))) fields d.fragment) ∨
      p.FilledBelow (p.Owes (drafts.map (·.fragment))) [] ns d.fragment := by
  induction h with
  | nil => simp
  | @cons previous? next source fields nodes inner more groups fill _ ih =>
    obtain ⟨⟨hsublist, hpreferred⟩, hgroups⟩ := List.forall_mem_cons.1 hgroups
    obtain ⟨hkeeps, hinner⟩ := fill.fills (SchemaIndex.owns_of_preferred hpreferred)
    set root : Draft := ⟨⟨source, rootType, nodes, [], .root⟩, rootParents serial previous? next⟩
    have hleft := Planner.owes_mono (p := p) (show inner ⊆ root :: inner ++ more by simp)
    have hright := Planner.owes_mono (p := p) (show more ⊆ root :: inner ++ more by simp)
    refine List.forall_mem_append.2 ⟨List.forall_mem_cons.2 ⟨?_, fun d hd => ?_⟩, fun d hd => ?_⟩
    · exact .inl ⟨rfl, fields, hsublist, hpreferred, nodes, hkeeps.mono hleft, .refl⟩
    · exact .inr ((hinner d hd).lift (SelectionSet.located_subset _ hsublist.subset) hleft)
    · cases ih hgroups d hd with
      | inl hroot =>
        obtain ⟨hkeys, fields, hfields, hfilled⟩ := hroot
        exact .inl ⟨hkeys, fields, hfields, hfilled.mono hright⟩
      | inr hbelow => exact .inr (hbelow.lift (List.Subset.refl _) hright)

/-- Every fragment of an operation is a root fragment, filled with root fields, or it is filled with
fields that stand below another. -/
theorem Planner.decompose_fills {o : Operation} {d : Decomposition} (h : p.decompose o = .ok d) :
    ∀ f ∈ d.fragments, (f.requiredKeys = [] ∧ ∃ fields : SelectionSet,
        fields.Sublist o.selection ∧ p.FilledWith (p.Owes d.fragments) fields f) ∨
      p.FilledBelow (p.Owes d.fragments) [] o.selection f := by
  cases decomposes_of_ok p.complete_fills h with
  | @mk roots drafts fields owned enters =>
    have hgroups : ∀ g ∈ rootGroups o roots, g.2.Sublist o.selection ∧
        ∀ n ∈ g.2, ∃ others, p.index.ownersOf n.onType n.name = g.1 :: others := by
      intro g hg
      refine ⟨sublist_of_mem_rootGroups fields hg, fun n hn => ?_⟩
      have hmem : (g.1, n) ∈ ungroup (rootGroups o roots) := mem_ungroup.2 ⟨g, hg, rfl, hn⟩
      exact owned _ ((ungroup_rootGroups_perm o roots).subset hmem)
    intro f hf
    obtain ⟨d, hd, rfl⟩ := List.mem_map.1 hf
    exact enters.fills hgroups d hd

theorem Planner.decompose_fills_entered {o : Operation} {d : Decomposition}
    (h : p.decompose o = .ok d) {f : FetchFragment} (hf : f ∈ d.fragments)
    (hentered : f.isRoot = false) : p.FilledBelow (p.Owes d.fragments) [] o.selection f := by
  cases decompose_fills h f hf with
  | inl hroot =>
    have hempty : f.isRoot = true := List.isEmpty_iff.2 hroot.1
    rw [hempty] at hentered
    exact nomatch hentered
  | inr hbelow => exact hbelow

end Fills
end FederatedQuery
