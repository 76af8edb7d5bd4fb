import FederatedQuery.Proofs.Decomposition.Success
import FederatedQuery.Proofs.Outcome
import FederatedQuery.Proofs.Selection.TypeNames

/-!
What the configuration changes in a decomposition. Of two runs over one index, one may carry type
names that the other does not. No step looks at them, so the runs fail with the same error or make
the same fragments up to those names.
-/
namespace FederatedQuery

/-! ### Two runs -/

inductive SameOutcome {ε α β : Type} (R : α → β → Prop) : Except ε α → Except ε β → Prop
  | ok {a : α} {b : β} (values : R a b) : SameOutcome R (.ok a) (.ok b)
  | error (e : ε) : SameOutcome R (.error e) (.error e)

namespace SameOutcome
variable {ε α β α' β' : Type} {R : α → β → Prop} {S : α' → β' → Prop} {r : Except ε α}
  {r' : Except ε β}

/-- Errors are related if they are the same. -/
theorem iff_bothOrNeither : SameOutcome R r r' ↔ BothOrNeither (· = ·) R r r' := by
  constructor
  · intro h
    cases h with
    | ok values => exact .ok values
    | error e => exact .error rfl
  · intro h
    cases h with
    | ok values => exact .ok values
    | error errors => exact errors ▸ .error _

theorem bind {f : α → Except ε α'} {g : β → Except ε β'} (h : SameOutcome R r r')
    (hf : ∀ a b, R a b → SameOutcome S (f a) (g b)) : SameOutcome S (r >>= f) (r' >>= g) :=
  iff_bothOrNeither.2 ((iff_bothOrNeither.1 h).bind fun a b hab =>
    iff_bothOrNeither.1 (hf a b hab))

theorem mapM {f : α → Except ε α'} {g : β → Except ε β'} {as : List α} {bs : List β}
    (h : List.Forall₂ R as bs) (hf : ∀ a b, R a b → SameOutcome S (f a) (g b)) :
    SameOutcome (List.Forall₂ S) (as.mapM f) (bs.mapM g) :=
  iff_bothOrNeither.2 (.mapM h fun a b hab => iff_bothOrNeither.1 (hf a b hab))

theorem refl (r : Except ε α) : SameOutcome (· = ·) r r := by
  cases r with
  | ok a => exact .ok rfl
  | error e => exact .error e

theorem error_iff (h : SameOutcome R r r') (e : ε) : r = .error e ↔ r' = .error e := by
  cases h <;> simp

theorem of_ok (h : SameOutcome R r r') {a : α} {b : β} (ha : r = .ok a) (hb : r' = .ok b) :
    R a b :=
  (iff_bothOrNeither.1 h).of_ok ha hb

end SameOutcome

structure FetchFragment.Alike (differ : Prop) (f g : FetchFragment) : Prop where
  same : g = { f with selection := g.selection }
  selection : SelectionSet.Alike differ f.selection g.selection

structure Draft.Alike (differ : Prop) (d e : Draft) : Prop where
  fragment : d.fragment.Alike differ e.fragment
  parents : d.parents = e.parents

structure Entry.Alike (differ : Prop) (e f : Entry) : Prop where
  id : e.id = f.id
  parent : e.parent = f.parent
  fragment : e.fragment.Alike differ f.fragment
  inner : List.Forall₂ (Draft.Alike differ) e.inner f.inner

theorem Entry.Alike.drafts {differ : Prop} {e f : Entry} (h : e.Alike differ f) :
    List.Forall₂ (Draft.Alike differ) e.drafts f.drafts :=
  .cons ⟨h.fragment, by rw [h.parent]⟩ h.inner

theorem Entry.Alike.size {differ : Prop} {e f : Entry} (h : e.Alike differ f) :
    e.size = f.size := by
  rw [Entry.size, Entry.size, h.inner.length_eq]

def SameFill (differ : Prop) (r r' : List SelectionNode × List Draft) : Prop :=
  SelectionSet.Alike differ r.1 r'.1 ∧ List.Forall₂ (Draft.Alike differ) r.2 r'.2

namespace Planner
variable {p q : Planner} {site : Site} {next : Nat} {ns : List SelectionNode}

def Differ (p q : Planner) : Prop :=
  p.config.typenameInRepresentations ≠ q.config.typenameInRepresentations

def Agree (p q : Planner) (n : SelectionNode) : Prop := ∀ site next,
  SameOutcome (fun r r' => SameFill (p.Differ q) ([r.1], r.2) ([r'.1], r'.2))
    (p.complete n site next) (q.complete n site next)

/-! ### Carried keys -/

theorem keyNode_carriesType (place : List String) (type : String) :
    (p.keyNode place type typenameField).CarriesType :=
  ⟨rfl, by simp [SelectionNode.isTypename, keyNode], rfl, rfl⟩

theorem keyNode_of_index (hindex : p.index = q.index) (place : List String) (type key : String) :
    p.keyNode place type key = q.keyNode place type key := by
  rw [keyNode, keyNode, hindex]

def withKey (p : Planner) (place : List String) (type enclosing : String) (s : SelectionSet)
    (key : String) : SelectionSet :=
  if s.holdsKey type enclosing key then s else s ++ [p.keyNode place type key]

theorem withKey_left {s t : SelectionSet} (h : SelectionSet.Alike (p.Differ q) s t)
    (hdiffer : p.Differ q) (place : List String) (type enclosing : String) :
    SelectionSet.Alike (p.Differ q) (p.withKey place type enclosing s typenameField) t := by
  unfold withKey
  split
  · exact h
  · exact h.append_left hdiffer (keyNode_carriesType place type)

theorem withKey_right {s t : SelectionSet} (h : SelectionSet.Alike (p.Differ q) s t)
    (hdiffer : p.Differ q) (place : List String) (type enclosing : String) :
    SelectionSet.Alike (p.Differ q) s (q.withKey place type enclosing t typenameField) := by
  unfold withKey
  split
  · exact h
  · exact h.append_right hdiffer (keyNode_carriesType place type)

theorem withKey_alike (hindex : p.index = q.index) {s t : SelectionSet}
    (h : SelectionSet.Alike (p.Differ q) s t) (place : List String)
    (type enclosing key : String) :
    SelectionSet.Alike (p.Differ q) (p.withKey place type enclosing s key)
      (q.withKey place type enclosing t key) := by
  by_cases hdiffer : p.Differ q
  · by_cases hkey : key = typenameField
    · -- a type name may be held in one selection and not in the other
      subst hkey
      exact withKey_left (withKey_right h hdiffer place type enclosing) hdiffer place type enclosing
    · rw [withKey, withKey, keyNode_of_index hindex, h.holdsKey hkey]
      split
      · exact h
      · exact h.append (.refl _ _)
  · rw [h.eq hdiffer, withKey, withKey, keyNode_of_index hindex]
    exact .refl _ _

theorem injectKeys_alike (hindex : p.index = q.index) {s t : SelectionSet}
    (h : SelectionSet.Alike (p.Differ q) s t) (place : List String) (type enclosing : String)
    (keys : List String) : SelectionSet.Alike (p.Differ q)
      (p.injectKeys place type enclosing keys s) (q.injectKeys place type enclosing keys t) := by
  have hall : ∀ (keys : List String) {s t : SelectionSet}, SelectionSet.Alike (p.Differ q) s t →
      SelectionSet.Alike (p.Differ q) (keys.foldl (p.withKey place type enclosing) s)
        (keys.foldl (q.withKey place type enclosing) t) := by
    intro keys
    induction keys with
    | nil => exact fun h => h
    | cons k keys ih => exact fun h => ih (withKey_alike hindex h place type enclosing k)
  show SelectionSet.Alike (p.Differ q)
    ((p.carried keys).foldl (p.withKey place type enclosing) s)
    ((q.carried keys).foldl (q.withKey place type enclosing) t)
  unfold carried
  split <;> split
  · exact hall _ h
  · have hdiffer : p.Differ q := by simp [Differ, *]
    exact hall keys (withKey_left h hdiffer place type enclosing)
  · have hdiffer : p.Differ q := by simp [Differ, *]
    exact hall keys (withKey_right h hdiffer place type enclosing)
  · exact hall _ h

theorem carry_alike (hindex : p.index = q.index) {entries others : List Entry}
    (hentries : List.Forall₂ (Entry.Alike (p.Differ q)) entries others) {s t : SelectionSet}
    (h : SelectionSet.Alike (p.Differ q) s t) (place : List String) (id : Nat)
    (enclosing? : Option String) : SelectionSet.Alike (p.Differ q)
      (p.carry place entries id enclosing? s) (q.carry place others id enclosing? t) := by
  have hsame : List.Forall₂ (Entry.Alike (p.Differ q)) (entries.filter (·.parent = id))
      (others.filter (·.parent = id)) :=
    List.rel_filter (fun e f he => by simp [he.parent]) hentries
  refine List.rel_foldl (fun s t hst e f he => ?_) h hsame
  rw [he.fragment.same]
  exact injectKeys_alike hindex hst place _ _ _

theorem carryEntry_alike (hindex : p.index = q.index) {entries others : List Entry}
    (hentries : List.Forall₂ (Entry.Alike (p.Differ q)) entries others) {e f : Entry}
    (h : e.Alike (p.Differ q) f) (place : List String) :
    (p.carryEntry place entries e).Alike (p.Differ q) (q.carryEntry place others f) := by
  refine ⟨h.id, h.parent, ⟨?_, ?_⟩, h.inner⟩
  · have hsame := h.fragment.same
    simp only [carryEntry]
    rw [hsame]
  · rw [carryEntry, carryEntry, h.id]
    exact carry_alike hindex hentries h.fragment.selection place f.id none

/-! ### The steps of a run -/

theorem completeAll_alike (h : ∀ n ∈ ns, p.Agree q n) :
    SameOutcome (SameFill (p.Differ q)) (completeAll site next (ns.map p.pending))
      (completeAll site next (ns.map q.pending)) := by
  induction ns generalizing next with
  | nil => exact .ok ⟨.nil, .nil⟩
  | cons n ns ih =>
    obtain ⟨hfirst, hrest⟩ := List.forall_mem_cons.1 h
    refine (hfirst site next).bind fun first first' hfill => ?_
    obtain ⟨m, drafts⟩ := first
    obtain ⟨m', drafts'⟩ := first'
    have hlength : drafts.length = drafts'.length := hfill.2.length_eq
    dsimp only
    rw [hlength]
    exact (ih hrest).bind fun _ _ hothers =>
      .ok ⟨hfill.1.append hothers.1, List.rel_append hfill.2 hothers.2⟩

structure SameRoute (p q : Planner) (ns : List SelectionNode) (r r' : List Routed × List Draft) :
    Prop where
  kept : SelectionSet.Alike (p.Differ q) (r.1.filterMap Routed.kept?) (r'.1.filterMap Routed.kept?)
  drafts : List.Forall₂ (Draft.Alike (p.Differ q)) r.2 r'.2
  leaving : ∃ leaving : List ((Source × String) × SelectionNode), (∀ e ∈ leaving, e.2 ∈ ns) ∧
    r.1.filterMap Routed.leaving? = leaving.map (fun e => (e.1, p.pending e.2)) ∧
    r'.1.filterMap Routed.leaving? = leaving.map (fun e => (e.1, q.pending e.2))

theorem SameRoute.keep {n m m' : SelectionNode} {drafts drafts' : List Draft}
    {r r' : List Routed × List Draft} (h : SameRoute p q ns r r')
    (hfill : SameFill (p.Differ q) ([m], drafts) ([m'], drafts')) :
    SameRoute p q (n :: ns) (.kept m :: r.1, drafts ++ r.2)
      (.kept m' :: r'.1, drafts' ++ r'.2) := by
  obtain ⟨leaving, hmem, hleft, hright⟩ := h.leaving
  refine ⟨hfill.1.append h.kept, List.rel_append hfill.2 h.drafts, leaving, fun e he => ?_, hleft,
    hright⟩
  exact List.mem_cons_of_mem n (hmem e he)

theorem SameRoute.leave {n : SelectionNode} {owner : Source} {r r' : List Routed × List Draft}
    (h : SameRoute p q ns r r') : SameRoute p q (n :: ns)
      (.leaving owner (p.pending n) :: r.1, r.2) (.leaving owner (q.pending n) :: r'.1, r'.2) := by
  obtain ⟨leaving, hmem, hleft, hright⟩ := h.leaving
  refine ⟨h.kept, h.drafts, ((owner, n.onType), n) :: leaving, ?_, ?_, ?_⟩
  · exact List.forall_mem_cons.2 ⟨List.mem_cons_self,
      fun e he => List.mem_cons_of_mem n (hmem e he)⟩
  · simp [Routed.leaving?, hleft, pending]
  · simp [Routed.leaving?, hright, pending]

theorem route_alike (hindex : p.index = q.index) (h : ∀ n ∈ ns, p.Agree q n)
    (provided : List String) : SameOutcome (SameRoute p q ns)
      (p.route site provided next (ns.map p.pending))
      (q.route site provided next (ns.map q.pending)) := by
  induction ns generalizing next with
  | nil => exact .ok ⟨.nil, .nil, [], nofun, rfl, rfl⟩
  | cons n ns ih =>
    obtain ⟨hfirst, hrest⟩ := List.forall_mem_cons.1 h
    rw [List.map_cons, List.map_cons, pending, pending, route, route, hindex]
    split
    · have hself : SameFill (p.Differ q) ([n], []) ([n], []) := ⟨.refl _ _, .nil⟩
      exact (ih hrest).bind fun r r' hr => .ok (hr.keep hself)
    · extract_lets onward onward'
      have howner : ∀ owner,
          SameOutcome (SameRoute p q (n :: ns)) (onward owner) (onward' owner) := by
        intro owner
        simp only [onward, onward']
        split
        · refine (hfirst site next).bind fun first first' hfill => ?_
          obtain ⟨m, drafts⟩ := first
          obtain ⟨m', drafts'⟩ := first'
          have hlength : drafts.length = drafts'.length := hfill.2.length_eq
          dsimp only
          rw [hlength]
          exact (ih hrest).bind fun r r' hr => .ok (hr.keep hfill)
        · exact (ih hrest).bind fun r r' hr => .ok hr.leave
      split
      · exact howner _
      · exact (SameOutcome.refl _).bind fun owner owner' heq => heq ▸ howner owner

theorem enter_alike {fields : List SelectionNode} (h : ∀ n ∈ fields, p.Agree q n) (parent : Nat)
    (source : Source) (type : String) (keys : List String) :
    SameOutcome (Entry.Alike (p.Differ q))
      (enter site parent source type keys (fields.map p.pending) next)
      (enter site parent source type keys (fields.map q.pending) next) :=
  (completeAll_alike h).bind fun _ _ hfill => .ok ⟨rfl, rfl, ⟨rfl, hfill.1⟩, hfill.2⟩

def SameBridge (p q : Planner) (b b' : Bridge) : Prop := ∃ fields : List SelectionNode,
  (∀ n ∈ fields, p.Agree q n) ∧ b.fields = fields.map p.pending ∧
    b' = { b with fields := fields.map q.pending }

theorem enterDirect_alike (hindex : p.index = q.index) {groups : List Group}
    (h : ∀ g ∈ groups, ∀ n ∈ g.2, p.Agree q n) :
    SameOutcome (fun r r' => List.Forall₂ (Entry.Alike (p.Differ q)) r.1 r'.1 ∧
        List.Forall₂ (SameBridge p q) r.2 r'.2)
      (p.enterDirect site next (groups.map p.pendingGroup))
      (q.enterDirect site next (groups.map q.pendingGroup)) := by
  induction groups generalizing next with
  | nil => exact .ok ⟨.nil, .nil⟩
  | cons g groups ih =>
    obtain ⟨⟨source, type⟩, fields⟩ := g
    obtain ⟨hfields, hrest⟩ := List.forall_mem_cons.1 h
    have hnames : ∀ p : Planner, (fields.map p.pending).map (·.1.name) = fields.map (·.name) := by
      simp [pending, Function.comp_def]
    rw [List.map_cons, List.map_cons, pendingGroup, pendingGroup, enterDirect, enterDirect, hnames,
      hnames, hindex]
    split
    · exact .error _
    · refine (enter_alike hfields _ _ _ _).bind fun e e' he => ?_
      rw [he.size]
      exact (ih hrest).bind fun r r' hr => .ok ⟨.cons he hr.1, hr.2⟩
    · exact (ih hrest).bind fun r r' hr => .ok ⟨hr.1, .cons ⟨fields, hfields, rfl, rfl⟩ hr.2⟩

theorem enterBridged_alike {entered : List ((Source × String) × Nat)}
    {bridges bridges' : List Bridge}
    (h : List.Forall₂ (SameBridge p q) bridges bridges') :
    SameOutcome (List.Forall₂ (Entry.Alike (p.Differ q))) (enterBridged site entered next bridges)
      (enterBridged site entered next bridges') := by
  induction h generalizing entered next with
  | nil => exact .ok .nil
  | @cons b b' bridges bridges' first _ ih =>
    obtain ⟨source, type, pendings, base, baseKeys, keys⟩ := b
    obtain ⟨fields, hfields, rfl, rfl⟩ := first
    rw [enterBridged, enterBridged]
    dsimp only
    split
    · refine (enter_alike hfields _ _ _ _).bind fun e e' he => ?_
      rw [he.size]
      exact ih.bind fun r r' hr => .ok (.cons he hr)
    · refine (enter_alike hfields _ _ _ _).bind fun e e' he => ?_
      rw [he.size]
      refine ih.bind fun r r' hr => .ok (.cons ?_ (.cons he hr))
      exact ⟨rfl, rfl, ⟨rfl, .nil⟩, .nil⟩

theorem split_alike (hindex : p.index = q.index) (h : ∀ n ∈ ns, p.Agree q n) (enclosing : String)
    (provided place : List String) : SameOutcome (SameFill (p.Differ q))
      (p.split site enclosing provided place (ns.map p.pending) next)
      (q.split site enclosing provided place (ns.map q.pending) next) := by
  refine (route_alike hindex h provided).bind fun r r' hroute => ?_
  obtain ⟨routed, drafts⟩ := r
  obtain ⟨routed', drafts'⟩ := r'
  obtain ⟨hkept, hdrafts, leaving, hmem, hleft, hright⟩ := hroute
  have hgroups : ∀ g ∈ gather leaving, ∀ n ∈ g.2, p.Agree q n := by
    intro g hg n hn
    obtain ⟨e, he, rfl⟩ := List.mem_map.1 ((sublist_of_mem_gather hg).subset hn)
    exact h e.2 (hmem e he)
  dsimp only at hkept hdrafts hleft hright ⊢
  rw [hleft, hright, gather_map p.pending, gather_map q.pending, hdrafts.length_eq]
  refine (enterDirect_alike hindex hgroups).bind fun e e' hentered => ?_
  obtain ⟨direct, bridges⟩ := e
  obtain ⟨direct', bridges'⟩ := e'
  obtain ⟨hdirect, hbridges⟩ := hentered
  dsimp only at hdirect hbridges ⊢
  obtain ⟨hentered, hnext⟩ := entered_congr (hdirect.imp fun e f he =>
    ⟨he.id, (congrArg (·.source) he.fragment.same).symm,
      (congrArg (·.onType) he.fragment.same).symm, he.size⟩)
  rw [hentered, hnext]
  refine (enterBridged_alike hbridges).bind fun bridged bridged' hbridged => .ok ?_
  have hentries : List.Forall₂ (Entry.Alike (p.Differ q)) (direct ++ bridged)
      (direct' ++ bridged') := List.rel_append hdirect hbridged
  have hcarried : List.Forall₂ (Entry.Alike (p.Differ q))
      ((direct ++ bridged).map (p.carryEntry place (direct ++ bridged)))
      ((direct' ++ bridged').map (q.carryEntry place (direct' ++ bridged'))) := by
    refine List.rel_map (fun e f he => ?_) hentries
    exact carryEntry_alike hindex hentries he place
  refine ⟨carry_alike hindex hentries hkept place site.id (some enclosing), ?_⟩
  exact List.rel_append hdrafts (List.rel_flatMap hcarried fun e f he => he.drafts)

/-- Two planners over one index agree on every field. -/
theorem agree (hindex : p.index = q.index) (n : SelectionNode) : p.Agree q n := by
  induction n using SelectionNode.ofChildren with
  | step n ih =>
    intro site next
    have hbelow : p.placeBelow site.path n = q.placeBelow site.path n ∧
        p.providedBelow site.source n = q.providedBelow site.source n := by
      rw [placeBelow, placeBelow, providedBelow, providedBelow, hindex]
      exact ⟨rfl, rfl⟩
    rw [complete_eq, complete_eq, hbelow.1, hbelow.2]
    split
    · exact .ok ⟨.refl _ _, .nil⟩
    · refine (split_alike hindex ih _ _ _).bind fun r r' hfill => .ok ⟨?_, hfill.2⟩
      exact .both rfl hfill.1 .nil

/-! ### The whole operation -/

theorem ownRoots_alike (hindex : p.index = q.index) :
    SameOutcome (fun owned owned' => ∃ roots : List (Source × SelectionNode),
        owned = roots.map (fun e => (e.1, p.pending e.2)) ∧
        owned' = roots.map fun e => (e.1, q.pending e.2))
      (p.ownRoots (ns.map p.pending)) (q.ownRoots (ns.map q.pending)) := by
  induction ns with
  | nil => exact .ok ⟨[], rfl, rfl⟩
  | cons n ns ih =>
    rw [List.map_cons, List.map_cons, pending, pending, ownRoots, ownRoots, hindex]
    split
    · exact ih
    · refine (SameOutcome.refl _).bind fun owner owner' heq => ?_
      subst heq
      refine ih.bind fun owned owned' howned => .ok ?_
      obtain ⟨roots, rfl, rfl⟩ := howned
      exact ⟨(owner, n) :: roots, rfl, rfl⟩

theorem enterRoots_alike (hindex : p.index = q.index) {serial : Bool} {rootType : String}
    {previous? : Option Nat} {groups : List (Source × List SelectionNode)} :
    SameOutcome (List.Forall₂ (Draft.Alike (p.Differ q)))
      (enterRoots serial rootType previous? next (groups.map fun g => (g.1, g.2.map p.pending)))
      (enterRoots serial rootType previous? next
        (groups.map fun g => (g.1, g.2.map q.pending))) := by
  induction groups generalizing previous? next with
  | nil => exact .ok .nil
  | cons g groups ih =>
    refine (completeAll_alike fun n _ => agree hindex n).bind fun r r' hfill => ?_
    obtain ⟨nodes, inner⟩ := r
    obtain ⟨nodes', inner'⟩ := r'
    have hlength : inner.length = inner'.length := hfill.2.length_eq
    dsimp only
    rw [hlength]
    exact ih.bind fun _ _ hmore =>
      .ok (.cons ⟨⟨rfl, hfill.1⟩, rfl⟩ (List.rel_append hfill.2 hmore))

/-- Two planners over one index decompose an operation alike. -/
theorem decompose_alike (hindex : p.index = q.index) (o : Operation) :
    SameOutcome (fun d d' =>
        List.Forall₂ (FetchFragment.Alike (p.Differ q)) d.fragments d'.fragments ∧
          d.dependencies = d'.dependencies)
      (p.decompose o) (q.decompose o) := by
  unfold decompose
  rw [completers_eq_map, completers_eq_map]
  refine (ownRoots_alike hindex).bind fun owned owned' howned => ?_
  obtain ⟨roots, rfl, rfl⟩ := howned
  dsimp only
  rw [pending_rootGroups, pending_rootGroups]
  refine (enterRoots_alike hindex).bind fun drafts drafts' hdrafts => .ok ⟨?_, ?_⟩
  · exact List.rel_map (fun d e hd => hd.fragment) hdrafts
  · refine Decomposition.dependencies_ofDrafts (hdrafts.imp fun d e hd => ⟨hd.parents, ?_⟩)
    rw [hd.fragment.same]

end Planner
end FederatedQuery
