import FederatedQuery.Proofs.Decomposition.Success
import FederatedQuery.Proofs.Outcome
import FederatedQuery.Proofs.Selection.Shape

/-!
What a caller cannot change. Two operations of one shape may differ in aliases and arguments, and a
run sees the difference: in response keys, in the keys that have to be added and in the places of
errors. The relations below forget just that. Every step takes related data to related data, so the
runs make the same fragments or fail for the same reason.
-/
namespace FederatedQuery

/-! ### What runs have in common -/

def ResponsePath.marks (path : ResponsePath) : List Bool := path.map fun s => s = .each

theorem ResponsePath.marks_field (path : ResponsePath) (key : String) :
    (path.field key).marks = path.marks ++ [false] := by
  simp [marks, field]

theorem ResponsePath.marks_each (path : ResponsePath) :
    path.each.marks = path.marks ++ [true] := by
  simp [marks, each]

inductive PlanError.Mirrors : PlanError → PlanError → Prop
  | unresolvable (type field : String) {path path' : ResponsePath}
      (marks : path.marks = path'.marks) :
      Mirrors (.unresolvable type field path) (.unresolvable type field path')
  | ungroupable (type : String) (source target : Source) (fault : HopFault)
      {path path' : ResponsePath} (marks : path.marks = path'.marks) :
      Mirrors (.ungroupable type source target fault path)
        (.ungroupable type source target fault path')
  | keyForwarding (type : String) (target : Source) (keys : List String)
      {path path' : ResponsePath} (marks : path.marks = path'.marks) :
      Mirrors (.keyForwarding type target keys path) (.keyForwarding type target keys path')
  | unsupported (kind : OperationKind) : Mirrors (.unsupported kind) (.unsupported kind)

structure FetchFragment.Mirrors (f g : FetchFragment) : Prop where
  source : f.source = g.source
  onType : f.onType = g.onType
  requiredKeys : f.requiredKeys = g.requiredKeys
  marks : f.providedPath.marks = g.providedPath.marks

structure Draft.Mirrors (d e : Draft) : Prop where
  fragment : d.fragment.Mirrors e.fragment
  parents : d.parents = e.parents

structure Entry.Mirrors (e f : Entry) : Prop where
  id : e.id = f.id
  parent : e.parent = f.parent
  fragment : e.fragment.Mirrors f.fragment
  inner : List.Forall₂ Draft.Mirrors e.inner f.inner

theorem Entry.Mirrors.drafts {e f : Entry} (h : e.Mirrors f) :
    List.Forall₂ Draft.Mirrors e.drafts f.drafts :=
  .cons ⟨h.fragment, by rw [h.parent]⟩ h.inner

theorem Entry.Mirrors.size {e f : Entry} (h : e.Mirrors f) : e.size = f.size := by
  rw [Entry.size, Entry.size, h.inner.length_eq]

structure Site.Mirrors (site site' : Site) : Prop where
  source : site.source = site'.source
  id : site.id = site'.id
  marks : site.path.marks = site'.path.marks

def SameDrafts {α : Type} (r r' : α × List Draft) : Prop := List.Forall₂ Draft.Mirrors r.2 r'.2

/-- Fields of one name on one type. Completed at sites that mirror each other, they leave the same
drafts behind. -/
structure Pending.Mirrors (f g : Pending) : Prop where
  name : f.1.name = g.1.name
  onType : f.1.onType = g.1.onType
  completes : ∀ site site' next, site.Mirrors site' →
    BothOrNeither PlanError.Mirrors SameDrafts (f.2 site next) (g.2 site' next)

inductive Routed.Mirrors : Routed → Routed → Prop
  | kept (n m : SelectionNode) : Mirrors (.kept n) (.kept m)
  | leaving (source : Source) {f g : Pending} (field : f.Mirrors g) :
      Mirrors (.leaving source f) (.leaving source g)

structure Bridge.Mirrors (b c : Bridge) : Prop where
  same : c = { b with fields := c.fields }
  fields : List.Forall₂ Pending.Mirrors b.fields c.fields

structure Decomposition.Mirrors (d e : Decomposition) : Prop where
  fragments : List.Forall₂ FetchFragment.Mirrors d.fragments e.fragments
  dependencies : d.dependencies = e.dependencies

/-! ### The steps of a run -/

variable {site site' : Site} {fields fields' : List Pending}

theorem SchemaIndex.chooseOwner_mirrors (x : SchemaIndex) {n m : SelectionNode}
    (name : n.name = m.name) (onType : n.onType = m.onType) (current? : Option Source)
    {path path' : ResponsePath} (marks : path.marks = path'.marks) :
    BothOrNeither PlanError.Mirrors (· = ·) (x.chooseOwner n current? path)
      (x.chooseOwner m current? path') := by
  unfold chooseOwner
  rw [name, onType]
  split
  · refine .error (.unresolvable _ _ ?_)
    rw [ResponsePath.marks_field, ResponsePath.marks_field, marks]
  · exact .ok rfl
  · exact .ok rfl

theorem Pending.Mirrors.isTypename_eq {f g : Pending} (h : f.Mirrors g) :
    f.1.isTypename = g.1.isTypename := by
  rw [SelectionNode.isTypename, SelectionNode.isTypename, h.name]

theorem completeAll_mirrors (hsite : site.Mirrors site') (next : Nat)
    (h : List.Forall₂ Pending.Mirrors fields fields') :
    BothOrNeither PlanError.Mirrors SameDrafts (completeAll site next fields)
      (completeAll site' next fields') := by
  induction h generalizing next with
  | nil => exact .ok .nil
  | @cons f g fields fields' first _ ih =>
    refine (first.completes site site' next hsite).bind fun r r' (hdrafts : SameDrafts r r') => ?_
    dsimp only
    rw [hdrafts.length_eq]
    exact (ih _).bind fun _ _ hmore => .ok (List.rel_append hdrafts hmore)

namespace Planner
variable {p : Planner}

theorem route_mirrors (hsite : site.Mirrors site') (provided : List String) (next : Nat)
    (h : List.Forall₂ Pending.Mirrors fields fields') :
    BothOrNeither PlanError.Mirrors
      (fun r r' => List.Forall₂ Routed.Mirrors r.1 r'.1 ∧ SameDrafts r r')
      (p.route site provided next fields) (p.route site' provided next fields') := by
  induction h generalizing next with
  | nil => exact .ok ⟨.nil, .nil⟩
  | @cons f g fields fields' first _ ih =>
    rw [route, route, first.isTypename_eq]
    split
    · exact (ih _).bind fun r r' hr => .ok ⟨.cons (.kept _ _) hr.1, hr.2⟩
    · extract_lets onward onward'
      -- the rest of the run, once both have found the same owner
      have howner : ∀ owner, BothOrNeither PlanError.Mirrors
          (fun r r' => List.Forall₂ Routed.Mirrors r.1 r'.1 ∧ SameDrafts r r')
          (onward owner) (onward' owner) := by
        intro owner
        simp only [onward, onward', hsite.source]
        split
        · refine (first.completes site site' next hsite).bind
            fun r r' (hdrafts : SameDrafts r r') => ?_
          rw [hdrafts.length_eq]
          exact (ih _).bind fun s s' hs =>
            .ok ⟨.cons (.kept _ _) hs.1, List.rel_append hdrafts hs.2⟩
        · exact (ih _).bind fun r r' hr => .ok ⟨.cons (.leaving owner first) hr.1, hr.2⟩
      rw [first.name, hsite.source]
      split
      · exact howner _
      · refine (p.index.chooseOwner_mirrors first.name first.onType _ hsite.marks).bind ?_
        exact fun owner owner' heq => heq ▸ howner owner

theorem enter_mirrors (hsite : site.Mirrors site') (parent : Nat) (source : Source)
    (type : String) (keys : List String) (next : Nat)
    (h : List.Forall₂ Pending.Mirrors fields fields') :
    BothOrNeither PlanError.Mirrors Entry.Mirrors (enter site parent source type keys fields next)
      (enter site' parent source type keys fields' next) := by
  have hfilled : Site.Mirrors ⟨source, next, site.path⟩ ⟨source, next, site'.path⟩ :=
    ⟨rfl, rfl, hsite.marks⟩
  exact (completeAll_mirrors hfilled (next + 1) h).bind fun r r' hinner =>
    .ok ⟨rfl, rfl, ⟨rfl, rfl, rfl, hsite.marks⟩, hinner⟩

theorem enterDirect_mirrors (hsite : site.Mirrors site') (next : Nat)
    {groups groups' : List ((Source × String) × List Pending)}
    (h : List.Forall₂ (Keyed (List.Forall₂ Pending.Mirrors)) groups groups') :
    BothOrNeither PlanError.Mirrors
      (fun r r' => List.Forall₂ Entry.Mirrors r.1 r'.1 ∧ List.Forall₂ Bridge.Mirrors r.2 r'.2)
      (p.enterDirect site next groups) (p.enterDirect site' next groups') := by
  induction h generalizing next with
  | nil => exact .ok ⟨.nil, .nil⟩
  | @cons g g' groups groups' first _ ih =>
    obtain ⟨⟨source, type⟩, fields⟩ := g
    obtain ⟨_, fields'⟩ := g'
    obtain ⟨rfl, hfields⟩ := first
    have hnames : fields.map (·.1.name) = fields'.map (·.1.name) :=
      List.forall₂_eq_eq_eq ▸ List.rel_map (fun _ _ h => Pending.Mirrors.name h) hfields
    rw [enterDirect, enterDirect, hsite.source, hsite.id]
    dsimp only at hfields
    rw [hnames]
    split
    · exact .error (.ungroupable _ _ _ _ hsite.marks)
    · refine (enter_mirrors hsite _ _ _ _ _ hfields).bind fun e e' he => ?_
      rw [he.size]
      exact (ih _).bind fun r r' hr => .ok ⟨.cons he hr.1, hr.2⟩
    · exact (ih _).bind fun r r' hr => .ok ⟨hr.1, .cons ⟨rfl, hfields⟩ hr.2⟩

theorem enterBridged_mirrors (hsite : site.Mirrors site') (entered : List ((Source × String) × Nat))
    (next : Nat) {bridges bridges' : List Bridge}
    (h : List.Forall₂ Bridge.Mirrors bridges bridges') :
    BothOrNeither PlanError.Mirrors (List.Forall₂ Entry.Mirrors)
      (enterBridged site entered next bridges) (enterBridged site' entered next bridges') := by
  induction h generalizing entered next with
  | nil => exact .ok .nil
  | @cons b b' bridges bridges' first _ ih =>
    obtain ⟨hsame, hfields⟩ := first
    rw [hsame, enterBridged, enterBridged]
    dsimp only
    split
    · refine (enter_mirrors hsite _ _ _ _ _ hfields).bind fun e e' he => ?_
      rw [he.size]
      exact (ih _ _).bind fun r r' hr => .ok (.cons he hr)
    · refine (enter_mirrors hsite _ _ _ _ _ hfields).bind fun e e' he => ?_
      rw [he.size, hsite.id]
      refine (ih _ _).bind fun r r' hr => .ok (.cons ?_ (.cons he hr))
      exact ⟨rfl, rfl, ⟨rfl, rfl, rfl, hsite.marks⟩, .nil⟩

/-- Added keys make no difference. -/
theorem carryEntry_mirrors {e f : Entry} (h : e.Mirrors f) (place place' : List String)
    (entries entries' : List Entry) :
    (p.carryEntry place entries e).Mirrors (p.carryEntry place' entries' f) :=
  ⟨h.id, h.parent, ⟨h.fragment.source, h.fragment.onType, h.fragment.requiredKeys,
    h.fragment.marks⟩, h.inner⟩

theorem split_mirrors (hsite : site.Mirrors site') (enclosing : String) (provided : List String)
    (place place' : List String) (next : Nat)
    (h : List.Forall₂ Pending.Mirrors fields fields') :
    BothOrNeither PlanError.Mirrors SameDrafts
      (p.split site enclosing provided place fields next)
      (p.split site' enclosing provided place' fields' next) := by
  refine (route_mirrors hsite provided next h).bind fun r r' hroute => ?_
  obtain ⟨routed, drafts⟩ := r
  obtain ⟨routed', drafts'⟩ := r'
  obtain ⟨hrouted, hdrafts⟩ := hroute
  have hleaving : List.Forall₂ (Keyed Pending.Mirrors) (routed.filterMap Routed.leaving?)
      (routed'.filterMap Routed.leaving?) := by
    refine List.rel_filterMap (fun x y hxy => ?_) hrouted
    cases hxy with
    | kept => exact .none
    | leaving source field => exact .some ⟨by rw [field.onType], field⟩
  dsimp only
  rw [hdrafts.length_eq]
  refine (enterDirect_mirrors hsite _ (gather_keyed hleaving)).bind fun e e' hentered => ?_
  obtain ⟨direct, bridges⟩ := e
  obtain ⟨direct', bridges'⟩ := e'
  obtain ⟨hdirect, hbridges⟩ := hentered
  dsimp only at hdirect hbridges ⊢
  obtain ⟨hentered, hnext⟩ := entered_congr (hdirect.imp fun e f he =>
    ⟨he.id, he.fragment.source, he.fragment.onType, he.size⟩)
  rw [hentered, hnext]
  refine (enterBridged_mirrors hsite _ _ hbridges).bind fun bridged bridged' hbridged => .ok ?_
  have hentries : List.Forall₂ Entry.Mirrors (direct ++ bridged) (direct' ++ bridged') :=
    List.rel_append hdirect hbridged
  have hcarried : List.Forall₂ Entry.Mirrors
      ((direct ++ bridged).map (p.carryEntry place (direct ++ bridged)))
      ((direct' ++ bridged').map (p.carryEntry place' (direct' ++ bridged'))) := by
    refine List.rel_map (fun e f he => ?_) hentries
    exact carryEntry_mirrors he _ _ _ _
  exact List.rel_append hdrafts (List.rel_flatMap hcarried fun e f he => he.drafts)

end Planner

/-! ### Fields of one shape -/

namespace SelectionNode.SameShape
variable {p : Planner} {n m : SelectionNode}

theorem marks_placeBelow (h : n.SameShape m) {path path' : ResponsePath}
    (marks : path.marks = path'.marks) :
    (p.placeBelow path n).marks = (p.placeBelow path' m).marks := by
  cases h with
  | mk name onType =>
    rw [Planner.placeBelow, Planner.placeBelow, name, onType]
    split <;> simp only [ResponsePath.marks_each, ResponsePath.marks_field, marks]

/-- The planner looks at nothing but the shape of a field. -/
theorem pending_mirrors (h : n.SameShape m) : (p.pending n).Mirrors (p.pending m) := by
  induction n using SelectionNode.ofChildren generalizing m with
  | step n ih =>
    have hplace := @marks_placeBelow p n m h
    obtain ⟨name, onType, ofType, hchildren⟩ := h
    refine ⟨name, onType, fun site site' next hsite => ?_⟩
    have hbelow : List.Forall₂ Pending.Mirrors (n.children.map p.pending)
        (m.children.map p.pending) := by
      rw [List.forall₂_map_left_iff, List.forall₂_map_right_iff]
      exact List.forall₂_iff_zip.2 ⟨hchildren.length_eq, fun hcd =>
        ih _ (List.of_mem_zip hcd).1 ((List.forall₂_iff_zip.1 hchildren).2 hcd)⟩
    have hempty : n.children.isEmpty = m.children.isEmpty := by
      generalize n.children = children, m.children = others at hchildren
      cases hchildren <;> rfl
    have hprovided : p.providedBelow site.source n = p.providedBelow site'.source m := by
      rw [Planner.providedBelow, Planner.providedBelow, name, onType, hsite.source]
    have hinside : Site.Mirrors { site with path := p.placeBelow site.path n }
        { site' with path := p.placeBelow site'.path m } :=
      ⟨hsite.source, hsite.id, hplace hsite.marks⟩
    show BothOrNeither PlanError.Mirrors SameDrafts (p.complete n site next)
      (p.complete m site' next)
    rw [Planner.complete_eq, Planner.complete_eq, hempty, ofType, hprovided]
    split
    · exact .ok .nil
    · exact (Planner.split_mirrors hinside _ _ _ _ _ hbelow).bind fun r r' hdrafts => .ok hdrafts

end SelectionNode.SameShape

/-! ### The whole operation -/

namespace Planner
variable {p : Planner}

theorem ownRoots_mirrors (h : List.Forall₂ Pending.Mirrors fields fields') :
    BothOrNeither PlanError.Mirrors (List.Forall₂ (Keyed Pending.Mirrors)) (p.ownRoots fields)
      (p.ownRoots fields') := by
  induction h with
  | nil => exact .ok .nil
  | @cons f g fields fields' first _ ih =>
    rw [ownRoots, ownRoots, first.isTypename_eq]
    split
    · exact ih
    · refine (p.index.chooseOwner_mirrors first.name first.onType none rfl).bind ?_
      exact fun owner owner' heq => ih.bind fun _ _ howned => .ok (.cons ⟨heq, first⟩ howned)

theorem enterRoots_mirrors (serial : Bool) (rootType : String) (previous? : Option Nat) (next : Nat)
    {groups groups' : List (Source × List Pending)}
    (h : List.Forall₂ (Keyed (List.Forall₂ Pending.Mirrors)) groups groups') :
    BothOrNeither PlanError.Mirrors (List.Forall₂ Draft.Mirrors)
      (enterRoots serial rootType previous? next groups)
      (enterRoots serial rootType previous? next groups') := by
  induction h generalizing previous? next with
  | nil => exact .ok .nil
  | @cons g g' groups groups' first _ ih =>
    obtain ⟨source, fields⟩ := g
    obtain ⟨_, fields'⟩ := g'
    obtain ⟨rfl, hfields⟩ := first
    refine (completeAll_mirrors ⟨rfl, rfl, rfl⟩ _ hfields).bind fun r r' hinner => ?_
    obtain ⟨nodes, inner⟩ := r
    obtain ⟨nodes', inner'⟩ := r'
    have hlength : inner.length = inner'.length := hinner.length_eq
    dsimp only
    rw [hlength]
    exact (ih _ _).bind fun _ _ hmore =>
      .ok (.cons ⟨⟨rfl, rfl, rfl, rfl⟩, rfl⟩ (List.rel_append hinner hmore))

end Planner

theorem Decomposition.ofDrafts_mirrors {drafts drafts' : List Draft}
    (h : List.Forall₂ Draft.Mirrors drafts drafts') :
    (ofDrafts drafts).Mirrors (ofDrafts drafts') :=
  ⟨List.rel_map (fun _ _ hd => Draft.Mirrors.fragment hd) h,
    dependencies_ofDrafts (h.imp fun _ _ hd => ⟨hd.parents, hd.fragment.requiredKeys⟩)⟩

/-- Operations of one kind, root type and shape are decomposed alike. -/
theorem Planner.decompose_mirrors (p : Planner) {o o' : Operation} (kind : o.kind = o'.kind)
    (rootType : o.rootType = o'.rootType)
    (shape : SelectionSet.SameShape o.selection o'.selection) :
    BothOrNeither PlanError.Mirrors Decomposition.Mirrors (p.decompose o) (p.decompose o') := by
  have hfields : List.Forall₂ Pending.Mirrors (p.completers o.selection)
      (p.completers o'.selection) := by
    rw [completers_eq_map, completers_eq_map]
    exact List.rel_map (fun _ _ h => SelectionNode.SameShape.pending_mirrors h) shape
  unfold decompose
  rw [kind, rootType]
  refine (ownRoots_mirrors hfields).bind fun owned others howned => ?_
  have hgroups : List.Forall₂ (Keyed (List.Forall₂ Pending.Mirrors))
      (if o'.kind = .mutation then runs owned else gather owned)
      (if o'.kind = .mutation then runs others else gather others) := by
    split
    · exact runs_keyed howned
    · exact gather_keyed howned
  dsimp only
  refine (enterRoots_mirrors _ _ _ _ hgroups).bind fun drafts drafts' hdrafts => ?_
  exact .ok (Decomposition.ofDrafts_mirrors hdrafts)

end FederatedQuery
