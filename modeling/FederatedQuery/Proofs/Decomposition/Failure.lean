import FederatedQuery.Proofs.Decomposition.Completeness
import FederatedQuery.Proofs.SchemaIndex.Built

/-!
Why a decomposition fails. Its error is about fields of the operation: one that no source owns, or
children of one field that have to leave, where neither the source at hand nor another one that can
be entered from it supplies what their target has to receive.
-/
namespace FederatedQuery

def FailsFor {ε α : Type} (r : Except ε α) (P : ε → Prop) : Prop := ∀ e, r = .error e → P e

namespace FailsFor
variable {ε α β : Type} {r : Except ε α} {P Q : ε → Prop}

theorem ok (a : α) : FailsFor (.ok a : Except ε α) P := nofun

theorem error {e : ε} (h : P e) : FailsFor (.error e : Except ε α) P := by
  intro e' he
  cases he
  exact h

theorem bind {f : α → Except ε β} (h : FailsFor r P) (hf : ∀ a, r = .ok a → FailsFor (f a) P) :
    FailsFor (r >>= f) P := by
  intro e he
  cases r with
  | error e' =>
    cases he
    exact h _ rfl
  | ok a => exact hf a rfl e he

theorem mono (h : FailsFor r P) (hPQ : ∀ e, P e → Q e) : FailsFor r Q := fun e he => hPQ e (h e he)

end FailsFor

/-! ### Hops that fail -/

namespace SchemaIndex
variable {x : SchemaIndex} {type : String} {source target : Source} {fields : List String}

def Needs (x : SchemaIndex) (type : String) (target : Source) (fields : List String)
    (key : String) : Prop :=
  key ∈ x.keyFor type target ∨ ∃ f ∈ fields, key ∈ x.requiresOf type f target

structure Mediates (x : SchemaIndex) (type : String) (source target : Source)
    (fields : List String) (base : Source) : Prop where
  declares : base ∈ x.sourcesOf type
  third : base ≠ source ∧ base ≠ target
  enterable : ∃ e, x.entryPoint? type base = some e ∧ ∀ k ∈ e.key, source ∈ x.ownersOf type k
  supplies : ∀ k, x.Needs type target fields k → base ∈ x.ownersOf type k

/-- Why fields of a type do not come from the source to the target: the type has no key for the
target, or the source lacks the `keys` and no third source helps. -/
inductive Blocks (x : SchemaIndex) (type : String) (source target : Source)
    (fields : List String) : HopFault → Prop
  | noEntityKey (closed : x.entryPoint? type target = none) (keyless : x.entityKeyOf type = []) :
      Blocks x type source target fields .noEntityKey
  | keysMissing {keys : List String} (some : keys ≠ [])
      (missing : ∀ k, k ∈ keys ↔ x.Needs type target fields k ∧ source ∉ x.ownersOf type k)
      (alone : ∀ base, ¬x.Mediates type source target fields base) :
      Blocks x type source target fields (.keysMissing source keys)

theorem keyFor_eq_nil {b : Blueprint} (hb : b.index = .valid x) : x.keyFor type target = [] ↔
    x.entryPoint? type target = none ∧ x.entityKeyOf type = [] := by
  unfold keyFor
  cases he : x.entryPoint? type target with
  | none => simp
  | some e => simp [key_of_entryPoint? hb he]

theorem resolvesAll_iff {keys : List String} :
    x.resolvesAll type source keys = true ↔ ∀ k ∈ keys, source ∈ x.ownersOf type k := by
  simp [resolvesAll]

theorem not_mediates_of_bridge? {base : Source}
    (h : x.bridge? type source target (x.forwardedKeys type target fields) = none) :
    ¬x.Mediates type source target fields base := by
  rintro ⟨declares, third, ⟨e, he, hkey⟩, supplies⟩
  have hbase := List.findSome?_eq_none_iff.1 h base declares
  have hsupplies : x.resolvesAll type base (x.forwardedKeys type target fields) = true :=
    resolvesAll_iff.2 fun k hk => supplies k (mem_forwardedKeys.1 hk)
  have henters : x.resolvesAll type source e.key = true := resolvesAll_iff.2 hkey
  simp [third, he, hsupplies, henters] at hbase

theorem hop_blocks {b : Blueprint} (hb : b.index = .valid x) :
    FailsFor (x.hop type source target fields) (x.Blocks type source target fields) := by
  unfold hop
  split
  · rename_i hkey
    obtain ⟨hclosed, hkeyless⟩ := (keyFor_eq_nil hb).1 (List.isEmpty_iff.1 hkey)
    exact .error (.noEntityKey hclosed hkeyless)
  · extract_lets keys
    split
    · exact .ok _
    · rename_i hsource
      split
      · exact .ok _
      · rename_i hnone
        have hmissing : ∀ k, k ∈ keys.filter (source ∉ x.ownersOf type ·) ↔
            x.Needs type target fields k ∧ source ∉ x.ownersOf type k := by
          intro k
          rw [List.mem_filter, mem_forwardedKeys, decide_eq_true_eq]
          rfl
        refine .error (.keysMissing (fun hnil => hsource ?_) hmissing fun base =>
          not_mediates_of_bridge? hnone)
        refine resolvesAll_iff.2 fun k hk => ?_
        by_contra hforeign
        exact List.not_mem_nil (hnil ▸ (hmissing k).2 ⟨mem_forwardedKeys.1 hk, hforeign⟩)

end SchemaIndex

/-! ### Fields to blame -/

namespace Planner
variable {p : Planner} {b : Blueprint} {site : Site} {next : Nat} {above : List String}
  {s t ns : List SelectionNode} {n : SelectionNode}

inductive Explains (p : Planner) (above : List String) (s : SelectionSet) : PlanError → Prop
  | unresolvable {way : List SelectionNode} {n : SelectionNode} {path : ResponsePath}
      (descends : SelectionSet.Descends s (way ++ [n]))
      (keys : path.keys = above ++ (way ++ [n]).map (·.responseKey))
      (named : n.isTypename = false) (unowned : p.index.ownersOf n.onType n.name = []) :
      Explains p above s (.unresolvable n.onType n.name path)
  /-- Children of one field that belong to the target and cannot be reached from the source. -/
  | ungroupable {way group : List SelectionNode} {n : SelectionNode} {type : String}
      {source target : Source} {fault : HopFault} {path : ResponsePath}
      (descends : SelectionSet.Descends s (way ++ [n]))
      (keys : path.keys = above ++ (way ++ [n]).map (·.responseKey))
      (children : group.Sublist n.children) (some : group ≠ [])
      (foreign : ∀ c ∈ group, c.onType = type ∧ source ∉ p.index.ownersOf type c.name ∧
        (p.index.ownersOf type c.name).head? = .some target)
      (blocked : p.index.Blocks type source target (group.map (·.name)) fault) :
      Explains p above s (.ungroupable type source target fault path)

theorem Explains.subset {e : PlanError} (h : p.Explains above s e) (hst : s ⊆ t) :
    p.Explains above t e := by
  cases h with
  | unresolvable descends keys named unowned =>
    exact .unresolvable (descends.mono hst) keys named unowned
  | ungroupable descends keys children some foreign blocked =>
    exact .ungroupable (descends.mono hst) keys children some foreign blocked

theorem Explains.first {e : PlanError} (h : p.Explains above [n] e) (ns : List SelectionNode) :
    p.Explains above (n :: ns) e :=
  h.subset (List.cons_subset_cons n (List.nil_subset ns))

theorem Explains.later {e : PlanError} (h : p.Explains above ns e) (n : SelectionNode) :
    p.Explains above (n :: ns) e :=
  h.subset (List.subset_cons_self n ns)

/-- An error about what stands below a field is about the field's selection. -/
theorem Explains.below {e : PlanError} (h : p.Explains (above ++ [n.responseKey]) n.children e) :
    p.Explains above [n] e := by
  cases h with
  | @unresolvable way m path descends keys named unowned =>
    have hdown : SelectionSet.Descends [n] ((n :: way) ++ [m]) := ⟨List.mem_cons_self, descends⟩
    exact .unresolvable hdown (by simp [keys]) named unowned
  | @ungroupable way group m type source target fault path descends keys children some foreign
      blocked =>
    have hdown : SelectionSet.Descends [n] ((n :: way) ++ [m]) := ⟨List.mem_cons_self, descends⟩
    exact .ungroupable hdown (by simp [keys]) children some foreign blocked

theorem descends_self (n : SelectionNode) : SelectionSet.Descends [n] ([] ++ [n]) :=
  ⟨List.mem_cons_self, trivial⟩

def Accountable (p : Planner) (n : SelectionNode) : Prop :=
  ∀ site next, FailsFor (p.complete n site next) (p.Explains site.path.keys [n])

theorem completeAll_explains (site : Site) (next : Nat) (h : ∀ n ∈ ns, p.Accountable n) :
    FailsFor (completeAll site next (ns.map p.pending)) (p.Explains site.path.keys ns) := by
  induction ns generalizing next with
  | nil => exact .ok _
  | cons n ns ih =>
    obtain ⟨hfirst, hrest⟩ := List.forall_mem_cons.1 h
    refine ((hfirst site next).mono fun e he => he.first ns).bind fun r _ => ?_
    exact ((ih _ hrest).mono fun e he => he.later n).bind fun _ _ => .ok _

theorem chooseOwner_explains (current? : Option Source) (path : ResponsePath)
    (hnamed : n.isTypename = false) :
    FailsFor (p.index.chooseOwner n current? path) (p.Explains path.keys [n]) := by
  unfold SchemaIndex.chooseOwner
  split
  · rename_i howners
    refine .error (.unresolvable (descends_self n) ?_ hnamed howners)
    simp [ResponsePath.keys, ResponsePath.field, Segment.key?]
  · exact .ok _
  · exact .ok _

theorem route_explains {provided : List String} (h : ∀ n ∈ ns, p.Accountable n) :
    FailsFor (p.route site provided next (ns.map p.pending)) (p.Explains site.path.keys ns) := by
  induction ns generalizing next with
  | nil => exact .ok _
  | cons n ns ih =>
    obtain ⟨hfirst, hrest⟩ := List.forall_mem_cons.1 h
    have hothers : ∀ next, FailsFor (p.route site provided next (ns.map p.pending))
        (p.Explains site.path.keys (n :: ns)) :=
      fun next => (ih hrest).mono fun e he => he.later n
    rw [List.map_cons, pending, route]
    split
    · exact (hothers next).bind fun _ _ => .ok _
    · have hnamed : n.isTypename = false := Bool.eq_false_iff.2 ‹_›
      extract_lets onward
      have honward : ∀ owner, FailsFor (onward owner) (p.Explains site.path.keys (n :: ns)) := by
        intro owner
        simp only [onward]
        split
        · exact ((hfirst site next).mono fun e he => he.first ns).bind fun _ _ =>
            (hothers _).bind fun _ _ => .ok _
        · exact (hothers next).bind fun _ _ => .ok _
      split
      · exact (FailsFor.ok _).bind fun owner _ => honward owner
      · have howner := (chooseOwner_explains (p := p) (some site.source) site.path hnamed).mono
          fun e he => he.first ns
        exact howner.bind fun owner _ => honward owner

structure Departing (p : Planner) (source : Source) (n : SelectionNode) (g : Group) : Prop where
  children : g.2.Sublist n.children
  some : g.2 ≠ []
  foreign : ∀ c ∈ g.2, c.onType = g.1.2 ∧ source ∉ p.index.ownersOf g.1.2 c.name ∧
    (p.index.ownersOf g.1.2 c.name).head? = .some g.1.1

theorem enter_explains (hpath : site.path.keys = above ++ [n.responseKey])
    (h : ∀ c ∈ n.children, p.Accountable c) (hns : ns ⊆ n.children) {parent : Nat}
    {source : Source} {type : String} {keys : List String} :
    FailsFor (enter site parent source type keys (ns.map p.pending) next)
      (p.Explains above [n]) := by
  have hfill := completeAll_explains ⟨source, next, site.path⟩ (next + 1)
    fun c hc => h c (hns hc)
  refine FailsFor.bind (hfill.mono fun e he => ?_) fun _ _ => .ok _
  exact Explains.below (hpath ▸ he.subset hns)

theorem enterDirect_explains (hb : b.index = .valid p.index)
    (hpath : site.path.keys = above ++ [n.responseKey]) (h : ∀ c ∈ n.children, p.Accountable c)
    {groups : List Group} (hgroups : ∀ g ∈ groups, p.Departing site.source n g) :
    FailsFor (p.enterDirect site next (groups.map p.pendingGroup)) (p.Explains above [n]) := by
  induction groups generalizing next with
  | nil => exact .ok _
  | cons g groups ih =>
    obtain ⟨hg, hrest⟩ := List.forall_mem_cons.1 hgroups
    have hnames : (g.2.map p.pending).map (·.1.name) = g.2.map (·.name) := by
      simp [pending, Function.comp_def]
    rw [List.map_cons, pendingGroup, enterDirect, hnames]
    split
    · rename_i fault hfault
      have hblocks := SchemaIndex.hop_blocks hb fault hfault
      exact .error (.ungroupable (descends_self n) hpath hg.children hg.some hg.foreign hblocks)
    · refine FailsFor.bind (enter_explains hpath h hg.children.subset) fun _ _ => ?_
      exact (ih hrest).bind fun _ _ => .ok _
    · exact (ih hrest).bind fun _ _ => .ok _

theorem enterBridged_explains (hpath : site.path.keys = above ++ [n.responseKey])
    (h : ∀ c ∈ n.children, p.Accountable c) {entered : List ((Source × String) × Nat)}
    {groups : List Group} {bridges : List Bridge}
    (haside : List.Forall₂ (p.SetAside site) groups bridges)
    (hgroups : ∀ g ∈ groups, g.2 ⊆ n.children) :
    FailsFor (enterBridged site entered next bridges) (p.Explains above [n]) := by
  induction haside generalizing next entered with
  | nil => exact .ok _
  | @cons g bridge groups bridges hbridge _ ih =>
    obtain ⟨hg, hrest⟩ := List.forall_mem_cons.1 hgroups
    obtain ⟨-, -, hfields, -⟩ := hbridge
    rw [enterBridged, hfields]
    split
    · exact FailsFor.bind (enter_explains hpath h hg) fun _ _ => (ih hrest).bind fun _ _ => .ok _
    · exact FailsFor.bind (enter_explains hpath h hg) fun _ _ => (ih hrest).bind fun _ _ => .ok _

theorem split_explains (hb : b.index = .valid p.index) {enclosing : String}
    {provided place : List String} (hpath : site.path.keys = above ++ [n.responseKey])
    (h : ∀ c ∈ n.children, p.Accountable c) :
    FailsFor (p.split site enclosing provided place (n.children.map p.pending) next)
      (p.Explains above [n]) := by
  have hany : ∀ c : SelectionNode, p.Completes (fun _ _ _ _ _ => True) c :=
    fun _ _ _ _ _ _ => trivial
  have hroute : FailsFor (p.route site provided next (n.children.map p.pending))
      (p.Explains above [n]) := (route_explains h).mono fun e he => Explains.below (hpath ▸ he)
  refine hroute.bind fun (routed, drafts) hrouted => ?_
  obtain ⟨leaving, hroutes, hleaving⟩ := routes_of_ok (fun c _ => hany c) hrouted
  have hgroups : ∀ g ∈ gather leaving, p.Departing site.source n g := by
    intro g hg
    refine ⟨hroutes.group_sublist hg, ne_nil_of_mem_gather g hg, fun c hc => ?_⟩
    obtain ⟨htype, hdeparts⟩ := hroutes.group_departs hg c hc
    obtain ⟨others, howned⟩ := hdeparts.owned
    exact ⟨htype, htype ▸ hdeparts.foreign, by rw [← htype, howned]; rfl⟩
  dsimp only
  rw [hleaving, gather_map p.pending]
  refine (enterDirect_explains hb hpath h hgroups).bind fun (direct, bridges) hdirect => ?_
  obtain ⟨near, far, hperm, -, -, haside⟩ :=
    enters_of_direct [] (fun _ _ c _ => hany c) hdirect
  have hfar : ∀ g ∈ far, g.2 ⊆ n.children := fun g hg =>
    (hgroups g (hperm.subset (List.mem_append_right near hg))).children.subset
  exact (enterBridged_explains hpath h haside hfar).bind fun _ _ => .ok _

theorem accountable (hb : b.index = .valid p.index) (n : SelectionNode) : p.Accountable n := by
  induction n using SelectionNode.ofChildren with
  | step n ih =>
    intro site next
    rw [complete_eq]
    split
    · exact .ok _
    · have hpath : ({ site with path := p.placeBelow site.path n } : Site).path.keys =
          site.path.keys ++ [n.responseKey] := p.keys_placeBelow site.path n
      exact (split_explains hb hpath ih).bind fun _ _ => .ok _

theorem enterRoots_explains {serial : Bool} {rootType : String} {previous? : Option Nat}
    (h : ∀ n ∈ s, p.Accountable n) {groups : List (Source × List SelectionNode)}
    (hgroups : ∀ g ∈ groups, g.2 ⊆ s) :
    FailsFor (enterRoots serial rootType previous? next
      (groups.map fun g => (g.1, g.2.map p.pending))) (p.Explains [] s) := by
  induction groups generalizing previous? next with
  | nil => exact .ok _
  | cons g groups ih =>
    obtain ⟨hg, hrest⟩ := List.forall_mem_cons.1 hgroups
    have hfill := completeAll_explains ⟨g.1, next, .root⟩ (next + 1) fun n hn => h n (hg hn)
    refine FailsFor.bind (hfill.mono fun e he => he.subset hg) fun _ _ => ?_
    exact (ih hrest).bind fun _ _ => .ok _

theorem ownRoots_explains (ns : List SelectionNode) :
    FailsFor (p.ownRoots (ns.map p.pending)) (p.Explains [] ns) := by
  induction ns with
  | nil => exact .ok _
  | cons n ns ih =>
    have hothers := ih.mono fun e he => he.later n
    rw [List.map_cons, ownRoots]
    split
    · exact hothers
    · have hnamed : n.isTypename = false := Bool.eq_false_iff.2 ‹_›
      refine FailsFor.bind ((chooseOwner_explains none .root hnamed).mono fun e he => ?_)
        fun _ _ => hothers.bind fun _ _ => .ok _
      exact he.first ns

end Planner

/-- The error of a decomposition is true. A field that it calls unresolvable is one of the operation
that no source owns. A group that it calls ungroupable are children of one field of the operation
that belong to the target and not to the source, and either their type has no key for the target or
the source lacks something that the target needs and no third source helps. -/
theorem decompose_explains {b : Blueprint} {p : Planner} (hb : b.index = .valid p.index)
    {o : Operation} {e : PlanError} (h : p.decompose o = .error e) :
    p.Explains [] o.selection e := by
  have hall : FailsFor (p.decompose o) (p.Explains [] o.selection) := by
    rw [Planner.decompose, Planner.completers_eq_map]
    refine (Planner.ownRoots_explains o.selection).bind fun owned howned => ?_
    obtain ⟨roots, rfl, hfields, -⟩ := Planner.ownRoots_of_ok howned
    dsimp only
    rw [Planner.pending_rootGroups]
    refine (Planner.enterRoots_explains (fun n _ => Planner.accountable hb n) ?_).bind
      fun _ _ => .ok _
    exact fun g hg => (sublist_of_mem_rootGroups hfields hg).subset
  exact hall e h

/-- An archive that knows its books by number and lends them by shelfmark, which only the loans
know. The vault has a number for each book and no shelfmark. -/
def archiveSchema : Blueprint :=
  ⟨"Query", none, none, ["archive", "loans", "vault"],
    [⟨"Query", [{ graph := "archive" }], [⟨"books", .list (.named "Book" false) false, []⟩]⟩,
     ⟨"Book", [{ graph := "archive", key := some "number" },
         { graph := "loans", key := some "shelfmark" }, { graph := "vault", key := some "number" }],
       [⟨"number", .named "ID" true, [{ graph := some "archive" }, { graph := some "vault" }]⟩,
        ⟨"shelfmark", .named "String" true, [{ graph := some "loans" }]⟩,
        ⟨"reader", .named "String" false, [{ graph := some "loans" }]⟩]⟩]⟩

def archive : Planner := ⟨archiveSchema.index.value?.getD ⟨"", none, none, .empty⟩, {}⟩

/-- The shelfmark that the loans need does not reach them, not over the vault either. -/
theorem decompose_explains_archive : ∃ o e, Operation.parse "{ all: books { number reader } }" none
      archive.index = .ok o ∧ archive.decompose o = .error e ∧
    e = .ungroupable "Book" "archive" "loans" (.keysMissing "archive" ["shelfmark"])
      [.field "all", .each] ∧ archive.Explains [] o.selection e := by
  have hindex : archiveSchema.index = .valid archive.index :=
    Validated.eq_valid_of_isValid (by decide +kernel) ⟨"", none, none, .empty⟩
  have hfails : (archive.decompose (archive.operationOf "{ all: books { number reader } }")).map
      (fun _ => ()) = .error (.ungroupable "Book" "archive" "loans"
        (.keysMissing "archive" ["shelfmark"]) [.field "all", .each]) := by
    decide +kernel
  exact ⟨_, _, Planner.operationOf_of_isOk (by decide +kernel), error_of_map hfails, rfl,
    decompose_explains hindex (error_of_map hfails)⟩

end FederatedQuery
