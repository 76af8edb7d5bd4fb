import FederatedQuery.Proofs.Decomposition.Contents
import FederatedQuery.Proofs.Decomposition.Routing
import FederatedQuery.Proofs.Plan.Validity
import FederatedQuery.Proofs.Plan.Waves

/-!
The fragments of the root fields. Those of a mutation run one after the other, in the order of the
fields, and each after all that was entered for the ones before it. Those of a query wait for
nothing, and there is one for each source.
-/
namespace FederatedQuery

def SelectionNode.bare (n : SelectionNode) : SelectionNode := { n with children := [] }

def Operation.rootFields (o : Operation) : SelectionSet := o.selection.filter (!·.isTypename)

def Decomposition.roots (d : Decomposition) : List FetchFragment := d.fragments.filter (·.isRoot)

def Planner.Rooted : Completion := fun site next n m drafts =>
  m.bare = n.bare ∧ (site.id < next → ∀ d ∈ drafts, d.fragment.requiredKeys ≠ [])

section Rooted
variable {b : Blueprint} {p : Planner} {site : Site} {next : Nat} {ns : List SelectionNode}
  {drafts : List Draft} {serial : Bool} {rootType : String} {previous? : Option Nat}
  {groups : List (Source × List SelectionNode)}

theorem Planner.complete_rooted (hb : b.index = .valid p.index) (n : SelectionNode) :
    p.Completes Planner.Rooted n := by
  intro site next m drafts h
  obtain ⟨⟨kept, children, -, -, rfl⟩, -⟩ := p.complete_fills n site next m drafts h
  have htraced := (p.complete_traced n site next _ drafts h).2
  refine ⟨rfl, fun hlt d hd => ?_⟩
  obtain ⟨i, hi, rfl⟩ := List.mem_iff_getElem.1 hd
  have hmem : (drafts[i], next + i) ∈ drafts.zipIdx next :=
    List.mk_add_mem_zipIdx_iff_getElem?.2 (List.getElem?_eq_getElem hi)
  obtain ⟨_, -, _, _, _, -, hentered⟩ := htraced hlt _ hmem
  exact hentered.keys_ne_nil hb

theorem CompletesAll.rooted {ms : List SelectionNode}
    (h : CompletesAll Planner.Rooted site next ns ms drafts) :
    ms.map SelectionNode.bare = ns.map SelectionNode.bare ∧
      (site.id < next → ∀ d ∈ drafts, d.fragment.requiredKeys ≠ []) := by
  induction h with
  | nil => exact ⟨rfl, by simp⟩
  | cons first _ ih =>
    obtain ⟨hbare, hdrafts⟩ := first
    obtain ⟨hbares, hmore⟩ := ih
    refine ⟨by rw [List.map_cons, List.map_cons, hbare, hbares], fun hlt => ?_⟩
    exact List.forall_mem_append.2 ⟨hdrafts hlt, hmore (by omega)⟩

/-- The root fragments are those of the groups, in their order. -/
theorem EntersRoots.roots (h : EntersRoots Planner.Rooted serial rootType previous? next groups
    drafts) :
    ((drafts.map (·.fragment)).filter (·.isRoot)).map
        (fun f => (f.source, f.selection.map SelectionNode.bare)) =
      groups.map fun g => (g.1, g.2.map SelectionNode.bare) := by
  induction h with
  | nil => rfl
  | @cons previous? next source fields nodes inner more groups fill _ ih =>
    obtain ⟨hbares, hinner⟩ := fill.rooted
    have hnone : (inner.map (·.fragment)).filter (·.isRoot) = [] := by
      rw [List.filter_eq_nil_iff]
      intro f hf hroot
      obtain ⟨d, hd, rfl⟩ := List.mem_map.1 hf
      exact hinner (Nat.lt_succ_self next) d hd (List.isEmpty_iff.1 hroot)
    have hself : FetchFragment.isRoot ⟨source, rootType, nodes, [], .root⟩ = true := rfl
    rw [List.map_append, List.filter_append, List.map_cons, List.filter_cons_of_pos hself, hnone,
      List.map_append, ih]
    simp [hbares]

/-- What a root fragment waits for is told by the root fragment before it. -/
theorem EntersRoots.parents (h : EntersRoots Planner.Rooted serial rootType previous? next groups
    drafts) : ∀ e ∈ drafts.zipIdx next, e.1.fragment.isRoot = true →
      (e.2 = next ∧ e.1.parents = rootParents serial previous? next) ∨
        ∃ q ∈ drafts.zipIdx next, q.1.fragment.isRoot = true ∧ q.2 < e.2 ∧
          e.1.parents = rootParents serial (some q.2) e.2 := by
  induction h with
  | nil => simp
  | @cons previous? next source fields nodes inner more groups fill _ ih =>
    obtain ⟨-, hinner⟩ := fill.rooted
    set root : Draft := ⟨⟨source, rootType, nodes, [], .root⟩, rootParents serial previous? next⟩
    have hself : (root, next) ∈ (root :: inner ++ more).zipIdx next := by simp
    intro e he hroot
    rw [List.zipIdx_append] at he
    cases List.mem_append.1 he with
    | inl he =>
      cases List.mem_cons.1 he with
      | inl heq =>
        subst heq
        exact .inl ⟨rfl, rfl⟩
      | inr he =>
        -- nothing that is entered inside a fragment is a root fragment
        have hmem : e.1 ∈ inner := List.fst_mem_of_mem_zipIdx he
        exact absurd (List.isEmpty_iff.1 hroot) (hinner (Nat.lt_succ_self next) e.1 hmem)
    | inr he =>
      have hlength : next + (root :: inner).length = next + 1 + inner.length := by
        rw [List.length_cons]
        omega
      rw [hlength] at he
      cases ih e he hroot with
      | inl hfirst =>
        obtain ⟨hid, hparents⟩ := hfirst
        refine .inr ⟨_, hself, rfl, ?_, hid ▸ hparents⟩
        show next < e.2
        omega
      | inr hlater =>
        obtain ⟨q, hq, hqroot, hlt, hparents⟩ := hlater
        refine .inr ⟨q, ?_, hqroot, hlt, hparents⟩
        rw [List.zipIdx_append, hlength]
        exact List.mem_append_right _ hq

end Rooted

/-! ### Waiting -/

/-- Root fragments that stand among the drafts, each after all that its predecessor entered. -/
def Draft.Chained (serial : Bool) (drafts : List Draft) : Prop :=
  ∀ e ∈ drafts.zipIdx, e.1.fragment.isRoot = true → e.2 = 0 ∧ e.1.parents = [] ∨
    ∃ q ∈ drafts.zipIdx, q.1.fragment.isRoot = true ∧ q.2 < e.2 ∧
      e.1.parents = rootParents serial (some q.2) e.2

namespace Decomposition
variable {drafts : List Draft}

theorem exists_draft {id : Nat} {f : FetchFragment}
    (h : (ofDrafts drafts).fragments[id]? = some f) :
    ∃ d, (d, id) ∈ drafts.zipIdx ∧ d.fragment = f := by
  rw [ofDrafts, List.getElem?_map] at h
  obtain ⟨d, hd, rfl⟩ := Option.map_eq_some_iff.1 h
  exact ⟨d, List.mem_zipIdx_iff_getElem?.2 hd, rfl⟩

theorem mem_parents_of_waits {d : Draft} {id parent : Nat} (hd : (d, id) ∈ drafts.zipIdx)
    (h : (ofDrafts drafts).Waits id parent) : parent ∈ d.parents := by
  obtain ⟨dep, hdep, rfl, rfl⟩ := h
  obtain ⟨c, hc, hparent, -⟩ := mem_dependencies_ofDrafts.1 hdep
  rw [List.mem_zipIdx_iff_getElem?] at hc hd
  rw [hd] at hc
  cases hc
  exact hparent

/-- A root fragment waits for all fragments of the run before it, whose root fragment waits for all
before those. -/
theorem waits_of_chained (h : Draft.Chained true drafts) {d : Draft} {r : Nat}
    (hd : (d, r) ∈ drafts.zipIdx) (hroot : d.fragment.isRoot = true) :
    ∀ id < r, Relation.TransGen (ofDrafts drafts).Waits r id := by
  induction r using Nat.strong_induction_on generalizing d with
  | h r ih =>
    intro id hid
    cases h _ hd hroot with
    | inl hfirst =>
      have hr : r = 0 := hfirst.1
      omega
    | inr hlater =>
      obtain ⟨q, hq, hqroot, hlt, hparents⟩ := hlater
      have hrun : ∀ k, q.2 ≤ k → k < r → (ofDrafts drafts).Waits r k := by
        intro k hle hk
        have hmem : k ∈ d.parents := by
          rw [hparents]
          exact List.mem_range'.2 ⟨k - q.2, by omega, by omega⟩
        exact waits_ofDrafts hd hmem
      by_cases hbefore : id < q.2
      · exact .head (hrun q.2 (Nat.le_refl _) hlt) (ih q.2 hlt hq hqroot id hbefore)
      · exact .single (hrun id (by omega) hid)

theorem not_waits_of_chained (h : Draft.Chained false drafts) {d : Draft} {r : Nat}
    (hd : (d, r) ∈ drafts.zipIdx) (hroot : d.fragment.isRoot = true) (id : Nat) :
    ¬(ofDrafts drafts).Waits r id := by
  intro hwaits
  have hmem := mem_parents_of_waits hd hwaits
  have hnone : d.parents = [] := by
    cases h _ hd hroot with
    | inl hfirst => exact hfirst.2
    | inr hlater =>
      obtain ⟨q, -, -, -, hparents⟩ := hlater
      exact hparents
  rw [hnone] at hmem
  exact nomatch hmem

end Decomposition

/-! ### Plans -/

namespace Planner
variable {p : Planner} {o : Operation} {d : Decomposition} {plan : Plan}

theorem ordered_of_follows (hd : p.decompose o = .ok d) (hplan : plan.Follows p.index d) :
    plan.Ordered :=
  ⟨fun i n hn => (hplan.node i n hn).id,
    fun _ _ hn _ hid => (dependsOn_supplied hd hplan hn hid).1⟩

/-- What waits for another fragment is one itself. -/
theorem lt_of_waits (hd : p.decompose o = .ok d) {id parent : Nat} (h : d.Waits id parent) :
    id < d.fragments.length := by
  obtain ⟨drafts, rfl, -⟩ := decompose_traced hd
  obtain ⟨dep, hdep, rfl, -⟩ := h
  obtain ⟨c, hc, -⟩ := Decomposition.mem_dependencies_ofDrafts.1 hdep
  exact (List.getElem?_eq_some_iff.1 (Decomposition.fragment?_ofDrafts hc)).1

theorem dependsOn_of_waits (hd : p.decompose o = .ok d) (hplan : plan.Follows p.index d)
    {id parent : Nat} (h : d.Waits id parent) :
    ∃ n, plan.nodes[id]? = some n ∧ parent ∈ n.dependsOn := by
  have hlt : id < plan.nodes.length := hplan.count ▸ lt_of_waits hd h
  have hn := List.getElem?_eq_getElem hlt
  exact ⟨_, hn, (hplan.mem_dependsOn hn).2 h⟩

/-- The root fields of a mutation are resolved one after the other: the root fragments hold them in
their order, and everything in front of a root fragment is done before it. -/
structure SerialRoots (p : Planner) (o : Operation) (d : Decomposition) : Prop where
  fields : d.roots.flatMap (fun f => f.selection.map SelectionNode.bare) =
    o.rootFields.map SelectionNode.bare
  alternate : (d.roots.map (·.source)).IsChain (· ≠ ·)
  waits : ∀ (r : Nat) f, d.fragments[r]? = some f → f.isRoot = true →
    ∀ id < r, Relation.TransGen d.Waits r id
  waves : ∀ plan, p.build o d = .ok plan → ∀ (r : Nat) f, d.fragments[r]? = some f →
    f.isRoot = true → ∀ id < r, (∃ i, plan.InWave id i) ∧ (∃ j, plan.InWave r j) ∧
      ∀ i j, plan.InWave id i → plan.InWave r j → i < j

structure ParallelRoots (p : Planner) (o : Operation) (d : Decomposition) : Prop where
  free : ∀ (r : Nat) f, d.fragments[r]? = some f → f.isRoot = true → ∀ id, ¬d.Waits r id
  apart : (d.roots.map (·.source)).Nodup
  sources : d.roots.map (fun f => some f.source) =
    distinct (o.rootFields.map fun n => (p.index.ownersOf n.onType n.name).head?)
  fields : ∀ f ∈ d.roots, f.selection.map SelectionNode.bare =
    (o.rootFields.filter fun n => (p.index.ownersOf n.onType n.name).head? = some f.source).map
      SelectionNode.bare

theorem waves_of_waits (hd : p.decompose o = .ok d) {r : Nat} {f : FetchFragment}
    (hf : d.fragments[r]? = some f) (hplan : plan.Follows p.index d)
    (hwaits : ∀ id < r, Relation.TransGen d.Waits r id) {id : Nat} (hid : id < r) :
    (∃ i, plan.InWave id i) ∧ (∃ j, plan.InWave r j) ∧
      ∀ i j, plan.InWave id i → plan.InWave r j → i < j := by
  have hordered := ordered_of_follows hd hplan
  have hr : r < plan.nodes.length := hplan.count ▸ (List.getElem?_eq_some_iff.1 hf).1
  have hwave : ∀ {k : Nat}, k < plan.nodes.length → ∃ wave, plan.InWave k wave :=
    hordered.numbered.exists_inWave
  refine ⟨hwave (by omega), hwave hr, fun i j hi hj => ?_⟩
  have hdepends := Relation.TransGen.mono (fun _ _ h => dependsOn_of_waits hd hplan h) _ _
    (hwaits id hid)
  exact hordered.inWave_lt hdepends hj hi

end Planner

section Groups
variable {roots : List (Source × SelectionNode)} {fragments : List FetchFragment}

theorem fields_of_runs
    (h : fragments.map (fun f => (f.source, f.selection.map SelectionNode.bare)) =
    (runs roots).map fun g => (g.1, g.2.map SelectionNode.bare)) :
    fragments.flatMap (fun f => f.selection.map SelectionNode.bare) =
      (roots.map (·.2)).map SelectionNode.bare := by
  have hselections := congrArg (List.map Prod.snd) h
  rw [List.map_map, List.map_map] at hselections
  calc
    fragments.flatMap (fun f => f.selection.map SelectionNode.bare)
        = ((runs roots).map fun g => g.2.map SelectionNode.bare).flatten := by
          rw [List.flatMap_def]
          exact congrArg List.flatten hselections
    _ = ((runs roots).flatMap (·.2)).map SelectionNode.bare := by
          rw [List.map_flatMap, List.flatMap_def]
    _ = (roots.map (·.2)).map SelectionNode.bare := by
          rw [← map_snd_ungroup, ungroup_runs]

theorem fields_of_gather {x : SchemaIndex}
    (howned : ∀ e ∈ roots, (x.ownersOf e.2.onType e.2.name).head? = some e.1)
    {g : Source × List SelectionNode} (hg : g ∈ gather roots) :
    g.2 = (roots.map (·.2)).filter fun n => (x.ownersOf n.onType n.name).head? = some g.1 := by
  rw [items_of_mem_gather hg, List.filter_map]
  have hsame : roots.filter (·.1 = g.1) = roots.filter ((fun n : SelectionNode =>
      decide ((x.ownersOf n.onType n.name).head? = some g.1)) ∘ (·.2)) := by
    refine List.filter_congr fun e he => ?_
    simp [howned e he]
  rw [hsame]

end Groups

namespace Planner

structure RootedIn (p : Planner) (o : Operation) (roots : List (Source × SelectionNode))
    (drafts : List Draft) : Prop where
  fields : roots.map (·.2) = o.rootFields
  owned : ∀ e ∈ roots, (p.index.ownersOf e.2.onType e.2.name).head? = some e.1
  fragments : (Decomposition.ofDrafts drafts).roots.map
      (fun f => (f.source, f.selection.map SelectionNode.bare)) =
    (rootGroups o roots).map fun g => (g.1, g.2.map SelectionNode.bare)
  chained : Draft.Chained (o.kind = .mutation) drafts

theorem decompose_rooted {b : Blueprint} {p : Planner} {o : Operation} {d : Decomposition}
    (hb : b.index = .valid p.index) (h : p.decompose o = .ok d) :
    ∃ roots drafts, d = .ofDrafts drafts ∧ p.RootedIn o roots drafts := by
  cases decomposes_of_ok (complete_rooted hb) h with
  | @mk roots drafts fields owned enters =>
    refine ⟨roots, drafts, rfl, fields, fun e he => ?_, enters.roots, fun e he hroot => ?_⟩
    · obtain ⟨others, howners⟩ := owned e he
      rw [howners]
      rfl
    · cases enters.parents e he hroot with
      | inl hfirst =>
        obtain ⟨hid, hparents⟩ := hfirst
        refine .inl ⟨hid, ?_⟩
        rw [hparents]
        cases decide (o.kind = .mutation) <;> rfl
      | inr hlater => exact .inr hlater

variable {p : Planner} {o : Operation} {roots : List (Source × SelectionNode)}
  {drafts : List Draft}

theorem RootedIn.sources (h : p.RootedIn o roots drafts) :
    (Decomposition.ofDrafts drafts).roots.map (·.source) = (rootGroups o roots).map (·.1) := by
  have hsources := congrArg (List.map Prod.fst) h.fragments
  rw [List.map_map, List.map_map] at hsources
  exact hsources

theorem RootedIn.serial (h : p.RootedIn o roots drafts)
    (hd : p.decompose o = .ok (.ofDrafts drafts)) (hkind : o.kind = .mutation) :
    p.SerialRoots o (.ofDrafts drafts) := by
  have hgroups : rootGroups o roots = runs roots := if_pos hkind
  have hchained := h.chained
  rw [decide_eq_true hkind] at hchained
  have hwaits : ∀ (r : Nat) f, (Decomposition.ofDrafts drafts).fragments[r]? = some f →
      f.isRoot = true → ∀ id < r, Relation.TransGen (Decomposition.ofDrafts drafts).Waits r id := by
    intro r f hf hroot
    obtain ⟨e, he, rfl⟩ := Decomposition.exists_draft hf
    exact Decomposition.waits_of_chained hchained he hroot
  refine ⟨?_, ?_, hwaits, fun plan hplan r f hf hroot id hid => ?_⟩
  · rw [← h.fields]
    exact fields_of_runs (hgroups ▸ h.fragments)
  · rw [h.sources, hgroups]
    exact isChain_runs roots
  · exact waves_of_waits hd hf (build_follows hplan) (hwaits r f hf hroot) hid

theorem RootedIn.parallel (h : p.RootedIn o roots drafts) (hkind : o.kind ≠ .mutation) :
    p.ParallelRoots o (.ofDrafts drafts) := by
  have hgroups : rootGroups o roots = gather roots := if_neg hkind
  have hsources : (Decomposition.ofDrafts drafts).roots.map (·.source) =
      distinct (roots.map (·.1)) := by
    rw [h.sources, hgroups, map_fst_gather]
  have hchained := h.chained
  rw [decide_eq_false hkind] at hchained
  refine ⟨fun r f hf hroot id => ?_, ?_, ?_, fun f hf => ?_⟩
  · obtain ⟨e, he, rfl⟩ := Decomposition.exists_draft hf
    exact Decomposition.not_waits_of_chained hchained he hroot id
  · rw [hsources]
    exact nodup_distinct _
  · have howners : o.rootFields.map (fun n => (p.index.ownersOf n.onType n.name).head?) =
        (roots.map (·.1)).map some := by
      rw [← h.fields, List.map_map, List.map_map]
      exact List.map_congr_left h.owned
    rw [howners, distinct_map fun _ _ => Option.some.inj, ← hsources, List.map_map]
    rfl
  · have hmem : (f.source, f.selection.map SelectionNode.bare) ∈
        (gather roots).map fun g => (g.1, g.2.map SelectionNode.bare) := by
      rw [← hgroups, ← h.fragments]
      exact List.mem_map_of_mem hf
    obtain ⟨g, hg, heq⟩ := List.mem_map.1 hmem
    obtain ⟨hsource, hselection⟩ := Prod.mk.inj heq
    rw [← hselection, ← hsource, ← h.fields, ← fields_of_gather h.owned hg]

end Planner

/-- The root fields of a mutation run one after the other, those of a query all at once. -/
theorem decompose_roots {b : Blueprint} {p : Planner} {o : Operation} {d : Decomposition}
    (hb : b.index = .valid p.index) (h : p.decompose o = .ok d) :
    (o.kind = .mutation → p.SerialRoots o d) ∧ (o.kind ≠ .mutation → p.ParallelRoots o d) := by
  obtain ⟨roots, drafts, rfl, hrooted⟩ := Planner.decompose_rooted hb h
  exact ⟨hrooted.serial h, hrooted.parallel⟩

def clubSchema : Blueprint :=
  ⟨"Query", some "Mutation", none, ["people", "doors", "books"],
    [⟨"Query", [{ graph := "people" }], [⟨"club", .named "String" false, []⟩]⟩,
     ⟨"Mutation", [{ graph := "people" }, { graph := "books" }],
       [⟨"join", .named "Member" false, [{ graph := some "people" }]⟩,
        ⟨"bill", .named "String" false, [{ graph := some "books" }]⟩]⟩,
     ⟨"Member", [{ graph := "people", key := some "id" }, { graph := "doors", key := some "id" }],
       [⟨"id", .named "ID" true, []⟩,
        ⟨"badge", .named "String" false, [{ graph := some "doors" }]⟩]⟩]⟩

def club : Planner := ⟨clubSchema.index.value?.getD ⟨"", none, none, .empty⟩, {}⟩

def clubText : String := "mutation { join { badge } bill again: join { id } }"

/-- The bill is made once the first member has a badge, and the second one joins after that. -/
theorem decompose_roots_club : (club.operationOf clubText).kind = .mutation ∧
    (club.fragmentsOf clubText).fragments.map (·.isRoot) = [true, false, true, true] ∧
    club.SerialRoots (club.operationOf clubText) (club.fragmentsOf clubText) := by
  have hkind : (club.operationOf clubText).kind = .mutation := by decide +kernel
  have hindex : clubSchema.index = .valid club.index :=
    Validated.eq_valid_of_isValid (by decide +kernel) ⟨"", none, none, .empty⟩
  have hdecompose : club.decompose (club.operationOf clubText) = .ok (club.fragmentsOf clubText) :=
    Planner.fragmentsOf_of_isOk (by decide +kernel)
  exact ⟨hkind, by decide +kernel, (decompose_roots hindex hdecompose).1 hkind⟩

end FederatedQuery
