import FederatedQuery.Decomposition.Split
import FederatedQuery.Proofs.Grouping
import FederatedQuery.Proofs.Selection

/-!
What a successful decomposition consists of. Completing a field either copies it or splits its
sub-selection; a split routes the children, enters a fragment for every group that leaves, and adds
the keys. The relations below hold the steps of such a run without the error handling. They are
over an arbitrary relation `C` between a field and what it is completed to, so they say what one
step makes of the fields completed before.
-/
namespace FederatedQuery

theorem bind_eq_ok {ε α β : Type} {x : Except ε α} {f : α → Except ε β} {b : β} :
    x >>= f = .ok b ↔ ∃ a, x = .ok a ∧ f a = .ok b := by
  cases x <;> simp [bind, Except.bind]

/-- What a field, completed at a site with drafts numbered from the number on, may become. -/
abbrev Completion := Site → (next : Nat) → SelectionNode → SelectionNode → List Draft → Prop

abbrev Group := (Source × String) × List SelectionNode

def Site.entry (site : Site) (id parent : Nat) (source : Source) (type : String)
    (keys : List String) (nodes : List SelectionNode) (inner : List Draft) : Entry :=
  ⟨id, parent, ⟨source, type, nodes, keys, site.path⟩, inner⟩

inductive CompletesAll (C : Completion) (site : Site) :
    Nat → List SelectionNode → List SelectionNode → List Draft → Prop
  | nil (next : Nat) : CompletesAll C site next [] [] []
  | cons {next : Nat} {n m : SelectionNode} {ns ms : List SelectionNode} {drafts more : List Draft}
      (first : C site next n m drafts)
      (rest : CompletesAll C site (next + drafts.length) ns ms more) :
      CompletesAll C site next (n :: ns) (m :: ms) (drafts ++ more)

inductive Routes (C : Completion) (p : Planner) (site : Site) (provided : List String) :
    Nat → List SelectionNode → List SelectionNode → List ((Source × String) × SelectionNode) →
      List Draft → Prop
  | nil (next : Nat) : Routes C p site provided next [] [] [] []
  | typename {next : Nat} {n : SelectionNode} {ns kept : List SelectionNode}
      {leaving : List ((Source × String) × SelectionNode)} {drafts : List Draft}
      (name : n.isTypename = true) (rest : Routes C p site provided next ns kept leaving drafts) :
      Routes C p site provided next (n :: ns) (n :: kept) leaving drafts
  | stays {next : Nat} {n m : SelectionNode} {ns kept : List SelectionNode}
      {leaving : List ((Source × String) × SelectionNode)} {drafts more : List Draft}
      (resolves : n.name ∈ provided ∨ site.source ∈ p.index.ownersOf n.onType n.name)
      (first : C site next n m drafts)
      (rest : Routes C p site provided (next + drafts.length) ns kept leaving more) :
      Routes C p site provided next (n :: ns) (m :: kept) leaving (drafts ++ more)
  | leaves {next : Nat} {n : SelectionNode} {ns kept : List SelectionNode}
      {leaving : List ((Source × String) × SelectionNode)} {drafts : List Draft}
      {owner : Source} {others : List Source}
      (lacks : n.name ∉ provided) (foreign : site.source ∉ p.index.ownersOf n.onType n.name)
      (owned : p.index.ownersOf n.onType n.name = owner :: others)
      (rest : Routes C p site provided next ns kept leaving drafts) :
      Routes C p site provided next (n :: ns) kept (((owner, n.onType), n) :: leaving) drafts

/-- Fragments entered at a site for groups of fields. The entries made before are `known`; one of
them that was entered from the site itself may be the base of a later one. -/
inductive Enters (C : Completion) (p : Planner) (site : Site) :
    List Entry → Nat → List Group → List Entry → Prop
  | nil (known : List Entry) (next : Nat) : Enters C p site known next [] []
  | direct {known : List Entry} {next : Nat} {source : Source} {type : String}
      {fields nodes : List SelectionNode} {keys : List String} {inner : List Draft}
      {groups : List Group} {entries : List Entry}
      (hop : p.index.hop type site.source source (fields.map (·.name)) = .ok (.direct keys))
      (fill : CompletesAll C ⟨source, next, site.path⟩ (next + 1) fields nodes inner)
      (rest : Enters C p site (site.entry next site.id source type keys nodes inner :: known)
        (next + (inner.length + 1)) groups entries) :
      Enters C p site known next (((source, type), fields) :: groups)
        (site.entry next site.id source type keys nodes inner :: entries)
  /-- Over a base that was entered before. -/
  | beyond {known : List Entry} {next : Nat} {source : Source} {type : String}
      {fields nodes : List SelectionNode} {baseKeys keys : List String} {inner : List Draft}
      {groups : List Group} {entries : List Entry} {b : Entry}
      (hop : p.index.hop type site.source source (fields.map (·.name)) =
        .ok (.bridged b.fragment.source baseKeys keys))
      (base : b ∈ known) (parent : b.parent = site.id) (same : b.fragment.onType = type)
      (fill : CompletesAll C ⟨source, next, site.path⟩ (next + 1) fields nodes inner)
      (rest : Enters C p site (site.entry next b.id source type keys nodes inner :: known)
        (next + (inner.length + 1)) groups entries) :
      Enters C p site known next (((source, type), fields) :: groups)
        (site.entry next b.id source type keys nodes inner :: entries)
  /-- Over a base that is entered for the purpose. -/
  | bridged {known : List Entry} {next : Nat} {source base : Source} {type : String}
      {fields nodes : List SelectionNode} {baseKeys keys : List String} {inner : List Draft}
      {groups : List Group} {entries : List Entry}
      (hop : p.index.hop type site.source source (fields.map (·.name)) =
        .ok (.bridged base baseKeys keys))
      (fill : CompletesAll C ⟨source, next + 1, site.path⟩ (next + 1 + 1) fields nodes inner)
      (rest : Enters C p site (site.entry (next + 1) next source type keys nodes inner ::
          site.entry next site.id base type baseKeys [] [] :: known)
        (next + 1 + (inner.length + 1)) groups entries) :
      Enters C p site known next (((source, type), fields) :: groups)
        (site.entry next site.id base type baseKeys [] [] ::
          site.entry (next + 1) next source type keys nodes inner :: entries)

inductive Splits (C : Completion) (p : Planner) (site : Site) (enclosing : String)
    (provided place : List String) (children : List SelectionNode) (next : Nat) :
    List SelectionNode → List Draft → Prop
  | mk {kept : List SelectionNode} {leaving : List ((Source × String) × SelectionNode)}
      {drafts : List Draft} {groups : List Group} {entries : List Entry}
      (routes : Routes C p site provided next children kept leaving drafts)
      (grouped : groups.Perm (gather leaving))
      (enters : Enters C p site [] (next + drafts.length) groups entries) :
      Splits C p site enclosing provided place children next
        (p.carry place entries site.id (some enclosing) kept)
        (drafts ++ (entries.map (p.carryEntry place entries)).flatMap Entry.drafts)

def rootParents (serial : Bool) (previous? : Option Nat) (next : Nat) : List Nat :=
  match serial, previous? with
  | true, some start => List.range' start (next - start)
  | _, _ => []

theorem lt_of_mem_rootParents {next : Nat} {serial : Bool} {previous? : Option Nat} {id : Nat}
    (h : id ∈ rootParents serial previous? next) : id < next := by
  unfold rootParents at h
  split at h
  · obtain ⟨i, hi, rfl⟩ := List.mem_range'.1 h
    omega
  · exact nomatch h

inductive EntersRoots (C : Completion) (serial : Bool) (rootType : String) :
    Option Nat → Nat → List (Source × List SelectionNode) → List Draft → Prop
  | nil (previous? : Option Nat) (next : Nat) : EntersRoots C serial rootType previous? next [] []
  | cons {previous? : Option Nat} {next : Nat} {source : Source}
      {fields nodes : List SelectionNode} {inner more : List Draft}
      {groups : List (Source × List SelectionNode)}
      (fill : CompletesAll C ⟨source, next, .root⟩ (next + 1) fields nodes inner)
      (rest : EntersRoots C serial rootType (some next) (next + 1 + inner.length) groups more) :
      EntersRoots C serial rootType previous? next ((source, fields) :: groups)
        (⟨⟨source, rootType, nodes, [], .root⟩, rootParents serial previous? next⟩ :: inner ++ more)

def rootGroups (o : Operation) (roots : List (Source × SelectionNode)) :
    List (Source × List SelectionNode) :=
  if o.kind = .mutation then runs roots else gather roots

theorem ungroup_rootGroups_perm (o : Operation) (roots : List (Source × SelectionNode)) :
    (ungroup (rootGroups o roots)).Perm roots := by
  unfold rootGroups
  split
  · rw [ungroup_runs]
  · exact ungroup_gather_perm roots

theorem ne_nil_of_mem_rootGroups {o : Operation} {roots : List (Source × SelectionNode)}
    {g : Source × List SelectionNode} (h : g ∈ rootGroups o roots) : g.2 ≠ [] := by
  unfold rootGroups at h
  split at h
  · exact ne_nil_of_mem_runs g h
  · exact ne_nil_of_mem_gather g h

theorem sublist_roots_of_mem_rootGroups {o : Operation} {roots : List (Source × SelectionNode)}
    {g : Source × List SelectionNode} (h : g ∈ rootGroups o roots) :
    g.2.Sublist (roots.map (·.2)) := by
  unfold rootGroups at h
  split at h
  · exact sublist_of_mem_runs h
  · exact sublist_of_mem_gather h

theorem sublist_of_mem_rootGroups {o : Operation} {roots : List (Source × SelectionNode)}
    {g : Source × List SelectionNode}
    (hroots : roots.map (·.2) = o.selection.filter (!·.isTypename)) (h : g ∈ rootGroups o roots) :
    g.2.Sublist o.selection := by
  have hsublist : (roots.map (·.2)).Sublist o.selection := hroots ▸ List.filter_sublist
  exact (sublist_roots_of_mem_rootGroups h).trans hsublist

inductive Decomposes (C : Completion) (p : Planner) (o : Operation) : Decomposition → Prop
  | mk {roots : List (Source × SelectionNode)} {drafts : List Draft}
      (fields : roots.map (·.2) = o.selection.filter (!·.isTypename))
      (owned : ∀ e ∈ roots, ∃ others, p.index.ownersOf e.2.onType e.2.name = e.1 :: others)
      (enters : EntersRoots C (o.kind = .mutation) o.rootType none 0 (rootGroups o roots) drafts) :
      Decomposes C p o (.ofDrafts drafts)

theorem Routes.leaving_sublist {C : Completion} {p : Planner} {site : Site}
    {provided : List String} {next : Nat} {ns kept : List SelectionNode}
    {leaving : List ((Source × String) × SelectionNode)} {drafts : List Draft}
    (h : Routes C p site provided next ns kept leaving drafts) :
    (leaving.map (·.2)).Sublist ns := by
  induction h with
  | nil => exact .slnil
  | typename _ _ ih => exact ih.cons _
  | stays _ _ _ ih => exact ih.cons _
  | leaves _ _ _ _ ih => exact ih.cons_cons _

theorem Routes.group_sublist {C : Completion} {p : Planner} {site : Site}
    {provided : List String} {next : Nat} {ns kept : List SelectionNode}
    {leaving : List ((Source × String) × SelectionNode)} {drafts : List Draft} {g : Group}
    (h : Routes C p site provided next ns kept leaving drafts) (hg : g ∈ gather leaving) :
    g.2.Sublist ns :=
  (sublist_of_mem_gather hg).trans h.leaving_sublist

structure Planner.Departs (p : Planner) (source target : Source) (provided : List String)
    (n : SelectionNode) : Prop where
  lacks : n.name ∉ provided
  foreign : source ∉ p.index.ownersOf n.onType n.name
  owned : ∃ others, p.index.ownersOf n.onType n.name = target :: others

theorem Planner.Departs.of_asked {p : Planner} {source target : Source} {provided : List String}
    {n m : SelectionNode} (h : p.Departs source target provided n) (hm : m.asked = n.asked) :
    p.Departs source target provided m := by
  have hname := SelectionNode.name_of_asked hm
  have htype := SelectionNode.onType_of_asked hm
  obtain ⟨lacks, foreign, owned⟩ := h
  rw [← hname, ← htype] at foreign owned
  exact ⟨hname ▸ lacks, foreign, owned⟩

theorem Planner.Departs.ne {p : Planner} {source target : Source} {provided : List String}
    {n : SelectionNode} (h : p.Departs source target provided n) : source ≠ target := by
  intro heq
  obtain ⟨others, howned⟩ := h.owned
  have hforeign := h.foreign
  rw [howned, heq] at hforeign
  exact hforeign List.mem_cons_self

theorem Routes.group_departs {C : Completion} {p : Planner} {site : Site}
    {provided : List String} {next : Nat} {ns kept : List SelectionNode}
    {leaving : List ((Source × String) × SelectionNode)} {drafts : List Draft} {g : Group}
    (h : Routes C p site provided next ns kept leaving drafts) (hg : g ∈ gather leaving) :
    ∀ n ∈ g.2, n.onType = g.1.2 ∧ p.Departs site.source g.1.1 provided n := by
  have hall : ∀ e ∈ leaving, e.2.onType = e.1.2 ∧ p.Departs site.source e.1.1 provided e.2 := by
    clear hg
    induction h with
    | nil => simp
    | typename _ _ ih => exact ih
    | stays _ _ _ ih => exact ih
    | leaves lacks foreign owned _ ih =>
      exact List.forall_mem_cons.2 ⟨⟨rfl, lacks, foreign, _, owned⟩, ih⟩
  intro n hn
  have hmem : (g.1, n) ∈ ungroup (gather leaving) := mem_ungroup.2 ⟨g, hg, rfl, hn⟩
  exact hall _ ((ungroup_gather_perm leaving).subset hmem)

theorem Enters.append {C : Completion} {p : Planner} {site : Site} {known : List Entry}
    {next : Nat} {groups more : List Group} {entries others : List Entry}
    (h : Enters C p site known next groups entries)
    (h' : Enters C p site (entries.reverse ++ known)
      (entries.foldl (fun next e => next + e.size) next) more others) :
    Enters C p site known next (groups ++ more) (entries ++ others) := by
  induction h with
  | nil => simpa using h'
  | direct hop fill _ ih => exact .direct hop fill (ih (by simpa [Site.entry, Entry.size] using h'))
  | beyond hop base parent same fill _ ih =>
    exact .beyond hop base parent same fill (ih (by simpa [Site.entry, Entry.size] using h'))
  | bridged hop fill _ ih =>
    exact .bridged hop fill (ih (by simpa [Site.entry, Entry.size] using h'))

inductive MadeFor (C : Completion) (p : Planner) (site : Site) (bases : List Entry) (g : Group) :
    Entry → Prop
  | direct {id : Nat} {keys : List String} {nodes : List SelectionNode} {inner : List Draft}
      (hop : p.index.hop g.1.2 site.source g.1.1 (g.2.map (·.name)) = .ok (.direct keys))
      (fill : CompletesAll C ⟨g.1.1, id, site.path⟩ (id + 1) g.2 nodes inner) :
      MadeFor C p site bases g (site.entry id site.id g.1.1 g.1.2 keys nodes inner)
  | base {id : Nat} {source : Source} {baseKeys keys : List String}
      (hop : p.index.hop g.1.2 site.source g.1.1 (g.2.map (·.name)) =
        .ok (.bridged source baseKeys keys)) :
      MadeFor C p site bases g (site.entry id site.id source g.1.2 baseKeys [] [])
  | beyond {id : Nat} {b : Entry} {baseKeys keys : List String} {nodes : List SelectionNode}
      {inner : List Draft}
      (hop : p.index.hop g.1.2 site.source g.1.1 (g.2.map (·.name)) =
        .ok (.bridged b.fragment.source baseKeys keys))
      (mem : b ∈ bases) (parent : b.parent = site.id) (same : b.fragment.onType = g.1.2)
      (place : b.fragment.providedPath = site.path) (earlier : b.id < id)
      (fill : CompletesAll C ⟨g.1.1, id, site.path⟩ (id + 1) g.2 nodes inner) :
      MadeFor C p site bases g (site.entry id b.id g.1.1 g.1.2 keys nodes inner)

theorem MadeFor.mono {C : Completion} {p : Planner} {site : Site} {bases more : List Entry}
    {g : Group} {e : Entry} (h : MadeFor C p site bases g e) (hb : bases ⊆ more) :
    MadeFor C p site more g e := by
  cases h with
  | direct hop fill => exact .direct hop fill
  | base hop => exact .base hop
  | beyond hop mem parent same place earlier fill =>
    exact .beyond hop (hb mem) parent same place earlier fill

theorem MadeFor.path {C : Completion} {p : Planner} {site : Site} {bases : List Entry} {g : Group}
    {e : Entry} (h : MadeFor C p site bases g e) : e.fragment.providedPath = site.path := by
  cases h with
  | direct hop fill => rfl
  | base hop => rfl
  | beyond hop mem parent same place earlier fill => rfl

/-- An entry is filled with the fields of its group, but for a base, which is empty. -/
theorem MadeFor.filled {C : Completion} {p : Planner} {site : Site} {bases : List Entry} {g : Group}
    {e : Entry} (h : MadeFor C p site bases g e) :
    (e.fragment.selection = [] ∧ e.inner = []) ∨
      CompletesAll C ⟨e.fragment.source, e.id, e.fragment.providedPath⟩ (e.id + 1) g.2
        e.fragment.selection e.inner := by
  cases h with
  | direct hop fill => exact .inr fill
  | base hop => exact .inl ⟨rfl, rfl⟩
  | beyond hop mem parent same place earlier fill => exact .inr fill

theorem MadeFor.parent_lt {C : Completion} {p : Planner} {site : Site} {bases : List Entry}
    {g : Group} {e : Entry} (h : MadeFor C p site bases g e) (hlt : site.id < e.id) :
    e.parent < e.id := by
  cases h with
  | direct hop fill => exact hlt
  | base hop => exact hlt
  | beyond hop mem parent same place earlier fill => exact earlier

def Site.Before (site : Site) (next : Nat) (entries : List Entry) : Prop :=
  ∀ e ∈ entries, e.id < next ∧ e.fragment.providedPath = site.path

theorem Site.Before.cons {site : Site} {next later id parent : Nat} {known : List Entry}
    {source : Source} {type : String} {keys : List String} {nodes : List SelectionNode}
    {inner : List Draft} (h : site.Before next known) (hnext : next ≤ later) (hid : id < later) :
    site.Before later (site.entry id parent source type keys nodes inner :: known) := by
  intro e he
  cases List.mem_cons.1 he with
  | inl heq =>
    subst heq
    exact ⟨hid, rfl⟩
  | inr he =>
    obtain ⟨hlt, hpath⟩ := h e he
    exact ⟨by omega, hpath⟩

theorem Enters.made {C : Completion} {p : Planner} {site : Site} {known : List Entry} {next : Nat}
    {groups : List Group} {entries : List Entry}
    (h : Enters C p site known next groups entries) (hknown : site.Before next known) :
    ∀ e ∈ entries, next ≤ e.id ∧ ∃ g ∈ groups, MadeFor C p site (entries ++ known) g e := by
  -- a longer list of groups and of bases, a smaller number to start from
  have hwiden : ∀ {next later : Nat} {groups : List Group} {g : Group} {bases more : List Entry}
      {e : Entry}, (later ≤ e.id ∧ ∃ g ∈ groups, MadeFor C p site bases g e) → next ≤ later →
      bases ⊆ more → next ≤ e.id ∧ ∃ g' ∈ g :: groups, MadeFor C p site more g' e := by
    intro next later groups g bases more e he hle hb
    obtain ⟨hlater, g', hg', hmade⟩ := he
    exact ⟨by omega, g', List.mem_cons_of_mem g hg', hmade.mono hb⟩
  induction h with
  | nil => simp
  | @direct known next _ _ _ _ _ inner _ _ hop fill _ ih =>
    have hrest := ih (hknown.cons (by omega) (by omega))
    refine List.forall_mem_cons.2 ⟨⟨Nat.le_refl next, _, List.mem_cons_self, .direct hop fill⟩, ?_⟩
    exact fun e he => hwiden (hrest e he) (by omega) (by simp)
  | @beyond known next _ _ _ _ _ _ inner _ _ b hop base parent same fill _ ih =>
    obtain ⟨hlt, hplace⟩ := hknown b base
    have hrest := ih (hknown.cons (by omega) (by omega))
    refine List.forall_mem_cons.2 ⟨⟨Nat.le_refl next, _, List.mem_cons_self,
      .beyond hop (by simp [base]) parent same hplace hlt fill⟩, ?_⟩
    exact fun e he => hwiden (hrest e he) (by omega) (by simp)
  | @bridged known next _ base type _ _ baseKeys _ inner _ _ hop fill _ ih =>
    have hrest := ih ((hknown.cons (Nat.le_succ next) (Nat.lt_succ_self next)).cons
      (by omega) (by omega))
    refine List.forall_mem_cons.2 ⟨⟨Nat.le_refl next, _, List.mem_cons_self, .base hop⟩,
      List.forall_mem_cons.2 ⟨⟨Nat.le_succ next, _, List.mem_cons_self, ?_⟩, ?_⟩⟩
    · exact .beyond (b := site.entry next site.id base type baseKeys [] []) hop (by simp) rfl rfl
        rfl (Nat.lt_succ_self next) fill
    · exact fun e he => hwiden (hrest e he) (by omega) fun b hb => by
        simp only [List.mem_append, List.mem_cons] at hb ⊢
        tauto

def Entry.Numbered : Nat → List Entry → Prop
  | _, [] => True
  | next, e :: entries => e.id = next ∧ Numbered (next + e.size) entries

theorem Entry.Numbered.zipIdx_drafts {next : Nat} {entries : List Entry}
    (h : Entry.Numbered next entries) :
    (entries.flatMap Entry.drafts).zipIdx next = entries.flatMap fun e => e.drafts.zipIdx e.id := by
  induction entries generalizing next with
  | nil => rfl
  | cons e entries ih =>
    obtain ⟨rfl, h⟩ := h
    rw [List.flatMap_cons, List.flatMap_cons, List.zipIdx_append, ← ih h]
    rfl

theorem Entry.Numbered.carry {next : Nat} {entries : List Entry} (h : Entry.Numbered next entries)
    (p : Planner) (place : List String) (all : List Entry) :
    Entry.Numbered next (entries.map (p.carryEntry place all)) := by
  induction entries generalizing next with
  | nil => trivial
  | cons e entries ih => exact ⟨h.1, ih h.2⟩

theorem Enters.numbered {C : Completion} {p : Planner} {site : Site} {known : List Entry}
    {next : Nat} {groups : List Group} {entries : List Entry}
    (h : Enters C p site known next groups entries) : Entry.Numbered next entries := by
  induction h with
  | nil => trivial
  | direct _ _ _ ih => exact ⟨rfl, ih⟩
  | beyond _ _ _ _ _ _ ih => exact ⟨rfl, ih⟩
  | bridged _ _ _ ih => exact ⟨rfl, rfl, ih⟩

theorem Entry.Numbered.id_le {next : Nat} {entries : List Entry} (h : Entry.Numbered next entries) :
    ∀ e ∈ entries, next ≤ e.id := by
  induction entries generalizing next with
  | nil => simp
  | cons e entries ih =>
    obtain ⟨hid, hrest⟩ := h
    refine List.forall_mem_cons.2 ⟨Nat.le_of_eq hid.symm, fun c hc => ?_⟩
    have hle := ih hrest c hc
    omega

theorem Entry.Numbered.eq_of_id {next : Nat} {entries : List Entry}
    (h : Entry.Numbered next entries) {e c : Entry} (he : e ∈ entries) (hc : c ∈ entries)
    (hid : e.id = c.id) : e = c := by
  induction entries generalizing next with
  | nil => exact nomatch he
  | cons a entries ih =>
    obtain ⟨ha, hrest⟩ := h
    have hlater : ∀ b ∈ entries, a.id < b.id := by
      intro b hb
      have hle := hrest.id_le b hb
      have hsize : 0 < a.size := Nat.succ_pos _
      omega
    cases List.mem_cons.1 he with
    | inl hea =>
      cases List.mem_cons.1 hc with
      | inl hca => rw [hea, hca]
      | inr hc =>
        have hlt := hlater c hc
        rw [hea] at hid
        omega
    | inr he =>
      cases List.mem_cons.1 hc with
      | inl hca =>
        have hlt := hlater e he
        rw [hca] at hid
        omega
      | inr hc => exact ih hrest he hc

end FederatedQuery
