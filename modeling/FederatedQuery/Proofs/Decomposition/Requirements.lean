import FederatedQuery.Proofs.Decomposition.Contents

/-!
Fields that a source resolves only with other fields of their type. What leaves another source for
it receives them. A field that stays below its parent, a root field and a key that is carried do
not, so these have to be fields that their source needs nothing for.
-/
namespace FederatedQuery

def SchemaIndex.demanders (x : SchemaIndex) (type field : String) : List Source :=
  ((x.field? type field).map (·.requires.keys)).getD [] |>.filter fun source =>
    !(x.requiresOf type field source).isEmpty

theorem SchemaIndex.mem_demanders {x : SchemaIndex} {type field : String} {source : Source} :
    source ∈ x.demanders type field ↔ x.requiresOf type field source ≠ [] := by
  rw [demanders, List.mem_filter]
  constructor
  · intro h
    simpa using h.2
  · intro h
    refine ⟨?_, by simpa using h⟩
    unfold requiresOf at h
    cases hfield : x.field? type field with
    | none => simp [hfield] at h
    | some f =>
      cases hrequires : f.requires.find? source with
      | none => simp [hfield, FieldIndex.requiresIn, hrequires] at h
      | some names =>
        obtain ⟨front, behind, hentries, -⟩ := List.lookup_eq_some_iff.1 hrequires
        simp [Table.keys, hentries]

namespace Planner

/-- The source of the fragment receives all that it needs. Fields that it needs something for stand
at the top, and the fragment is entered with what they require. -/
def Honours (p : Planner) (f : FetchFragment) : Prop :=
  (∀ n ∈ f.selection, p.index.requiresOf n.onType n.name f.source ≠ [] → f.isRoot = false ∧
    ∀ k ∈ p.index.requiresOf n.onType n.name f.source, k ∈ f.requiredKeys) ∧
  ∀ q ∈ SelectionSet.allFields f.selection, ∀ n ∈ q.children,
    p.index.requiresOf n.onType n.name f.source = []

instance (p : Planner) (f : FetchFragment) : Decidable (p.Honours f) :=
  inferInstanceAs (Decidable (_ ∧ _))

/-- No source resolves one of the fields, as its own or as a provided one, if it needs something for
a field below. -/
def Parts (p : Planner) (provided : Source → List String) (s : SelectionSet) : Prop :=
  ∀ q ∈ s, ∀ n ∈ q.children, ∀ source ∈ p.index.demanders n.onType n.name,
    q.name ∉ provided source ∧ source ∉ p.index.ownersOf q.onType q.name

instance (p : Planner) (provided : Source → List String) (s : SelectionSet) :
    Decidable (p.Parts provided s) := inferInstanceAs (Decidable (∀ _ ∈ _, _))

structure Detached (p : Planner) (provided : Source → List String) (s : SelectionSet) : Prop where
  top : p.Parts provided s
  below : ∀ q ∈ SelectionSet.allFields s,
    p.Parts (fun source => p.providedBelow source q) q.children
  leaves : ∀ n ∈ SelectionSet.allFields s, n.isTypename = true → n.children = []

structure Separates (p : Planner) (o : Operation) (d : Decomposition) : Prop where
  roots : ∀ n ∈ o.selection, ∀ source ∈ p.index.demanders n.onType n.name,
    (p.index.ownersOf n.onType n.name).head? ≠ some source
  fields : p.Detached (fun _ => []) o.selection
  keys : ∀ f ∈ d.fragments, ∀ k ∈ p.carried f.requiredKeys, p.index.demanders f.onType k = []

instance (p : Planner) (provided : Source → List String) (s : SelectionSet) :
    Decidable (p.Detached provided s) :=
  decidable_of_iff (_ ∧ _ ∧ _) ⟨fun ⟨top, below, leaves⟩ => ⟨top, below, leaves⟩,
    fun ⟨top, below, leaves⟩ => ⟨top, below, leaves⟩⟩

instance (p : Planner) (o : Operation) (d : Decomposition) : Decidable (p.Separates o d) :=
  decidable_of_iff (_ ∧ _ ∧ _) ⟨fun ⟨roots, fields, keys⟩ => ⟨roots, fields, keys⟩,
    fun ⟨roots, fields, keys⟩ => ⟨roots, fields, keys⟩⟩

variable {p : Planner} {provided : Source → List String} {s t : SelectionSet}

namespace Detached

theorem subset (h : p.Detached provided t) (hst : s ⊆ t) : p.Detached (fun _ => []) s := by
  have hall := SelectionSet.allFields_subset hst
  refine ⟨fun q hq n hn source hsource => ?_, fun q hq => h.below q (hall hq),
    fun n hn => h.leaves n (hall hn)⟩
  exact ⟨by simp, (h.top q (hst hq) n hn source hsource).2⟩

theorem tail {n : SelectionNode} (h : p.Detached provided (n :: s)) : p.Detached provided s := by
  have hall := SelectionSet.allFields_subset (List.subset_cons_self n s)
  exact ⟨fun q hq => h.top q (List.mem_cons_of_mem n hq), fun q hq => h.below q (hall hq),
    fun c hc => h.leaves c (hall hc)⟩

theorem children {q : SelectionNode} (h : p.Detached provided s)
    (hq : q ∈ SelectionSet.allFields s) :
    p.Detached (fun source => p.providedBelow source q) q.children := by
  have hall := SelectionSet.allFields_children_subset hq
  exact ⟨h.below q hq, fun r hr => h.below r (hall hr), fun n hn => h.leaves n (hall hn)⟩

/-- A source that resolves a field needs nothing for those below. -/
theorem requires_nil (h : p.Detached provided s) {q n : SelectionNode} {source : Source}
    (hq : q ∈ s)
    (hresolves : q.name ∈ provided source ∨ source ∈ p.index.ownersOf q.onType q.name)
    (hn : n ∈ q.children) : p.index.requiresOf n.onType n.name source = [] := by
  by_contra hrequires
  obtain ⟨hlacks, hforeign⟩ := h.top q hq n hn source (SchemaIndex.mem_demanders.2 hrequires)
  exact hresolves.elim hlacks hforeign

end Detached

theorem Keeps.requires_nil {owed : String → String → Prop} {source : Source} {names : List String}
    (h : p.Keeps owed source names s t) (hs : p.Detached provided s)
    (hnames : names = provided source)
    (hkeys : ∀ type key, owed type key → p.index.requiresOf type key source = []) :
    SelectionSet.Below (fun u => ∀ n ∈ u, p.index.requiresOf n.onType n.name source = []) t := by
  induction h generalizing provided with
  | nil => exact SelectionSet.below_nil _
  | skip _ ih => exact ih hs.tail hnames
  | @typename _ n s t name _ ih =>
    have hleaf : n.children = [] :=
      hs.leaves n (SelectionSet.mem_allFields_of_mem List.mem_cons_self) name
    refine SelectionSet.below_cons.2 ⟨?_, ih hs.tail hnames⟩
    rw [hleaf]
    exact ⟨by simp, SelectionSet.below_nil _⟩
  | @field _ n s t kept children resolves below adds _ ihbelow ihrest =>
    have hchildren := hs.children (SelectionSet.mem_allFields_of_mem List.mem_cons_self)
    have hkept : ∀ m ∈ kept, p.index.requiresOf m.onType m.name source = [] := by
      intro m hm
      obtain ⟨c, hc, hasked⟩ := below.copy hm
      rw [SelectionNode.onType_of_asked hasked, SelectionNode.name_of_asked hasked]
      exact hs.requires_nil List.mem_cons_self (hnames ▸ resolves) hc
    refine SelectionSet.below_cons.2 ⟨⟨?_, ?_⟩, ihrest hs.tail hnames⟩
    · exact adds.forall_mem hkept fun _ type key due => hkeys type key due
    · exact adds.everywhere_below (by simp) (ihbelow hchildren rfl)

theorem FilledWith.requires_nil {owed : String → String → Prop} {fields : SelectionSet}
    {f : FetchFragment} (h : p.FilledWith owed fields f) (hs : p.Detached provided s)
    (hfields : fields ⊆ s)
    (hkeys : ∀ type key, owed type key → p.index.requiresOf type key f.source = []) :
    SelectionSet.Below (fun u => ∀ n ∈ u, p.index.requiresOf n.onType n.name f.source = [])
      f.selection := by
  obtain ⟨-, nodes, hkeeps, hadds⟩ := h
  exact hadds.everywhere_below (by simp) (hkeeps.requires_nil (hs.subset hfields) rfl hkeys)

theorem Separates.owed {o : Operation} {d : Decomposition} (h : p.Separates o d) (source : Source)
    {type key : String} (howes : p.Owes d.fragments type key) :
    p.index.requiresOf type key source = [] := by
  obtain ⟨f, hf, rfl, hkey⟩ := howes
  by_contra hrequires
  have hmem := SchemaIndex.mem_demanders.2 hrequires
  rw [h.keys f hf key hkey] at hmem
  exact nomatch hmem

/-- A field at the top of a fragment is a copy of one that it was filled with, or a key. -/
theorem FilledWith.forall_mem {owed : String → String → Prop} {fields : SelectionSet}
    {f : FetchFragment} {R : String → String → Prop} (h : p.FilledWith owed fields f)
    (hfields : ∀ c ∈ fields, R c.onType c.name) (hkeys : ∀ type key, owed type key → R type key) :
    ∀ n ∈ f.selection, R n.onType n.name := by
  obtain ⟨-, nodes, hkeeps, hadds⟩ := h
  refine hadds.forall_mem (fun n hn => ?_) fun _ type key due => hkeys type key due
  obtain ⟨c, hc, hasked⟩ := hkeeps.copy hn
  rw [SelectionNode.onType_of_asked hasked, SelectionNode.name_of_asked hasked]
  exact hfields c hc

theorem Separates.honours {o : Operation} {d : Decomposition} (h : p.Separates o d)
    (hd : p.decompose o = .ok d) : ∀ f ∈ d.fragments, p.Honours f := by
  intro f hf
  have howed : ∀ type key, p.Owes d.fragments type key →
      p.index.requiresOf type key f.source = [] := fun _ _ howes => h.owed f.source howes
  cases decompose_fills hd f hf with
  | inl hroot =>
    obtain ⟨-, fields, hfields, hfilled⟩ := hroot
    constructor
    · -- a root field has its preferred owner for a source, which needs nothing for it
      have hnone : ∀ n ∈ f.selection, p.index.requiresOf n.onType n.name f.source = [] := by
        refine hfilled.forall_mem (fun c hc => ?_) howed
        by_contra hrequires
        obtain ⟨others, howners⟩ := hfilled.preferred c hc
        refine h.roots c (hfields.subset hc) f.source (SchemaIndex.mem_demanders.2 hrequires) ?_
        rw [howners]
        rfl
      exact fun n hn hrequires => absurd (hnone n hn) hrequires
    · exact hfilled.requires_nil h.fields hfields.subset howed
  | inr hbelow =>
    obtain ⟨q, fields, hq, hfields, hrequires, hfilled⟩ := hbelow
    have hq : q ∈ SelectionSet.allFields o.selection := List.mem_map_of_mem hq
    constructor
    · have hreceived : ∀ n ∈ f.selection, ∀ k ∈ p.index.requiresOf n.onType n.name f.source,
          k ∈ f.requiredKeys := by
        refine hfilled.forall_mem (R := fun type field => ∀ k ∈
          p.index.requiresOf type field f.source, k ∈ f.requiredKeys) (fun c hc => ?_) ?_
        · exact (hrequires c hc).2
        · intro type key howes
          rw [howed type key howes]
          exact fun k hk => nomatch hk
      intro n hn hsome
      obtain ⟨k, hk⟩ := List.exists_mem_of_ne_nil _ hsome
      have hkeys : f.requiredKeys ≠ [] := List.ne_nil_of_mem (hreceived n hn k hk)
      exact ⟨by simpa [FetchFragment.isRoot] using hkeys, hreceived n hn⟩
    · exact hfilled.requires_nil (h.fields.children hq) hfields.subset howed

end Planner

/-- What leaves a source for another one receives all that is required there. If no source needs
something for one of its root fields, for a field below one that it resolves, or for a key that is
carried, then no source is ever asked for a field without what it needs. -/
theorem decompose_honours_requires {p : Planner} {o : Operation} {d : Decomposition}
    (h : p.decompose o = .ok d) :
    (∀ f ∈ d.fragments, f.isRoot = false → ∀ n ∈ f.selection, n.isHidden = false →
      ∀ k ∈ p.index.requiresOf n.onType n.name f.source, k ∈ f.requiredKeys) ∧
    (p.Separates o d → ∀ f ∈ d.fragments, p.Honours f) := by
  constructor
  · intro f hf hentered n hn hvisible
    obtain ⟨q, fields, -, -, hrequires, hfilled⟩ := Planner.decompose_fills_entered h hf hentered
    obtain ⟨c, hc, hasked⟩ := hfilled.copy hn hvisible
    rw [SelectionNode.onType_of_asked hasked, SelectionNode.name_of_asked hasked]
    exact (hrequires c hc).2
  · exact fun hseparates => hseparates.honours h

/-- In the shop, `shipping` receives the weights of products that `reviews` holds. -/
theorem decompose_honours_requires_shop : shop.Separates shopQuery shopFragments ∧
    ∀ f ∈ shopFragments.fragments, shop.Honours f := by
  have hseparates : shop.Separates shopQuery shopFragments := by decide +kernel
  exact ⟨hseparates, (decompose_honours_requires shop_decompose).2 hseparates⟩

def depotSchema : Blueprint :=
  ⟨"Query", none, none, ["products", "shipping"],
    [⟨"Query", [{ graph := "shipping" }], [⟨"product", .named "Product" false, []⟩]⟩,
     ⟨"Product", [{ graph := "products", key := some "upc" },
         { graph := "shipping", key := some "upc" }],
       [⟨"upc", .named "String" true, []⟩,
        ⟨"weight", .named "Int" false, [{ graph := some "products" },
          { graph := some "shipping", external := some true }]⟩,
        ⟨"estimate", .named "Int" false,
          [{ graph := some "shipping", requires := some "weight" }]⟩]⟩]⟩

def depot : Planner := ⟨depotSchema.index.value?.getD ⟨"", none, none, .empty⟩, {}⟩

def depotText : String := "{ product { estimate } }"

/-- The estimate stays with its product, so `shipping` has to make it without the weight. -/
theorem depot_ignores_requirement : depotSchema.index.isValid = true ∧
    Operation.parse depotText none depot.index = .ok (depot.operationOf depotText) ∧
    depot.decompose (depot.operationOf depotText) = .ok (depot.fragmentsOf depotText) ∧
    ∃ f ∈ (depot.fragmentsOf depotText).fragments, ¬depot.Honours f :=
  ⟨by decide +kernel, Planner.operationOf_of_isOk (by decide +kernel),
    Planner.fragmentsOf_of_isOk (by decide +kernel), by decide +kernel⟩

end FederatedQuery
