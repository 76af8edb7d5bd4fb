import FederatedQuery.Proofs.SchemaIndex.Built

/-!
What an entry point is made of. The key is that of the first declaration of its source that carries
one, the root field and the arguments are those of the last that can be resolved. If a source
declares a type several times these may be two declarations.
-/
namespace FederatedQuery

def JoinType.keyFields (j : JoinType) : List String := (j.key.map Text.words).getD []

structure JoinType.Grants (j : JoinType) (e : EntryPoint) : Prop where
  resolvable : j.resolvable = true
  keyed : j.keyFields ≠ []
  same : e = TypeDefinition.entrance j j.keyFields

namespace TypeDefinition
variable {t : TypeDefinition} {source : Source}

def firstKey? (t : TypeDefinition) (source : Source) : Option (List String) :=
  (t.joinTypes.find? fun j => j.graph = source && !j.keyFields.isEmpty).map (·.keyFields)

def lastResolvable? (t : TypeDefinition) (source : Source) : Option JoinType :=
  t.joinTypes.reverse.find? fun j => j.graph = source && j.resolvable

def KeysAgree (t : TypeDefinition) (source : Source) : Prop :=
  ∀ key j, t.firstKey? source = some key → t.lastResolvable? source = some j → j.keyFields = key

theorem firstKey?_isSome : (t.firstKey? source).isSome = true ↔
    ∃ j ∈ t.joinTypes, j.graph = source ∧ j.keyFields ≠ [] := by
  simp [firstKey?, List.find?_isSome]

theorem mem_of_firstKey? {key : List String} (h : t.firstKey? source = some key) :
    ∃ j ∈ t.joinTypes, j.graph = source ∧ j.keyFields = key ∧ key ≠ [] := by
  obtain ⟨j, hj, rfl⟩ := Option.map_eq_some_iff.1 h
  have hfound := List.find?_some hj
  simp only [Bool.and_eq_true, decide_eq_true_eq, Bool.not_eq_true',
    List.isEmpty_eq_false_iff] at hfound
  exact ⟨j, List.mem_of_find?_eq_some hj, hfound.1, rfl, hfound.2⟩

theorem mem_of_lastResolvable? {j : JoinType} (h : t.lastResolvable? source = some j) :
    j ∈ t.joinTypes ∧ j.graph = source ∧ j.resolvable = true := by
  have hfound := List.find?_some h
  simp only [Bool.and_eq_true, decide_eq_true_eq] at hfound
  exact ⟨List.mem_reverse.1 (List.mem_of_find?_eq_some h), hfound⟩

theorem lastResolvable?_isSome : (t.lastResolvable? source).isSome = true ↔
    ∃ j ∈ t.joinTypes, j.graph = source ∧ j.resolvable = true := by
  simp [lastResolvable?, List.find?_isSome]

/-- A source that declares the type once has nothing to disagree about. -/
theorem keysAgree_of_unique (h : ∀ j ∈ t.joinTypes, ∀ k ∈ t.joinTypes,
    j.graph = source → k.graph = source → j = k) : t.KeysAgree source := by
  intro key j hkey hj
  obtain ⟨k, hk, hgraph, rfl, -⟩ := mem_of_firstKey? hkey
  obtain ⟨hmem, hgraph', -⟩ := mem_of_lastResolvable? hj
  rw [h j hmem k hk hgraph' hgraph]

theorem keySets_eq (t : TypeDefinition) : t.keySets =
    (t.joinTypes.filter (!·.keyFields.isEmpty)).map fun j => (j.graph, j.keyFields) := by
  rw [keySets, keyDeclarations]
  induction t.joinTypes with
  | nil => rfl
  | cons j js ih =>
    cases hkey : j.key with
    | none =>
      have hnone : j.keyFields = [] := by simp [JoinType.keyFields, hkey]
      rw [List.filterMap_cons, List.filter_cons]
      simpa [hkey, hnone] using ih
    | some key =>
      have hsome : j.keyFields = Text.words key := by simp [JoinType.keyFields, hkey]
      rw [List.filterMap_cons, List.filter_cons]
      by_cases hwords : Text.words key = []
      · simpa [hkey, hsome, hwords] using ih
      · simpa [hkey, hsome, hwords] using ih

theorem lookup_keySets_eq (t : TypeDefinition) (source : Source) :
    t.keySets.lookup source = t.firstKey? source := by
  rw [keySets_eq, Table.lookup_map, List.find?_filter, firstKey?]
  simp only [Bool.decide_and, Bool.and_comm, Bool.not_eq_true', decide_eq_true_eq,
    Bool.decide_eq_false]

/-- Of the entrances of a source the last one counts. -/
theorem find?_entryPoints (t : TypeDefinition) (source : Source) :
    t.typeIndex.entryPoints.find? source =
      (t.firstKey? source).bind fun key => (t.lastResolvable? source).map (entrance · key) := by
  have hcounts : ∀ j : JoinType, ((if j.resolvable = true then
      (t.keySets.lookup j.graph).map fun key => (j, key) else none).any
        fun e => decide (e.1.graph = source)) =
      ((t.firstKey? source).isSome && (decide (j.graph = source) && j.resolvable)) := by
    intro j
    by_cases hgraph : j.graph = source
    · cases hkey : t.firstKey? source <;> cases j.resolvable <;>
        simp [hgraph, lookup_keySets_eq, hkey]
    · cases j.resolvable <;> simp [hgraph, Option.any_map]
  rw [typeIndex, Table.find?_ofList_map (fun e : JoinType × List String => e.1.graph),
    entrances, ← List.filterMap_reverse, List.find?_filterMap, lastResolvable?]
  simp only [hcounts]
  cases hkey : t.firstKey? source with
  | none =>
    have hnone : (t.joinTypes.reverse.find? fun _ => false) = none :=
      List.find?_eq_none.2 (by simp)
    simp only [Option.isSome_none, Bool.false_and, hnone]
    rfl
  | some key =>
    simp only [Option.isSome_some, Bool.true_and, Option.bind_some]
    cases hlast : t.joinTypes.reverse.find? fun j => decide (j.graph = source) && j.resolvable with
    | none => rfl
    | some j =>
      obtain ⟨-, hgraph, hresolvable⟩ := mem_of_lastResolvable? hlast
      simp [hresolvable, hgraph, lookup_keySets_eq, hkey]

end TypeDefinition

namespace SchemaIndex
variable {b : Blueprint} {x : SchemaIndex} {type : String} {source : Source} {e : EntryPoint}

theorem entryPoint?_eq_some (hb : b.index = .valid x) : x.entryPoint? type source = some e ↔
    ∃ t ∈ b.types, t.name = type ∧ ∃ key j, t.firstKey? source = some key ∧
      t.lastResolvable? source = some j ∧ e = TypeDefinition.entrance j key := by
  obtain ⟨hformed, rfl⟩ := b.index_decides.of_valid hb
  rw [entryPoint?, Option.bind_eq_some_iff]
  simp only [Blueprint.find?_schemaIndex hformed.distinct]
  constructor
  · rintro ⟨_, ⟨t, ht, hname, rfl⟩, he⟩
    rw [t.find?_entryPoints, Option.bind_eq_some_iff] at he
    obtain ⟨key, hkey, he⟩ := he
    obtain ⟨j, hj, he⟩ := Option.map_eq_some_iff.1 he
    exact ⟨t, ht, hname, key, j, hkey, hj, he.symm⟩
  · rintro ⟨t, ht, hname, key, j, hkey, hj, rfl⟩
    refine ⟨t.typeIndex, ⟨t, ht, hname, rfl⟩, ?_⟩
    rw [t.find?_entryPoints, hkey, hj]
    rfl

end SchemaIndex

/-- An entry point has the first key that its source declares, and the root field and the arguments
of the last declaration of the source that can be resolved. A declaration that can be resolved and
carries a key always makes the type enterable. If the last resolvable declaration carries the first
key, the entry point is what a single declaration says. -/
theorem entryPoint?_declared {b : Blueprint} {x : SchemaIndex} (hb : b.index = .valid x)
    (type : String) (source : Source) :
    (∀ e, x.entryPoint? type source = some e ↔ ∃ t ∈ b.types, t.name = type ∧ ∃ key j,
      t.firstKey? source = some key ∧ t.lastResolvable? source = some j ∧
        e = TypeDefinition.entrance j key) ∧
    ∀ t ∈ b.types, t.name = type →
      ((∃ j ∈ t.joinTypes, j.graph = source ∧ j.resolvable = true ∧ j.keyFields ≠ []) →
        ∃ e, x.entryPoint? type source = some e) ∧
      (t.KeysAgree source → ∀ e, x.entryPoint? type source = some e →
        ∃ j ∈ t.joinTypes, j.graph = source ∧ j.Grants e) := by
  refine ⟨fun e => SchemaIndex.entryPoint?_eq_some hb, fun t ht hname => ⟨?_, ?_⟩⟩
  · rintro ⟨j, hj, hgraph, hresolvable, hkeyed⟩
    obtain ⟨key, hkey⟩ := Option.isSome_iff_exists.1
      (TypeDefinition.firstKey?_isSome.2 ⟨j, hj, hgraph, hkeyed⟩)
    obtain ⟨last, hlast⟩ := Option.isSome_iff_exists.1
      (TypeDefinition.lastResolvable?_isSome.2 ⟨j, hj, hgraph, hresolvable⟩)
    exact ⟨_, (SchemaIndex.entryPoint?_eq_some hb).2 ⟨t, ht, hname, key, last, hkey, hlast, rfl⟩⟩
  · intro hagree e he
    obtain ⟨u, hu, huname, key, j, hkey, hj, rfl⟩ := (SchemaIndex.entryPoint?_eq_some hb).1 he
    -- the schema has one type of the name
    have hdistinct := (b.index_decides.of_valid hb).1.distinct
    have hsame : u = t := List.inj_on_of_nodup_map hdistinct hu ht (huname.trans hname.symm)
    subst hsame
    obtain ⟨hmem, hgraph, hresolvable⟩ := TypeDefinition.mem_of_lastResolvable? hj
    obtain ⟨-, -, -, -, hne⟩ := TypeDefinition.mem_of_firstKey? hkey
    have hown := hagree key j hkey hj
    exact ⟨j, hmem, hgraph, hresolvable, hown ▸ hne, by rw [hown]⟩

/-! ### A stock entered by a key that it does not resolve -/

/-- The stock knows a part by its id, by which it cannot be entered, and by its sku, by which it
can. -/
def stockPart : TypeDefinition :=
  ⟨"Part", [{ graph := "catalog", key := some "id" },
      { graph := "stock", key := some "id", resolvable := false },
      { graph := "stock", key := some "sku", entryField := some "partBySku" }],
    [⟨"id", .named "ID" true, []⟩, ⟨"sku", .named "String" true, []⟩]⟩

def stockTool : TypeDefinition :=
  ⟨"Tool", [{ graph := "stock", key := some "id", resolvable := false }, { graph := "stock" }],
    [⟨"id", .named "ID" true, []⟩]⟩

def stockSchema : Blueprint :=
  ⟨"Query", none, none, ["catalog", "stock"],
    [⟨"Query", [{ graph := "catalog" }], [⟨"part", .named "Part" false, []⟩]⟩, stockPart,
      stockTool]⟩

def stock : SchemaIndex := stockSchema.index.value?.getD ⟨"", none, none, .empty⟩

/-- The catalog declares a part once, so its entry point is that declaration. For the stock the
field of one declaration goes with the key of the other. -/
theorem entryPoint?_declared_stock :
    (∃ e, stock.entryPoint? "Part" "catalog" = some e ∧
      ∃ j ∈ stockPart.joinTypes, j.graph = "catalog" ∧ j.Grants e) ∧
    stock.entryPoint? "Part" "stock" = some ⟨"stock", "partBySku", ["id"], Table.empty⟩ := by
  have hindex : stockSchema.index = .valid stock :=
    Validated.eq_valid_of_isValid (by decide +kernel) ⟨"", none, none, .empty⟩
  have hpart : stockPart ∈ stockSchema.types := List.mem_cons_of_mem _ List.mem_cons_self
  constructor
  · obtain ⟨-, hdeclared⟩ := entryPoint?_declared hindex "Part" "catalog"
    obtain ⟨hsome, hsingle⟩ := hdeclared stockPart hpart rfl
    obtain ⟨e, he⟩ := hsome ⟨_, List.mem_cons_self, rfl, rfl, by decide⟩
    have honce : stockPart.KeysAgree "catalog" :=
      TypeDefinition.keysAgree_of_unique (by simp [stockPart])
    exact ⟨e, he, hsingle honce e he⟩
  · obtain ⟨hmade, -⟩ := entryPoint?_declared hindex "Part" "stock"
    exact (hmade _).2 ⟨stockPart, hpart, rfl, ["id"],
      { graph := "stock", key := some "sku", entryField := some "partBySku" }, by decide, rfl, rfl⟩

/-- No declaration of the stock grants its entry point for a part, and there is one for a tool
although nothing that the stock declares to be resolvable carries a key. -/
theorem stock_entries_undeclared : stockSchema.index.isValid = true ∧
    (∃ e, stock.entryPoint? "Part" "stock" = some e ∧
      ∀ j ∈ stockPart.joinTypes, j.graph = "stock" → ¬j.Grants e) ∧
    (∃ e, stock.entryPoint? "Tool" "stock" = some e) ∧
    ∀ j ∈ stockTool.joinTypes, ¬(j.graph = "stock" ∧ j.resolvable = true ∧ j.keyFields ≠ []) := by
  have hkey : (stock.entryPoint? "Part" "stock").map (·.key) = some ["id"] := by decide +kernel
  have htool : (stock.entryPoint? "Tool" "stock").isSome = true := by decide +kernel
  obtain ⟨e, he, hid⟩ := Option.map_eq_some_iff.1 hkey
  refine ⟨by decide +kernel, ⟨e, he, fun j hj hgraph hgrants => ?_⟩,
    Option.isSome_iff_exists.1 htool, by decide +kernel⟩
  have hown : j.keyFields = ["id"] := by
    rw [← hid, hgrants.same]
    rfl
  have hother : ∀ j ∈ stockPart.joinTypes, j.graph = "stock" → j.resolvable = true →
      j.keyFields ≠ ["id"] := by
    decide +kernel
  exact hother j hj hgraph hgrants.resolvable hown

end FederatedQuery
