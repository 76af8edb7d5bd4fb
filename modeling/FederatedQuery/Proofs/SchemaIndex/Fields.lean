import FederatedQuery.Proofs.SchemaIndex.Accepted

/-!
The fields of a schema and those of its index. Both are found by name, and a name that is found in
one is found in the other. But of several definitions of one name the schema has the first and the
index the last.
-/
namespace FederatedQuery

structure FieldIndex.Declared (i : FieldIndex) (t : TypeDefinition) (f : FieldDefinition) :
    Prop where
  ofType : i.ofType = f.type.name
  isList : i.isList = f.type.isList
  shared : f.joinFields = [] → i.owners = t.joinTypes.map (·.graph)
  owned : f.joinFields ≠ [] → i.owners = (f.joinFields.filter (!·.isExternal)).filterMap (·.graph)

namespace TypeDefinition
variable {t : TypeDefinition} {name : String}

def DefinesOnce (t : TypeDefinition) (name : String) : Prop :=
  ∀ f ∈ t.fields, ∀ g ∈ t.fields, f.name = name → g.name = name → f = g

instance (t : TypeDefinition) (name : String) : Decidable (t.DefinesOnce name) :=
  inferInstanceAs (Decidable (∀ _ ∈ _, _))

theorem declared_fieldIndex (t : TypeDefinition) (f : FieldDefinition) :
    (t.fieldIndex f).Declared t f := by
  refine ⟨rfl, rfl, fun hnone => ?_, fun hsome => ?_⟩
  · rw [fieldIndex, ownersOf, hnone]
    rfl
  · have hfalse : f.joinFields.isEmpty = false := List.isEmpty_eq_false_iff.2 hsome
    simp [fieldIndex, ownersOf, hfalse]

theorem isSome_lastField?_eq (t : TypeDefinition) (name : String) :
    (t.lastField? name).isSome = (t.field? name).isSome := by
  rw [Bool.eq_iff_iff, isSome_lastField?, isSome_field?]

/-- A definition that is the only one of its name is found under it. -/
theorem field?_of_definesOnce (h : t.DefinesOnce name) {f : FieldDefinition} (hf : f ∈ t.fields)
    (hname : f.name = name) : t.field? name = some f := by
  obtain ⟨g, hfirst⟩ := Option.isSome_iff_exists.1 (isSome_field?.2 ⟨f, hf, hname⟩)
  have hg : g.name = name := by simpa using List.find?_some hfirst
  rw [hfirst, h g (List.mem_of_find?_eq_some hfirst) f hf hg hname]

/-- It is the last one as well as the first. -/
theorem lastField?_of_definesOnce (h : t.DefinesOnce name) : t.lastField? name = t.field? name := by
  cases hlast : t.lastField? name with
  | none =>
    have hsome := t.isSome_lastField?_eq name
    rw [hlast] at hsome
    exact (Option.not_isSome_iff_eq_none.1 (by simp [← hsome])).symm
  | some g =>
    have hg : g ∈ t.fields := List.mem_reverse.1 (List.mem_of_find?_eq_some hlast)
    exact (field?_of_definesOnce h hg (by simpa using List.find?_some hlast)).symm

end TypeDefinition

/-- The index holds the last definition of every field. -/
theorem SchemaIndex.field?_eq_lastField? {b : Blueprint} {x : SchemaIndex}
    (hb : b.index = .valid x) {t : TypeDefinition} (ht : t ∈ b.types) (name : String) :
    x.field? t.name name = (t.lastField? name).map t.fieldIndex := by
  obtain ⟨hformed, rfl⟩ := b.index_decides.of_valid hb
  ext i
  rw [Blueprint.field?_schemaIndex hformed.distinct, Option.map_eq_some_iff]
  constructor
  · rintro ⟨u, hu, hname, hf⟩
    -- the schema has one type of the name
    rwa [← List.inj_on_of_nodup_map hformed.distinct hu ht hname]
  · exact fun hf => ⟨t, ht, rfl, hf⟩

/-- A type of an accepted schema has a field exactly if the index has it, and the index holds what
the last definition of the field declares. Where a field is defined once, the schema finds that
definition, and the index holds what it declares. -/
theorem field?_declared {b : Blueprint} {x : SchemaIndex} (hb : b.index = .valid x)
    {t : TypeDefinition} (ht : t ∈ b.types) (name : String) :
    ((x.field? t.name name).isSome = true ↔ ∃ f, t.field? name = some f) ∧
    (∀ i, x.field? t.name name = some i → ∃ f, t.lastField? name = some f ∧ i.Declared t f) ∧
    (t.DefinesOnce name → ∀ f,
      (f ∈ t.fields → f.name = name → t.field? name = some f) ∧
      (t.field? name = some f → ∃ i, x.field? t.name name = some i ∧ i.Declared t f)) := by
  rw [SchemaIndex.field?_eq_lastField? hb ht]
  refine ⟨?_, fun i hi => ?_, fun honce f => ⟨TypeDefinition.field?_of_definesOnce honce,
    fun hf => ?_⟩⟩
  · rw [Option.isSome_map, t.isSome_lastField?_eq, Option.isSome_iff_exists]
  · obtain ⟨f, hf, rfl⟩ := Option.map_eq_some_iff.1 hi
    exact ⟨f, hf, t.declared_fieldIndex f⟩
  · rw [TypeDefinition.lastField?_of_definesOnce honce, hf]
    exact ⟨_, rfl, t.declared_fieldIndex f⟩

/-! ### A tool with two sizes -/

def benchTool : TypeDefinition :=
  ⟨"Tool", [{ graph := "catalog" }, { graph := "stock" }],
    [⟨"name", .named "String" true, [{ graph := some "catalog" },
        { graph := some "stock", external := some true }]⟩,
     ⟨"size", .named "Int" false, []⟩,
     ⟨"size", .list (.named "String" false) false, [{ graph := some "stock" }]⟩]⟩

def benchSchema : Blueprint :=
  ⟨"Query", none, none, ["catalog", "stock"],
    [⟨"Query", [{ graph := "catalog" }], [⟨"tool", .named "Tool" false, []⟩]⟩, benchTool]⟩

def bench : SchemaIndex := benchSchema.index.value?.getD ⟨"", none, none, .empty⟩

theorem field?_declared_bench :
    (∃ i, bench.field? "Tool" "name" = some i ∧ i.ofType = "String" ∧ i.isList = false ∧
      i.owners = ["catalog"]) ∧
    (∃ i, bench.field? "Tool" "size" = some i ∧ i.ofType = "String" ∧ i.isList = true ∧
      i.owners = ["stock"]) ∧
    bench.field? "Tool" "colour" = none := by
  have hindex : benchSchema.index = .valid bench :=
    Validated.eq_valid_of_isValid (by decide +kernel) ⟨"", none, none, .empty⟩
  have htool : benchTool ∈ benchSchema.types := List.mem_cons_of_mem _ List.mem_cons_self
  refine ⟨?_, ?_, ?_⟩
  · obtain ⟨-, -, hsingle⟩ := field?_declared hindex htool "name"
    obtain ⟨i, hi, hdeclared⟩ := (hsingle (by decide) _).2 rfl
    exact ⟨i, hi, hdeclared.ofType, hdeclared.isList, hdeclared.owned (by simp)⟩
  · obtain ⟨hsome, hlast, -⟩ := field?_declared hindex htool "size"
    obtain ⟨i, hi⟩ := Option.isSome_iff_exists.1 (hsome.2 ⟨_, rfl⟩)
    obtain ⟨f, hf, hdeclared⟩ := hlast i hi
    cases hf
    exact ⟨i, hi, hdeclared.ofType, hdeclared.isList, hdeclared.owned (by simp)⟩
  · obtain ⟨hsome, -, -⟩ := field?_declared hindex htool "colour"
    refine Option.not_isSome_iff_eq_none.1 fun hcolour => ?_
    obtain ⟨f, hf⟩ := hsome.1 hcolour
    exact nomatch hf

/-- The schema finds a number that both sources own, and the index texts that only the stock has. -/
theorem bench_sizes_differ : benchSchema.index = .valid bench ∧ benchTool ∈ benchSchema.types ∧
    ∃ f i, benchTool.field? "size" = some f ∧ bench.field? "Tool" "size" = some i ∧
      i.ofType ≠ f.type.name ∧ i.isList ≠ f.type.isList ∧
      f.joinFields = [] ∧ i.owners ≠ benchTool.joinTypes.map (·.graph) := by
  have hindex : benchSchema.index = .valid bench :=
    Validated.eq_valid_of_isValid (by decide +kernel) ⟨"", none, none, .empty⟩
  have hsize : (bench.field? "Tool" "size").any (fun i => i.ofType ≠ "Int" ∧ i.isList ≠ false ∧
      i.owners ≠ ["catalog", "stock"]) = true := by
    decide +kernel
  obtain ⟨i, hi, hdiffers⟩ := (Option.any_eq_true _ _).1 hsize
  obtain ⟨hofType, hisList, howners⟩ := of_decide_eq_true hdiffers
  exact ⟨hindex, List.mem_cons_of_mem _ List.mem_cons_self, _, i, rfl, hi, hofType, hisList, rfl,
    howners⟩

end FederatedQuery
