import FederatedQuery.Proofs.SchemaIndex.Accepted

/-!
What an index promises to those who look things up in it. It holds what the schema declares, the
last declaration of a name, and the declarations of a schema that has an index fit together.
-/
namespace FederatedQuery

namespace TypeDefinition
variable {t : TypeDefinition}

theorem mem_of_lastField? {name : String} {f : FieldDefinition} (h : t.lastField? name = some f) :
    f ∈ t.fields :=
  List.mem_reverse.1 (List.mem_of_find?_eq_some h)

/-- An entry point is made of a declaration that can be resolved and of the first key of its
source. -/
theorem entrance_of_find? {source : Source} {e : EntryPoint}
    (h : t.typeIndex.entryPoints.find? source = some e) :
    ∃ j ∈ t.joinTypes, j.graph = source ∧ e.source = source ∧
      ∃ declared, (source, declared) ∈ t.keyDeclarations ∧ Text.words declared = e.key := by
  obtain ⟨⟨j, key⟩, hmem, hpair⟩ := List.mem_map.1 (Table.mem_of_find?_ofList h)
  obtain ⟨rfl, rfl⟩ := Prod.mk.inj hpair
  obtain ⟨hj, -, hkey⟩ := mem_entrances.1 hmem
  exact ⟨j, hj, rfl, rfl, lookup_keySets hkey⟩

theorem mem_requiresIn_fieldIndex {f : FieldDefinition} {source : Source} {name : String}
    (h : name ∈ (t.fieldIndex f).requiresIn source) :
    ∃ required, (source, required) ∈ f.sets (·.requires) ∧ name ∈ Text.words required := by
  unfold FieldIndex.requiresIn at h
  cases hfind : (t.fieldIndex f).requires.find? source with
  | none => simp [hfind] at h
  | some names =>
    obtain ⟨e, he, hpair⟩ := List.mem_map.1 (Table.mem_of_find?_ofList hfind)
    obtain ⟨rfl, rfl⟩ := Prod.mk.inj hpair
    exact ⟨e.2, he, by simpa [hfind] using h⟩

end TypeDefinition

namespace SchemaIndex
variable {b : Blueprint} {x : SchemaIndex}

/-- Sources that own a field declare the type. -/
theorem owners_of_field? (h : b.index = .valid x) {type field : String} {f : FieldIndex}
    (hf : x.field? type field = some f) : f.owners ⊆ x.sourcesOf type := by
  obtain ⟨hformed, rfl⟩ := b.index_decides.of_valid h
  obtain ⟨t, ht, rfl, d, hd, rfl⟩ := (Blueprint.field?_schemaIndex hformed.distinct).1 hf
  have hsources : b.schemaIndex.sourcesOf t.name = t.sources := by
    rw [sourcesOf, (Blueprint.find?_schemaIndex hformed.distinct).2 ⟨t, ht, rfl, rfl⟩]
    rfl
  intro source hsource
  rw [hsources]
  cases TypeDefinition.mem_ownersOf.1 hsource with
  | inl hall => exact hall.2
  | inr hnamed =>
    obtain ⟨j, hj, hlocal, hgraph⟩ := hnamed
    exact ((hformed.types t ht).fields d (TypeDefinition.mem_of_lastField? hd)).owners j hj hlocal
      source hgraph

/-- Who owns a field of a type declares the type. -/
theorem ownersOf_subset_sourcesOf (h : b.index = .valid x) (type field : String) :
    x.ownersOf type field ⊆ x.sourcesOf type := by
  unfold ownersOf
  by_cases hname : field = typenameField
  · rw [if_pos hname]
    exact List.Subset.refl _
  · rw [if_neg hname]
    cases hfield : x.field? type field with
    | none => exact List.nil_subset _
    | some f => exact owners_of_field? h hfield

theorem sourcesOf_subset_sources (h : b.index = .valid x) (type : String) :
    x.sourcesOf type ⊆ b.sources := by
  obtain ⟨hformed, rfl⟩ := b.index_decides.of_valid h
  intro source hsource
  unfold sourcesOf at hsource
  cases hfind : b.schemaIndex.types.find? type with
  | none => simp [hfind] at hsource
  | some i =>
    obtain ⟨t, ht, -, rfl⟩ := (Blueprint.find?_schemaIndex hformed.distinct).1 hfind
    have hsource : source ∈ t.sources := by
      rw [hfind] at hsource
      exact hsource
    obtain ⟨j, hj, rfl⟩ := List.mem_map.1 hsource
    exact (hformed.types t ht).declared j hj

structure Admits (x : SchemaIndex) (type : String) (source : Source) (e : EntryPoint) : Prop where
  same : e.source = source
  declares : source ∈ x.sourcesOf type
  key : e.key ≠ []
  fields : ∀ k ∈ e.key, (x.field? type k).isSome = true
  keyed : x.entityKeyOf type ≠ []

theorem admits_of_entryPoint? (h : b.index = .valid x) {type : String} {source : Source}
    {e : EntryPoint} (he : x.entryPoint? type source = some e) : x.Admits type source e := by
  obtain ⟨hformed, rfl⟩ := b.index_decides.of_valid h
  obtain ⟨i, hi, he⟩ := Option.bind_eq_some_iff.1 he
  obtain ⟨t, ht, rfl, rfl⟩ := (Blueprint.find?_schemaIndex hformed.distinct).1 hi
  obtain ⟨j, hj, rfl, hsource, declared, hdeclared, hkey⟩ := TypeDefinition.entrance_of_find? he
  obtain ⟨k, hk, hgraph, hdecl, hwords⟩ := TypeDefinition.mem_keyDeclarations.1 hdeclared
  refine ⟨hsource, ?_, hkey ▸ hwords, fun name hname => ?_, ?_⟩
  · rw [sourcesOf, hi]
    exact List.mem_map_of_mem hj
  · rw [← hkey] at hname
    have hnames := (hformed.types t ht).keys k hk declared hdecl hwords
    exact (Blueprint.isSome_field?_schemaIndex hformed.distinct).2
      ⟨t, ht, rfl, hnames.defined name hname⟩
  · rw [entityKeyOf, hi]
    exact mt TypeDefinition.key_typeIndex.1 (not_not.2 ⟨_, k, hk, hgraph, declared, hdecl, hwords⟩)

theorem key_of_entryPoint? (h : b.index = .valid x) {type : String} {source : Source}
    {e : EntryPoint} (he : x.entryPoint? type source = some e) : e.key ≠ [] :=
  (admits_of_entryPoint? h he).key

theorem required_of_field? (h : b.index = .valid x) {type field : String} {f : FieldIndex}
    (hf : x.field? type field = some f) {source : Source} {name : String}
    (hname : name ∈ f.requiresIn source) : (x.field? type name).isSome = true := by
  obtain ⟨hformed, rfl⟩ := b.index_decides.of_valid h
  obtain ⟨t, ht, rfl, d, hd, rfl⟩ := (Blueprint.field?_schemaIndex hformed.distinct).1 hf
  obtain ⟨required, hmem, hword⟩ := TypeDefinition.mem_requiresIn_fieldIndex hname
  obtain ⟨j, hj, hgraph, hset⟩ := FieldDefinition.mem_sets.1 hmem
  have hfits := (hformed.types t ht).fields d (TypeDefinition.mem_of_lastField? hd)
  have hnames := hfits.requires j hj (Option.isSome_of_eq_some hgraph) required hset
  exact (Blueprint.isSome_field?_schemaIndex hformed.distinct).2
    ⟨t, ht, rfl, hnames.defined name hword⟩

theorem provided_of_field? (h : b.index = .valid x) {type field : String} {f : FieldIndex}
    (hf : x.field? type field = some f) {source : Source} {name : String}
    (hname : name ∈ f.providesIn source) :
    name = typenameField ∨ (x.field? f.ofType name).isSome = true := by
  obtain ⟨hformed, rfl⟩ := b.index_decides.of_valid h
  exact (Blueprint.provided_schemaIndex hformed.distinct).2 hformed.provided type field f hf source
    name hname

theorem root_of_rootType (h : b.index = .valid x) {kind : OperationKind} {root : String}
    (hroot : x.rootType kind = some root) :
    x.hasType root = true ∧ x.isRootType root = true := by
  obtain ⟨hformed, rfl⟩ := b.index_decides.of_valid h
  refine ⟨Blueprint.hasType_schemaIndex.2 (hformed.roots kind root ?_),
    isRootType_iff.2 ⟨kind, hroot⟩⟩
  rwa [Blueprint.rootType_schemaIndex] at hroot

end SchemaIndex

/-- Owners declare the type and are sources of the schema. A type is entered in a source that
declares it, by a key of its fields. What a field requires are fields of its type, and what it
provides are fields of the type it returns. Roots are defined. -/
theorem index_invariant {b : Blueprint} {x : SchemaIndex} (h : b.index = .valid x)
    (type field : String) (source : Source) :
    (x.ownersOf type field ⊆ x.sourcesOf type ∧ x.sourcesOf type ⊆ b.sources) ∧
    (∀ e, x.entryPoint? type source = some e → x.Admits type source e) ∧
    (∀ f, x.field? type field = some f →
      (∀ name ∈ f.requiresIn source, (x.field? type name).isSome = true) ∧
      ∀ name ∈ f.providesIn source,
        name = typenameField ∨ (x.field? f.ofType name).isSome = true) ∧
    ∀ kind root, x.rootType kind = some root → x.hasType root = true ∧ x.isRootType root = true := by
  refine ⟨⟨SchemaIndex.ownersOf_subset_sourcesOf h type field,
    SchemaIndex.sourcesOf_subset_sources h type⟩,
    fun e he => SchemaIndex.admits_of_entryPoint? h he,
    fun f hf => ⟨fun name hname => ?_, fun name hname => ?_⟩,
    fun kind root hroot => SchemaIndex.root_of_rootType h hroot⟩
  · exact SchemaIndex.required_of_field? h hf hname
  · exact SchemaIndex.provided_of_field? h hf hname

/-- A library whose books declare `copy` twice; the index holds the second declaration. -/
def librarySchema : Blueprint :=
  ⟨"Query", none, none, ["catalog", "loans"],
    [⟨"Query", [{ graph := "catalog" }], [⟨"book", .named "Book" false, []⟩]⟩,
     ⟨"Book",
       [{ graph := "catalog", key := some "isbn" }, { graph := "loans", key := some "isbn" }],
       [⟨"isbn", .named "ID" true, []⟩,
        ⟨"title", .named "String" false, [{ graph := some "catalog" }]⟩,
        ⟨"copy", .named "String" false, [{ graph := some "loans" }]⟩,
        ⟨"copy", .named "Copy" false,
          [{ graph := some "loans", requires := some "title",
             provides := some "shelf __typename" }]⟩]⟩,
     ⟨"Copy", [{ graph := "loans" }, { graph := "catalog", key := some "shelf" }],
       [⟨"shelf", .named "Int" false, [{ graph := some "catalog" }]⟩]⟩]⟩

def library : SchemaIndex := librarySchema.index.value?.getD ⟨"", none, none, .empty⟩

theorem index_invariant_library :
    (library.ownersOf "Book" "copy" = ["loans"] ∧
      library.ownersOf "Book" "copy" ⊆ library.sourcesOf "Book") ∧
    (∃ e, library.entryPoint? "Book" "loans" = some e ∧ library.Admits "Book" "loans" e) ∧
    ∃ f, library.field? "Book" "copy" = some f ∧ f.requiresIn "loans" = ["title"] ∧
      f.providesIn "loans" = ["shelf", "__typename"] ∧
      (∀ name ∈ f.requiresIn "loans", (library.field? "Book" name).isSome = true) ∧
      ∀ name ∈ f.providesIn "loans",
        name = typenameField ∨ (library.field? f.ofType name).isSome = true := by
  have hindex : librarySchema.index = .valid library :=
    Validated.eq_valid_of_isValid (by decide +kernel) ⟨"", none, none, .empty⟩
  obtain ⟨howners, hentry, hsets, -⟩ := index_invariant hindex "Book" "copy" "loans"
  have hpoint : (library.entryPoint? "Book" "loans").isSome = true := by decide +kernel
  obtain ⟨e, he⟩ := Option.isSome_iff_exists.1 hpoint
  have hfield : (library.field? "Book" "copy").any (fun f => f.requiresIn "loans" = ["title"] ∧
      f.providesIn "loans" = ["shelf", "__typename"]) = true := by decide +kernel
  obtain ⟨f, hf, hsame⟩ := (Option.any_eq_true _ _).1 hfield
  obtain ⟨hrequires, hprovides⟩ := of_decide_eq_true hsame
  exact ⟨⟨by decide +kernel, howners.1⟩, ⟨e, he, hentry e he⟩, f, hf, hrequires, hprovides,
    hsets f hf⟩

end FederatedQuery
