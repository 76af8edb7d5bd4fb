import FederatedQuery.Proofs.Grouping
import FederatedQuery.Proofs.SchemaIndex.Declarations

/-!
Which schemas have an index: exactly those whose declarations fit together. The checks on the index
are read back to the declarations it was made of.
-/
namespace FederatedQuery

namespace Blueprint

def Defines (b : Blueprint) (type : String) : Prop := ∃ t ∈ b.types, t.name = type

def Reaches (b : Blueprint) (source : Source) (type : String) : Prop :=
  ∃ t ∈ b.types, ∃ name f, t.lastField? name = some f ∧ f.type.name = type ∧ t.Owns source f

structure WellFormed (b : Blueprint) : Prop where
  distinct : (b.types.map (·.name)).Nodup
  types : ∀ t ∈ b.types, t.Fits b.sources
  roots : ∀ kind root, b.rootType kind = some root → b.Defines root
  provided : ∀ t ∈ b.types, ∀ name f, t.lastField? name = some f →
    ∀ source provided, f.provides? source = some provided → ∀ n ∈ Text.words provided,
      n = typenameField ∨ ∃ u ∈ b.types, u.name = f.type.name ∧ u.HasField n
  /-- A type reached from two sources has a key, unless all that reach it own all of its fields. -/
  enterable : ∀ u ∈ b.types, (∀ kind, b.rootType kind ≠ some u.name) →
    ∀ s s', s ≠ s' → b.Reaches s u.name → b.Reaches s' u.name →
      (∃ source, u.Keyed source) ∨
        ∀ source, b.Reaches source u.name → ∀ name f, u.lastField? name = some f → u.Owns source f

end Blueprint

/-! ### Checks of the index -/

namespace SchemaIndex
variable (x : SchemaIndex)

theorem field?_eq_some {x : SchemaIndex} {type field : String} {f : FieldIndex} :
    x.field? type field = some f ↔
      ∃ i, x.types.find? type = some i ∧ i.fields.find? field = some f :=
  Option.bind_eq_some_iff

def Reaches (source : Source) (type : String) : Prop :=
  ∃ onType field f, x.field? onType field = some f ∧ f.ofType = type ∧ source ∈ f.owners

theorem mem_providesIn {f : FieldIndex} {name : String} :
    name ∈ f.provides.values.flatten ↔ ∃ source, name ∈ f.providesIn source :=
  Table.mem_flatten_values_iff

/-- What holds of every field in the tables holds of all fields that are found. -/
theorem forall_fields_iff {x : SchemaIndex} {P : String → String → FieldIndex → Prop} :
    (∀ t ∈ x.types.entries, ∀ e ∈ t.2.fields.entries, P t.1 e.1 e.2) ↔
      ∀ type field f, x.field? type field = some f → P type field f := by
  refine (Table.forall_entries_iff (P := fun type (i : TypeIndex) => ∀ e ∈ i.fields.entries,
    P type e.1 e.2)).trans ?_
  constructor
  · intro h type field f hf
    obtain ⟨i, hi, hf⟩ := field?_eq_some.1 hf
    exact h type i hi (field, f) (Table.mem_entries_iff.2 hf)
  · intro h type i hi e he
    exact h type e.1 e.2 (field?_eq_some.2 ⟨i, hi, Table.mem_entries_iff.1 he⟩)

theorem strayProvided_eq_nil {f : FieldIndex} : x.strayProvided f = [] ↔
    ∀ source, ∀ name ∈ f.providesIn source,
      name = typenameField ∨ (x.field? f.ofType name).isSome = true := by
  simp only [strayProvided, List.filter_eq_nil_iff, mem_providesIn, forall_exists_index]
  rw [forall_comm]
  refine forall_congr' fun source => forall_congr' fun name => forall_congr' fun _ => ?_
  cases x.field? f.ofType name with
  | none => simp
  | some g => simp

theorem mem_roots {x : SchemaIndex} {root : String} :
    root ∈ x.query :: x.mutation.toList ++ x.subscription.toList ↔
      ∃ kind, x.rootType kind = some root := by
  simp only [List.cons_append, List.mem_cons, List.mem_append, Option.mem_toList]
  constructor
  · rintro (rfl | h | h)
    · exact ⟨.query, rfl⟩
    · exact ⟨.mutation, h⟩
    · exact ⟨.subscription, h⟩
  · rintro ⟨kind, h⟩
    cases kind with
    | query => exact .inl (Option.some.inj h).symm
    | mutation => exact .inr (.inl h)
    | subscription => exact .inr (.inr h)

theorem isRootType_iff {x : SchemaIndex} {type : String} :
    x.isRootType type = true ↔ ∃ kind, x.rootType kind = some type := by
  rw [← mem_roots]
  simp only [isRootType, Bool.or_eq_true, decide_eq_true_eq, List.cons_append, List.mem_cons,
    List.mem_append, Option.mem_toList, or_assoc, eq_comm (a := type)]

theorem checkRoots_decides : x.checkRoots.Decides
    (∀ kind root, x.rootType kind = some root → x.hasType root = true) () := by
  refine ((Validated.Decides.traverse (g := fun _ => ()) fun root _ =>
    Validated.Decides.check _ _).discard).congr ?_
  simp only [mem_roots, forall_exists_index]
  exact forall_comm

theorem checkProvides_decides : x.checkProvides.Decides
    (∀ type field f, x.field? type field = some f → ∀ source, ∀ name ∈ f.providesIn source,
      name = typenameField ∨ (x.field? f.ofType name).isSome = true) () := by
  have hfield : ∀ f : FieldIndex, (Validated.traverse (fun p =>
      (.fail (.unknownProvided p f.ofType) : Validated SchemaFault Unit))
      (x.strayProvided f)).Decides (x.strayProvided f = [])
      ((x.strayProvided f).map fun _ => ()) := by
    intro f
    refine (Validated.Decides.traverse fun p _ => Validated.Decides.fail _ ()).congr ?_
    exact List.eq_nil_iff_forall_not_mem.symm
  refine ((Validated.Decides.traverse fun e _ => ((Validated.Decides.traverse fun d _ =>
    (hfield d.2).within d.1).within e.1)).discard).congr ?_
  simp only [strayProvided_eq_nil]
  exact forall_fields_iff (P := fun _ _ f => ∀ source, ∀ name ∈ f.providesIn source,
    name = typenameField ∨ (x.field? f.ofType name).isSome = true)

/-! The sources that reach a type. -/

theorem find?_reaching (fields : List FieldIndex) (reached : Table (List Source)) (type : String) :
    ((fields.foldl (fun reached f => reached.insert f.ofType
      (addNew ((reached.find? f.ofType).getD []) f.owners)) reached).find? type).getD [] =
      addNew ((reached.find? type).getD [])
        ((fields.filter (·.ofType = type)).flatMap (·.owners)) := by
  induction fields generalizing reached with
  | nil => rfl
  | cons f fields ih =>
    rw [List.foldl_cons, ih, Table.find?_insert]
    by_cases h : type = f.ofType
    · subst h
      simp [addNew_append]
    · simp [h, Ne.symm h]

def reachingOf (x : SchemaIndex) (type : String) : List Source := (x.reaching.find? type).getD []

theorem nodup_reachingOf (type : String) : (x.reachingOf type).Nodup := by
  rw [reachingOf, reaching, find?_reaching]
  exact nodup_addNew List.nodup_nil _

theorem mem_fields {f : FieldIndex} : (f ∈ x.types.values.flatMap fun type => type.fields.values) ↔
    ∃ type field, x.field? type field = some f := by
  simp only [List.mem_flatMap, Table.mem_values_iff, field?_eq_some]
  constructor
  · rintro ⟨i, ⟨type, hi⟩, field, hf⟩
    exact ⟨type, field, i, hi, hf⟩
  · rintro ⟨type, field, i, hi, hf⟩
    exact ⟨i, ⟨type, hi⟩, field, hf⟩

theorem mem_reachingOf {x : SchemaIndex} {type : String} {source : Source} :
    source ∈ x.reachingOf type ↔ x.Reaches source type := by
  rw [reachingOf, reaching, find?_reaching, mem_addNew, List.mem_flatMap]
  simp only [List.mem_filter, mem_fields, decide_eq_true_eq]
  constructor
  · rintro (hnone | ⟨f, ⟨⟨onType, field, hf⟩, htype⟩, hsource⟩)
    · exact nomatch hnone
    · exact ⟨onType, field, f, hf, htype, hsource⟩
  · rintro ⟨onType, field, f, hf, htype, hsource⟩
    exact .inr ⟨f, ⟨⟨onType, field, hf⟩, htype⟩, hsource⟩

theorem checkReached_decides (type : String) (sources : List Source) :
    (x.checkReached type sources).Decides
      (∀ i, x.types.find? type = some i → 2 ≤ sources.length → i.key = [] →
        x.isRootType type = false → ∀ source ∈ sources, ∀ f ∈ i.fields.values, source ∈ f.owners)
      () := by
  unfold checkReached
  cases x.types.find? type with
  | none => exact (Validated.Decides.valid ()).congr (iff_of_true trivial nofun)
  | some i =>
    have hpasses : (sources.length < 2 || !i.key.isEmpty ||
        (sources.all fun s => i.fields.values.all fun f => f.owners.contains s) ||
        x.isRootType type) = true ↔ (2 ≤ sources.length → i.key = [] →
          x.isRootType type = false → ∀ source ∈ sources, ∀ f ∈ i.fields.values,
            source ∈ f.owners) := by
      simp only [Bool.or_eq_true, decide_eq_true_eq, Bool.not_eq_true', List.all_eq_true,
        List.contains_iff_mem, List.isEmpty_iff, ← Bool.not_eq_true, ← Nat.not_lt]
      tauto
    simp only [Option.some.injEq, forall_eq', ← hpasses]
    split
    · exact (Validated.Decides.valid ()).congr (iff_of_true trivial ‹_›)
    · exact ((Validated.Decides.fail _ ()).within type).congr (iff_of_false id ‹_›)

def Enterable (x : SchemaIndex) : Prop :=
  ∀ type i, x.types.find? type = some i → x.isRootType type = false → i.key = [] →
    ∀ s s', s ≠ s' → x.Reaches s type → x.Reaches s' type →
      ∀ source, x.Reaches source type → ∀ field f, i.fields.find? field = some f →
        source ∈ f.owners

theorem checkReachability_decides : x.checkReachability.Decides x.Enterable () := by
  refine ((Validated.Decides.traverse fun e _ => x.checkReached_decides e.1 e.2).discard).congr ?_
  constructor
  · intro h type i hi hroot hkey s s' hne hs hs' source hsource field f hf
    rw [← mem_reachingOf] at hs hs' hsource
    have hcount : 2 ≤ (x.reachingOf type).length :=
      (two_le_length_iff (x.nodup_reachingOf type)).2 ⟨s, hs, s', hs', hne⟩
    unfold reachingOf at hcount hsource
    cases hfind : x.reaching.find? type with
    | none => simp [hfind] at hsource
    | some sources =>
      rw [hfind] at hcount hsource
      exact h (type, sources) (Table.mem_entries_iff.2 hfind) i hi hcount hkey hroot source hsource
        f (Table.mem_values_iff.2 ⟨field, hf⟩)
  · intro h e he i hi hcount hkey hroot source hsource f hf
    have hsources : x.reachingOf e.1 = e.2 := by
      rw [reachingOf, Table.mem_entries_iff.1 he]
      rfl
    obtain ⟨field, hf⟩ := Table.mem_values_iff.1 hf
    rw [← hsources, two_le_length_iff (x.nodup_reachingOf e.1)] at hcount
    obtain ⟨s, hs, s', hs', hne⟩ := hcount
    exact h e.1 i hi hroot hkey s s' hne (mem_reachingOf.1 hs) (mem_reachingOf.1 hs') source
      (mem_reachingOf.1 (hsources ▸ hsource)) field f hf

end SchemaIndex

/-! ### The index of a schema -/

namespace Blueprint
variable {b : Blueprint}

def schemaIndex (b : Blueprint) : SchemaIndex :=
  ⟨b.query, b.mutation, b.subscription, Table.ofList (b.types.map fun t => (t.name, t.typeIndex))⟩

theorem checkDuplicates_decides (b : Blueprint) :
    b.checkDuplicates.Decides (b.types.map (·.name)).Nodup () := by
  refine ((Validated.Decides.traverse fun name _ => Validated.Decides.fail _ ()).discard).congr ?_
  rw [← List.eq_nil_iff_forall_not_mem, repeatedAfter_eq_nil]
  simp

theorem rootType_schemaIndex (b : Blueprint) (kind : OperationKind) :
    b.schemaIndex.rootType kind = b.rootType kind := by
  cases kind with
  | query => rfl
  | mutation => rfl
  | subscription => rfl

/-- With distinct names the types of the index are those declared. -/
theorem find?_schemaIndex (h : (b.types.map (·.name)).Nodup) {type : String} {i : TypeIndex} :
    b.schemaIndex.types.find? type = some i ↔ ∃ t ∈ b.types, t.name = type ∧ t.typeIndex = i :=
  Table.find?_ofList_map_of_nodup h

theorem hasType_schemaIndex {type : String} :
    b.schemaIndex.hasType type = true ↔ b.Defines type := by
  rw [SchemaIndex.hasType, Table.contains, schemaIndex, Table.find?_ofList_map]
  simp [Defines, List.find?_isSome]

theorem field?_schemaIndex (h : (b.types.map (·.name)).Nodup) {type field : String}
    {i : FieldIndex} : b.schemaIndex.field? type field = some i ↔
      ∃ t ∈ b.types, t.name = type ∧ ∃ f, t.lastField? field = some f ∧ t.fieldIndex f = i := by
  rw [SchemaIndex.field?_eq_some]
  constructor
  · rintro ⟨j, hj, hi⟩
    obtain ⟨t, ht, hname, rfl⟩ := (find?_schemaIndex h).1 hj
    rw [TypeDefinition.find?_fields, Option.map_eq_some_iff] at hi
    exact ⟨t, ht, hname, hi⟩
  · rintro ⟨t, ht, hname, hf⟩
    refine ⟨t.typeIndex, (find?_schemaIndex h).2 ⟨t, ht, hname, rfl⟩, ?_⟩
    rw [TypeDefinition.find?_fields, Option.map_eq_some_iff]
    exact hf

theorem isSome_field?_schemaIndex (h : (b.types.map (·.name)).Nodup) {type field : String} :
    (b.schemaIndex.field? type field).isSome = true ↔
      ∃ t ∈ b.types, t.name = type ∧ t.HasField field := by
  simp only [Option.isSome_iff_exists, field?_schemaIndex h, ← TypeDefinition.isSome_lastField?]
  constructor
  · rintro ⟨_, t, ht, hname, f, hf, -⟩
    exact ⟨t, ht, hname, f, hf⟩
  · rintro ⟨t, ht, hname, f, hf⟩
    exact ⟨_, t, ht, hname, f, hf, rfl⟩

theorem reaches_schemaIndex (h : (b.types.map (·.name)).Nodup) {source : Source} {type : String} :
    b.schemaIndex.Reaches source type ↔ b.Reaches source type := by
  simp only [SchemaIndex.Reaches, Reaches, field?_schemaIndex h]
  constructor
  · rintro ⟨_, name, _, ⟨t, ht, -, f, hf, rfl⟩, htype, hsource⟩
    exact ⟨t, ht, name, f, hf, htype, TypeDefinition.mem_ownersOf.1 hsource⟩
  · rintro ⟨t, ht, name, f, hf, htype, hsource⟩
    exact ⟨t.name, name, _, ⟨t, ht, rfl, f, hf, rfl⟩, htype, TypeDefinition.mem_ownersOf.2 hsource⟩

theorem provided_schemaIndex (h : (b.types.map (·.name)).Nodup) :
    (∀ type field f, b.schemaIndex.field? type field = some f →
      ∀ source, ∀ name ∈ f.providesIn source,
        name = typenameField ∨ (b.schemaIndex.field? f.ofType name).isSome = true) ↔
    ∀ t ∈ b.types, ∀ name f, t.lastField? name = some f →
      ∀ source provided, f.provides? source = some provided → ∀ n ∈ Text.words provided,
        n = typenameField ∨ ∃ u ∈ b.types, u.name = f.type.name ∧ u.HasField n := by
  simp only [field?_schemaIndex h, isSome_field?_schemaIndex h]
  constructor
  · intro hall t ht name f hf source provided hprovided n hn
    refine hall t.name name _ ⟨t, ht, rfl, f, hf, rfl⟩ source n ?_
    rw [TypeDefinition.providesIn_fieldIndex, hprovided]
    exact hn
  · rintro hall type field _ ⟨t, ht, -, f, hf, rfl⟩ source n hn
    rw [TypeDefinition.providesIn_fieldIndex] at hn
    cases hprovided : f.provides? source with
    | none => simp [hprovided] at hn
    | some provided =>
      rw [hprovided] at hn
      exact hall t ht field f hf source provided hprovided n hn

theorem enterable_schemaIndex (h : (b.types.map (·.name)).Nodup) : b.schemaIndex.Enterable ↔
    ∀ u ∈ b.types, (∀ kind, b.rootType kind ≠ some u.name) →
      ∀ s s', s ≠ s' → b.Reaches s u.name → b.Reaches s' u.name →
        (∃ source, u.Keyed source) ∨
          ∀ source, b.Reaches source u.name → ∀ name f, u.lastField? name = some f →
            u.Owns source f := by
  have hroot : ∀ type, b.schemaIndex.isRootType type = false ↔
      ∀ kind, b.rootType kind ≠ some type := by
    intro type
    rw [← Bool.not_eq_true, SchemaIndex.isRootType_iff]
    simp only [rootType_schemaIndex, not_exists, ne_eq]
  simp only [SchemaIndex.Enterable, find?_schemaIndex h, reaches_schemaIndex h, hroot]
  constructor
  · intro hall u hu hroot s s' hne hs hs'
    by_cases hkeyed : ∃ source, u.Keyed source
    · exact .inl hkeyed
    · refine .inr fun source hsource name f hf => TypeDefinition.mem_ownersOf.1 ?_
      have hkey : u.typeIndex.key = [] := TypeDefinition.key_typeIndex.2 hkeyed
      refine hall u.name u.typeIndex ⟨u, hu, rfl, rfl⟩ hroot hkey s s' hne hs hs' source hsource
        name (u.fieldIndex f) ?_
      rw [TypeDefinition.find?_fields, hf]
      rfl
  · rintro hall _ _ ⟨u, hu, rfl, rfl⟩ hroot hkey s s' hne hs hs' source hsource name _ hf
    rw [TypeDefinition.find?_fields, Option.map_eq_some_iff] at hf
    obtain ⟨f, hf, rfl⟩ := hf
    cases hall u hu hroot s s' hne hs hs' with
    | inl hkeyed => exact absurd hkeyed (TypeDefinition.key_typeIndex.1 hkey)
    | inr howned => exact TypeDefinition.mem_ownersOf.2 (howned source hsource name f hf)

/-- A schema has an index exactly if its declarations fit together. -/
theorem index_decides (b : Blueprint) : b.index.Decides b.WellFormed b.schemaIndex := by
  have htypes := Validated.Decides.traverse (s := b.types) fun t _ =>
    ((t.index_decides b.sources).map fun x => (t.name, x)).within t.name
  have hchecks := (b.schemaIndex.checkRoots_decides.zip b.schemaIndex.checkProvides_decides).andThen
    (f := fun _ => b.schemaIndex.checkReachability.map fun _ => b.schemaIndex)
    (b.schemaIndex.checkReachability_decides.map fun _ => b.schemaIndex)
  refine Validated.Decides.congr ((b.checkDuplicates_decides.andThen htypes).andThen hchecks) ?_
  constructor
  · rintro ⟨⟨hdistinct, htypes⟩, ⟨hroots, hprovided⟩, henterable⟩
    refine ⟨hdistinct, htypes, fun kind root hroot => ?_,
      (provided_schemaIndex hdistinct).1 hprovided, (enterable_schemaIndex hdistinct).1 henterable⟩
    exact hasType_schemaIndex.1 (hroots kind root (b.rootType_schemaIndex kind ▸ hroot))
  · rintro ⟨hdistinct, htypes, hroots, hprovided, henterable⟩
    refine ⟨⟨hdistinct, htypes⟩, ⟨fun kind root hroot => ?_,
      (provided_schemaIndex hdistinct).2 hprovided⟩, (enterable_schemaIndex hdistinct).2 henterable⟩
    exact hasType_schemaIndex.2 (hroots kind root (b.rootType_schemaIndex kind ▸ hroot))

end Blueprint

/-- There is an index exactly if the declarations of the schema fit together. -/
theorem exists_index_iff (b : Blueprint) : (∃ x, b.index = .valid x) ↔ b.WellFormed :=
  b.index_decides.exists_iff

end FederatedQuery
