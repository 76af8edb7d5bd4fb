import FederatedQuery.Proofs.Table
import FederatedQuery.Proofs.Validation
import FederatedQuery.SchemaIndex

/-!
When the declarations of a type fit together. Every stage of indexing a type decides a condition of
its own, and the index holds what the type declares.
-/
namespace FederatedQuery

def Flat (fields : String) : Prop := '{' ∉ fields.toList ∧ '}' ∉ fields.toList

/-- The set of provided names that counts for a source, the last one declared. -/
def FieldDefinition.provides? (f : FieldDefinition) (source : Source) : Option String :=
  ((f.joinFields.filter (·.graph = some source)).filterMap (·.provides)).getLast?

def FieldDefinition.sets (f : FieldDefinition) (set : JoinField → Option String) :
    List (Source × String) :=
  f.joinFields.filterMap fun j => j.graph.bind fun g => (set j).map fun names => (g, names)

theorem FieldDefinition.mem_sets {f : FieldDefinition} {set : JoinField → Option String}
    {source : Source} {names : String} :
    (source, names) ∈ f.sets set ↔
      ∃ j ∈ f.joinFields, j.graph = some source ∧ set j = some names := by
  simp [sets, Option.bind_eq_some_iff]

theorem FieldDefinition.filter_sets (f : FieldDefinition) (set : JoinField → Option String)
    (source : Source) : ((f.sets set).filter (·.1 = source)).map (·.2) =
      (f.joinFields.filter (·.graph = some source)).filterMap set := by
  unfold sets
  induction f.joinFields with
  | nil => rfl
  | cons j js ih =>
    cases hgraph : j.graph with
    | none => simp [hgraph, ih]
    | some g =>
      cases hset : set j with
      | none => by_cases hg : g = source <;> simp [hgraph, hset, hg, ih]
      | some names => by_cases hg : g = source <;> simp [hgraph, hset, hg, ih]

namespace TypeDefinition

def HasField (t : TypeDefinition) (name : String) : Prop := ∃ f ∈ t.fields, f.name = name

def lastField? (t : TypeDefinition) (name : String) : Option FieldDefinition :=
  t.fields.reverse.find? (·.name = name)

structure Names (t : TypeDefinition) (fields : String) : Prop where
  flat : Flat fields
  defined : ∀ n ∈ Text.words fields, t.HasField n

/-- A source is an owner of a field: it is named by the field, or declares the type of a field that
names none. -/
def Owns (t : TypeDefinition) (source : Source) (f : FieldDefinition) : Prop :=
  (f.joinFields = [] ∧ source ∈ t.sources) ∨
    ∃ j ∈ f.joinFields, j.isExternal = false ∧ j.graph = some source

def Keyed (t : TypeDefinition) (source : Source) : Prop :=
  ∃ j ∈ t.joinTypes, j.graph = source ∧ ∃ key, j.key = some key ∧ Text.words key ≠ []

structure FitsField (t : TypeDefinition) (f : FieldDefinition) : Prop where
  owners : ∀ j ∈ f.joinFields, j.isExternal = false →
    ∀ source, j.graph = some source → source ∈ t.sources
  requires : ∀ j ∈ f.joinFields, j.graph.isSome = true →
    ∀ required, j.requires = some required → t.Names required
  provides : ∀ j ∈ f.joinFields, j.graph.isSome = true →
    ∀ provided, j.provides = some provided → Flat provided

structure Fits (t : TypeDefinition) (sources : List Source) : Prop where
  declared : ∀ j ∈ t.joinTypes, j.graph ∈ sources
  fields : ∀ f ∈ t.fields, t.FitsField f
  keys : ∀ j ∈ t.joinTypes, ∀ key, j.key = some key → Text.words key ≠ [] → t.Names key
  overrides : ∀ j ∈ t.joinTypes, j.resolvable = true → t.Keyed j.graph →
    ∀ field ∈ j.arguments.keys, t.HasField field

end TypeDefinition

/-! ### Sets of names -/

theorem fieldSet_decides (fields : String) :
    (fieldSet fields).Decides (Flat fields) (Text.words fields) := by
  unfold fieldSet
  by_cases h : '{' ∈ fields.toList ∨ '}' ∈ fields.toList
  · rw [if_pos h]
    exact (Validated.Decides.fail _ _).congr (iff_of_false id (fun hflat => h.elim hflat.1 hflat.2))
  · rw [if_neg h]
    exact (Validated.Decides.valid _).congr (iff_of_true trivial (not_or.1 h))

namespace TypeDefinition
variable (t : TypeDefinition)

theorem isSome_field? {t : TypeDefinition} {name : String} :
    (t.field? name).isSome = true ↔ t.HasField name := by
  simp [field?, HasField, List.find?_isSome]

theorem isSome_lastField? {t : TypeDefinition} {name : String} :
    (t.lastField? name).isSome = true ↔ t.HasField name := by
  simp [lastField?, HasField, List.find?_isSome]

theorem checkField_decides (fault : String → SchemaFault) (name : String) :
    (t.checkField fault name).Decides (t.HasField name) name := by
  unfold checkField
  by_cases h : (t.field? name).isSome = true
  · rw [if_pos h]
    exact (Validated.Decides.valid name).congr (iff_of_true trivial (isSome_field?.1 h))
  · rw [if_neg h]
    exact (Validated.Decides.fail _ name).congr (iff_of_false id (mt isSome_field?.2 h))

/-- A set of names is read and checked in one go. -/
theorem names_decides (fault : String → SchemaFault) (fields : String) :
    ((fieldSet fields).andThen (Validated.traverse (t.checkField fault))).Decides
      (t.Names fields) (Text.words fields) := by
  have hnames := Validated.Decides.traverse (s := Text.words fields) fun name _ =>
    t.checkField_decides fault name
  rw [List.map_id'] at hnames
  refine ((fieldSet_decides fields).andThen hnames).congr ⟨fun h => ⟨h.1, h.2⟩, fun h => ⟨h.1, h.2⟩⟩

theorem mem_ownersOf {t : TypeDefinition} {f : FieldDefinition} {source : Source} :
    source ∈ t.ownersOf f ↔ t.Owns source f := by
  unfold ownersOf Owns
  cases f.joinFields with
  | nil => simp
  | cons j js => simp [and_assoc]

theorem mem_keyDeclarations {t : TypeDefinition} {source : Source} {key : String} :
    (source, key) ∈ t.keyDeclarations ↔
      ∃ j ∈ t.joinTypes, j.graph = source ∧ j.key = some key ∧ Text.words key ≠ [] := by
  rw [keyDeclarations, List.mem_filterMap]
  refine exists_congr fun j => and_congr_right fun _ => ?_
  cases j.key with
  | none => simp
  | some declared =>
    by_cases h : Text.words declared = []
    · simp only [h, List.isEmpty_nil, if_true, Option.some.injEq, reduceCtorEq, false_iff]
      rintro ⟨-, rfl, hne⟩
      exact hne h
    · simp only [List.isEmpty_iff, h, if_false, Option.some.injEq, Prod.mk.injEq]
      refine and_congr_right fun _ => ⟨fun heq => ⟨heq, heq ▸ h⟩, And.left⟩

/-! ### The index of a type -/

def keySets (t : TypeDefinition) : List (Source × List String) :=
  t.keyDeclarations.map fun e => (e.1, Text.words e.2)

def fieldIndex (t : TypeDefinition) (f : FieldDefinition) : FieldIndex :=
  ⟨t.ownersOf f, f.type.name, f.type.isList,
    Table.ofList ((f.sets (·.requires)).map fun e => (e.1, Text.words e.2)),
    Table.ofList ((f.sets (·.provides)).map fun e => (e.1, Text.words e.2))⟩

def entrance (j : JoinType) (key : List String) : EntryPoint :=
  ⟨j.graph, j.entryField.getD defaultEntryField, key, j.arguments⟩

def typeIndex (t : TypeDefinition) : TypeIndex :=
  ⟨t.sources, (t.keySets.head?.map (·.2)).getD [],
    Table.ofList (t.fields.map fun f => (f.name, t.fieldIndex f)),
    Table.ofList ((t.entrances t.keySets).map fun e => (e.1.graph, entrance e.1 e.2))⟩

theorem find?_fields (t : TypeDefinition) (name : String) :
    t.typeIndex.fields.find? name = (t.lastField? name).map t.fieldIndex :=
  Table.find?_ofList_map _ _ _ name

theorem providesIn_fieldIndex (t : TypeDefinition) (f : FieldDefinition) (source : Source) :
    (t.fieldIndex f).providesIn source = ((f.provides? source).map Text.words).getD [] := by
  have hlast : ((f.sets (·.provides)).reverse.find? (·.1 = source)).map (·.2) =
      f.provides? source := by
    rw [← List.getLast?_filter, ← List.getLast?_map, FieldDefinition.filter_sets]
    rfl
  rw [FieldIndex.providesIn, fieldIndex, Table.find?_ofList_map, ← hlast, Option.map_map]
  rfl

/-- The first key of a type is empty if no source declares one. -/
theorem key_typeIndex {t : TypeDefinition} :
    t.typeIndex.key = [] ↔ ¬∃ source, t.Keyed source := by
  have hkeyed : (∃ source, t.Keyed source) ↔ t.keyDeclarations ≠ [] := by
    rw [ne_eq, List.eq_nil_iff_forall_not_mem, not_forall_not]
    constructor
    · rintro ⟨source, j, hj, hgraph, key, hkey⟩
      exact ⟨(source, key), mem_keyDeclarations.2 ⟨j, hj, hgraph, hkey⟩⟩
    · rintro ⟨e, he⟩
      obtain ⟨j, hj, hgraph, hkey⟩ := mem_keyDeclarations.1 he
      exact ⟨e.1, j, hj, hgraph, e.2, hkey⟩
  rw [hkeyed, not_not, typeIndex, keySets]
  cases h : t.keyDeclarations with
  | nil => simp
  | cons e es =>
    have hmem : e ∈ t.keyDeclarations := h ▸ List.mem_cons_self
    obtain ⟨-, -, -, -, hwords⟩ := mem_keyDeclarations.1 hmem
    simp [hwords]

theorem lookup_keySets {t : TypeDefinition} {source : Source} {key : List String}
    (h : t.keySets.lookup source = some key) :
    ∃ declared, (source, declared) ∈ t.keyDeclarations ∧ Text.words declared = key := by
  obtain ⟨front, behind, heq, -⟩ := List.lookup_eq_some_iff.1 h
  have hmem : (source, key) ∈ t.keySets := by simp [heq]
  obtain ⟨e, he, hkey⟩ := List.mem_map.1 hmem
  obtain ⟨rfl, rfl⟩ := Prod.mk.inj hkey
  exact ⟨e.2, he, rfl⟩

theorem isSome_lookup_keySets {t : TypeDefinition} {source : Source} :
    (t.keySets.lookup source).isSome = true ↔ t.Keyed source := by
  rw [keySets, Table.lookup_map, Option.isSome_map, List.find?_isSome]
  constructor
  · rintro ⟨e, he, hsource⟩
    obtain ⟨j, hj, hgraph, hkey⟩ := mem_keyDeclarations.1 he
    exact ⟨j, hj, hgraph.trans (by simpa using hsource), e.2, hkey⟩
  · rintro ⟨j, hj, hgraph, key, hkey⟩
    exact ⟨(source, key), mem_keyDeclarations.2 ⟨j, hj, hgraph, hkey⟩, by simp⟩

theorem mem_entrances {t : TypeDefinition} {keys : List (Source × List String)} {j : JoinType}
    {key : List String} : (j, key) ∈ t.entrances keys ↔
      j ∈ t.joinTypes ∧ j.resolvable = true ∧ keys.lookup j.graph = some key := by
  rw [entrances, List.mem_filterMap]
  constructor
  · rintro ⟨k, hk, heq⟩
    by_cases hr : k.resolvable = true
    · rw [if_pos hr] at heq
      obtain ⟨key', hkey, hpair⟩ := Option.map_eq_some_iff.1 heq
      obtain ⟨rfl, rfl⟩ := Prod.mk.inj hpair
      exact ⟨hk, hr, hkey⟩
    · rw [if_neg hr] at heq
      exact nomatch heq
  · rintro ⟨hj, hr, hkey⟩
    exact ⟨j, hj, by simp [hr, hkey]⟩

theorem entityKeys_decides :
    t.entityKeys.Decides (∀ e ∈ t.keyDeclarations, t.Names e.2) t.keySets := by
  refine Validated.Decides.traverse fun e _ => ?_
  exact ((t.names_decides _ e.2).within e.1).map _

theorem entryPoint_decides (j : JoinType) (key : List String) :
    (t.entryPoint j key).Decides (∀ field ∈ j.arguments.keys, field ∈ key ∨ t.HasField field)
      (j.graph, entrance j key) := by
  unfold entryPoint
  refine (Validated.Decides.map (Validated.Decides.traverse (g := fun _ => ()) fun field _ => ?_) _)
  refine (Validated.Decides.check _ _).congr ?_
  rw [Bool.or_eq_true, List.contains_iff_mem, isSome_field?]

theorem entryPoints_decides (keys : List (Source × List String)) :
    (t.entryPoints keys).Decides
      (∀ e ∈ t.entrances keys, ∀ field ∈ e.1.arguments.keys, field ∈ e.2 ∨ t.HasField field)
      (Table.ofList ((t.entrances keys).map fun e => (e.1.graph, entrance e.1 e.2))) := by
  refine (Validated.Decides.traverse fun e _ => ?_).map _
  exact t.entryPoint_decides e.1 e.2

theorem indexField_decides (f : FieldDefinition) :
    (t.indexField f).Decides (t.FitsField f) (t.fieldIndex f) := by
  have howned := Validated.Decides.traverse (s := t.ownersOf f) fun source _ =>
    Validated.Decides.check (t.sources.contains source) (SchemaFault.foreignOwner source t.name)
  have hrequires := Validated.Decides.traverse (s := f.sets (·.requires)) fun e _ =>
    (t.names_decides (fun r => .unknownRequired r t.name) e.2).map fun names => (e.1, names)
  have hprovides := Validated.Decides.traverse (s := f.sets (·.provides)) fun e _ =>
    (fieldSet_decides e.2).map fun names => (e.1, names)
  refine ((((howned.zip hrequires).zip hprovides).map _).within f.name).congr ?_
  simp only [List.contains_iff_mem]
  constructor
  · rintro ⟨⟨howners, hrequired⟩, hprovided⟩
    refine ⟨fun j hj hlocal source hgraph => ?_, fun j hj hgraph required hset => ?_,
      fun j hj hgraph provided hset => ?_⟩
    · exact howners source (mem_ownersOf.2 (.inr ⟨j, hj, hlocal, hgraph⟩))
    · obtain ⟨source, hsource⟩ := Option.isSome_iff_exists.1 hgraph
      exact hrequired _ (FieldDefinition.mem_sets.2 ⟨j, hj, hsource, hset⟩)
    · obtain ⟨source, hsource⟩ := Option.isSome_iff_exists.1 hgraph
      exact hprovided _ (FieldDefinition.mem_sets.2 ⟨j, hj, hsource, hset⟩)
  · rintro ⟨howners, hrequired, hprovided⟩
    refine ⟨⟨fun source hsource => ?_, fun e he => ?_⟩, fun e he => ?_⟩
    · cases mem_ownersOf.1 hsource with
      | inl hall => exact hall.2
      | inr hnamed =>
        obtain ⟨j, hj, hlocal, hgraph⟩ := hnamed
        exact howners j hj hlocal source hgraph
    · obtain ⟨j, hj, hgraph, hset⟩ := FieldDefinition.mem_sets.1 he
      exact hrequired j hj (Option.isSome_of_eq_some hgraph) e.2 hset
    · obtain ⟨j, hj, hgraph, hset⟩ := FieldDefinition.mem_sets.1 he
      exact hprovided j hj (Option.isSome_of_eq_some hgraph) e.2 hset

/-- The declarations of a type are accepted exactly if they fit together. -/
theorem index_decides (sources : List Source) :
    (t.index sources).Decides (t.Fits sources) t.typeIndex := by
  have hdeclared := Validated.Decides.traverse (s := t.sources) fun source _ =>
    Validated.Decides.check (sources.contains source) (SchemaFault.undeclaredSource source)
  have hfields := Validated.Decides.traverse (s := t.fields) fun f _ =>
    (t.indexField_decides f).map fun x => (f.name, x)
  refine Validated.Decides.congr (Validated.Decides.andThen
    ((hdeclared.zip t.entityKeys_decides).zip hfields)
    ((t.entryPoints_decides t.keySets).map _)) ?_
  simp only [List.contains_iff_mem]
  constructor
  · rintro ⟨⟨⟨hdeclared, hkeys⟩, hfields⟩, hoverrides⟩
    refine ⟨fun j hj => hdeclared _ (List.mem_map_of_mem hj), hfields,
      fun j hj key hkey hwords => hkeys (j.graph, key) ?_, fun j hj hr hkeyed field hfield => ?_⟩
    · exact mem_keyDeclarations.2 ⟨j, hj, rfl, hkey, hwords⟩
    · obtain ⟨key, hkey⟩ := Option.isSome_iff_exists.1 (isSome_lookup_keySets.2 hkeyed)
      cases hoverrides _ (mem_entrances.2 ⟨hj, hr, hkey⟩) field hfield with
      | inl hmem =>
        -- the names of a key are fields already
        obtain ⟨declared, hdecl, rfl⟩ := lookup_keySets hkey
        exact (hkeys _ hdecl).defined field hmem
      | inr hdefined => exact hdefined
  · rintro ⟨hdeclared, hfields, hkeys, hoverrides⟩
    refine ⟨⟨⟨fun source hsource => ?_, fun e he => ?_⟩, hfields⟩, fun e he field hfield => ?_⟩
    · obtain ⟨j, hj, rfl⟩ := List.mem_map.1 hsource
      exact hdeclared j hj
    · obtain ⟨j, hj, -, hkey, hwords⟩ := mem_keyDeclarations.1 he
      exact hkeys j hj e.2 hkey hwords
    · obtain ⟨hj, hr, hkey⟩ := mem_entrances.1 he
      have hkeyed := isSome_lookup_keySets.1 (Option.isSome_of_eq_some hkey)
      exact .inr (hoverrides e.1 hj hr hkeyed field hfield)

end TypeDefinition
end FederatedQuery
