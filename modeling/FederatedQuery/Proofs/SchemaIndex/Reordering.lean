import FederatedQuery.Plan
import FederatedQuery.Proofs.SchemaIndex.Built

/-!
The order of types and sources. It matters neither for whether the declarations of a schema fit
together nor for its index, since both go by names.
-/
namespace FederatedQuery

structure Blueprint.Reordered (b c : Blueprint) : Prop where
  same : c = { b with sources := c.sources, types := c.types }
  sources : b.sources.Perm c.sources
  types : b.types.Perm c.types

structure SchemaIndex.AnswersAlike (x y : SchemaIndex) : Prop where
  hasType : ∀ type, x.hasType type = y.hasType type
  rootType : ∀ kind, x.rootType kind = y.rootType kind
  sourcesOf : ∀ type, x.sourcesOf type = y.sourcesOf type
  ownersOf : ∀ type field, x.ownersOf type field = y.ownersOf type field
  entityKeyOf : ∀ type, x.entityKeyOf type = y.entityKeyOf type
  field? : ∀ type field, x.field? type field = y.field? type field
  entryPoint? : ∀ type source, x.entryPoint? type source = y.entryPoint? type source

theorem SchemaIndex.AnswersAlike.refl (x : SchemaIndex) : x.AnswersAlike x :=
  ⟨fun _ => rfl, fun _ => rfl, fun _ => rfl, fun _ _ => rfl, fun _ => rfl, fun _ _ => rfl,
    fun _ _ => rfl⟩

namespace Blueprint.Reordered
variable {b c : Blueprint}

theorem symm (h : b.Reordered c) : c.Reordered b := by
  refine ⟨?_, h.sources.symm, h.types.symm⟩
  rw [h.same]

theorem rootType (h : b.Reordered c) (kind : OperationKind) :
    b.rootType kind = c.rootType kind := by
  rw [h.same]
  cases kind with
  | query => rfl
  | mutation => rfl
  | subscription => rfl

theorem defines (h : b.Reordered c) {type : String} (hb : b.Defines type) : c.Defines type := by
  obtain ⟨t, ht, hname⟩ := hb
  exact ⟨t, h.types.mem_iff.1 ht, hname⟩

theorem reaches (h : b.Reordered c) {source : Source} {type : String}
    (hb : b.Reaches source type) : c.Reaches source type := by
  obtain ⟨t, ht, hfield⟩ := hb
  exact ⟨t, h.types.mem_iff.1 ht, hfield⟩

/-- Declarations that fit together do so in any order. -/
theorem wellFormed (h : b.Reordered c) (hb : b.WellFormed) : c.WellFormed where
  distinct := (h.types.map _).nodup_iff.1 hb.distinct
  types t ht := by
    have hfits := hb.types t (h.types.mem_iff.2 ht)
    exact { hfits with declared := fun j hj => h.sources.mem_iff.1 (hfits.declared j hj) }
  roots kind root hroot := h.defines (hb.roots kind root (h.rootType kind ▸ hroot))
  provided t ht name f hf source provided hprovided n hn := by
    refine (hb.provided t (h.types.mem_iff.2 ht) name f hf source provided hprovided n hn).imp_right
      fun ⟨u, hu, hfield⟩ => ⟨u, h.types.mem_iff.1 hu, hfield⟩
  enterable u hu hroot s s' hne hs hs' := by
    have hroot' : ∀ kind, b.rootType kind ≠ some u.name := fun kind => h.rootType kind ▸ hroot kind
    refine (hb.enterable u (h.types.mem_iff.2 hu) hroot' s s' hne (h.symm.reaches hs)
      (h.symm.reaches hs')).imp_right fun howned source hsource => ?_
    exact howned source (h.symm.reaches hsource)

/-- With distinct names a type is found wherever it stands. -/
theorem schemaIndex_eq (h : b.Reordered c) (hb : (b.types.map (·.name)).Nodup) :
    b.schemaIndex = c.schemaIndex := by
  have hc : (c.types.map (·.name)).Nodup := (h.types.map _).nodup_iff.1 hb
  have htypes : b.schemaIndex.types = c.schemaIndex.types := by
    refine Table.eq_of_find? fun type => ?_
    ext i
    rw [find?_schemaIndex hb, find?_schemaIndex hc]
    simp only [h.types.mem_iff]
  have hquery : b.query = c.query := by rw [h.same]
  have hmutation : b.mutation = c.mutation := by rw [h.same]
  have hsubscription : b.subscription = c.subscription := by rw [h.same]
  show (⟨b.query, b.mutation, b.subscription, b.schemaIndex.types⟩ : SchemaIndex) =
    ⟨c.query, c.mutation, c.subscription, c.schemaIndex.types⟩
  rw [htypes, hquery, hmutation, hsubscription]

end Blueprint.Reordered

/-- Types and sources may stand in any order: either no order of them has an index, or all have
indexes that answer every question alike and give every query the same plan or the same error. -/
theorem index_reordered {b c : Blueprint} (h : b.Reordered c) :
    ((∃ x, b.index = .valid x) ↔ ∃ y, c.index = .valid y) ∧
    ∀ x y, b.index = .valid x → c.index = .valid y → x.AnswersAlike y ∧
      ∀ (config : PlannerConfig) (text : String) (name? : Option String),
        Planner.planQuery ⟨x, config⟩ text name? = Planner.planQuery ⟨y, config⟩ text name? := by
  constructor
  · rw [b.index_decides.exists_iff, c.index_decides.exists_iff]
    exact ⟨h.wellFormed, h.symm.wellFormed⟩
  · intro x y hx hy
    obtain ⟨hformed, rfl⟩ := b.index_decides.of_valid hx
    obtain ⟨-, rfl⟩ := c.index_decides.of_valid hy
    rw [h.schemaIndex_eq hformed.distinct]
    exact ⟨.refl _, fun _ _ _ => rfl⟩

def turnedLibrarySchema : Blueprint :=
  { librarySchema with
    sources := librarySchema.sources.reverse, types := librarySchema.types.reverse }

theorem index_reordered_library :
    turnedLibrarySchema.types.map (·.name) = ["Copy", "Book", "Query"] ∧
    ∃ y, turnedLibrarySchema.index = .valid y ∧ library.AnswersAlike y ∧
      ∀ config text name?, Planner.planQuery ⟨library, config⟩ text name? =
        Planner.planQuery ⟨y, config⟩ text name? := by
  have hindex : librarySchema.index = .valid library :=
    Validated.eq_valid_of_isValid (by decide +kernel) ⟨"", none, none, .empty⟩
  have hturned : librarySchema.Reordered turnedLibrarySchema :=
    ⟨rfl, (List.reverse_perm _).symm, (List.reverse_perm _).symm⟩
  obtain ⟨hboth, hsame⟩ := index_reordered hturned
  obtain ⟨y, hy⟩ := hboth.1 ⟨library, hindex⟩
  exact ⟨rfl, y, hy, hsame library y hindex hy⟩

end FederatedQuery
