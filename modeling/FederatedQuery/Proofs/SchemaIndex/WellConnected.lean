import FederatedQuery.Proofs.Decomposition.Keys
import FederatedQuery.Proofs.SchemaIndex.Built

/-!
Well-connected schemas. Where two sources declare a type each of them can be entered from every
other, so a field can always leave for its owner with one direct hop.
-/
namespace FederatedQuery

namespace SchemaIndex

def Shared (x : SchemaIndex) (type : String) : Prop :=
  ∃ s ∈ x.sourcesOf type, ∃ s' ∈ x.sourcesOf type, s ≠ s'

/-- Every field has an owner, and who owns a field declares the type that the field returns. A type
that sources share is entered in each of them, and each owns all keys and required fields. -/
structure WellConnected (x : SchemaIndex) : Prop where
  owned : ∀ type field f, x.field? type field = some f → f.owners ≠ []
  declared : ∀ type field f, x.field? type field = some f → x.hasType f.ofType = true →
    f.owners ⊆ x.sourcesOf f.ofType
  enterable : ∀ type, x.Shared type → ∀ source ∈ x.sourcesOf type,
    ∃ e ∈ x.entryPoint? type source, ∀ k ∈ e.key, x.sourcesOf type ⊆ x.ownersOf type k
  required : ∀ type field f, x.field? type field = some f → x.Shared type →
    ∀ source, ∀ k ∈ f.requiresIn source, x.sourcesOf type ⊆ x.ownersOf type k

theorem mem_requiresIn {f : FieldIndex} {name : String} :
    name ∈ f.requires.values.flatten ↔ ∃ source, name ∈ f.requiresIn source :=
  Table.mem_flatten_values_iff

instance (x : SchemaIndex) (type : String) : Decidable (x.Shared type) :=
  inferInstanceAs (Decidable (∃ _ ∈ _, ∃ _ ∈ _, _))

theorem mem_keys_of_shared {x : SchemaIndex} {type : String} (h : x.Shared type) :
    type ∈ x.types.keys := by
  obtain ⟨source, hsource, -⟩ := h
  unfold sourcesOf at hsource
  cases hfind : x.types.find? type with
  | none => simp [hfind] at hsource
  | some i => exact List.mem_map_of_mem (Table.mem_entries_iff.2 hfind)

/-- It is enough to look at what stands in the tables. -/
theorem wellConnected_iff (x : SchemaIndex) : x.WellConnected ↔
    (∀ t ∈ x.types.entries, ∀ e ∈ t.2.fields.entries, e.2.owners ≠ [] ∧
      (x.hasType e.2.ofType = true → e.2.owners ⊆ x.sourcesOf e.2.ofType) ∧
      (x.Shared t.1 → ∀ k ∈ e.2.requires.values.flatten,
        x.sourcesOf t.1 ⊆ x.ownersOf t.1 k)) ∧
    ∀ type ∈ x.types.keys, x.Shared type → ∀ source ∈ x.sourcesOf type,
      ∃ e ∈ x.entryPoint? type source, ∀ k ∈ e.key, x.sourcesOf type ⊆ x.ownersOf type k := by
  rw [forall_fields_iff (P := fun type _ f => f.owners ≠ [] ∧
    (x.hasType f.ofType = true → f.owners ⊆ x.sourcesOf f.ofType) ∧
    (x.Shared type → ∀ k ∈ f.requires.values.flatten, x.sourcesOf type ⊆ x.ownersOf type k))]
  constructor
  · intro h
    refine ⟨fun type field f hf => ⟨h.owned type field f hf, h.declared type field f hf, ?_⟩,
      fun type _ => h.enterable type⟩
    intro hshared k hk
    obtain ⟨source, hk⟩ := mem_requiresIn.1 hk
    exact h.required type field f hf hshared source k hk
  · intro h
    exact {
      owned := fun type field f hf => (h.1 type field f hf).1
      declared := fun type field f hf => (h.1 type field f hf).2.1
      enterable := fun type hshared => h.2 type (mem_keys_of_shared hshared) hshared
      required := fun type field f hf hshared source k hk =>
        (h.1 type field f hf).2.2 hshared k (mem_requiresIn.2 ⟨source, hk⟩) }

instance (x : SchemaIndex) : Decidable x.WellConnected :=
  decidable_of_iff' _ x.wellConnected_iff

variable {b : Blueprint} {x : SchemaIndex} {type : String} {source target : Source}

/-- What a source receives is a key of its entry point or required by a field of the type, and in a
shared type every source owns that. -/
theorem WellConnected.resolvesAll (hx : x.WellConnected) (hsource : source ∈ x.sourcesOf type)
    (htarget : target ∈ x.sourcesOf type) (hne : source ≠ target) (names : List String) :
    x.resolvesAll type source (x.forwardedKeys type target names) = true := by
  have hshared : x.Shared type := ⟨source, hsource, target, htarget, hne⟩
  refine List.all_eq_true.2 fun k hk => decide_eq_true ?_
  cases mem_forwardedKeys.1 hk with
  | inl hkey =>
    obtain ⟨e, he, hkeys⟩ := hx.enterable type hshared target htarget
    rw [keyFor, he] at hkey
    exact hkeys k hkey hsource
  | inr hrequired =>
    obtain ⟨n, -, hrequires⟩ := hrequired
    unfold requiresOf at hrequires
    cases hfield : x.field? type n with
    | none => simp [hfield] at hrequires
    | some f =>
      rw [hfield] at hrequires
      exact hx.required type n f hfield hshared target k hrequires hsource

/-- A field that leaves hops directly to a source that can be entered. -/
theorem WellConnected.hop (hb : b.index = .valid x) (hx : x.WellConnected)
    (hsource : source ∈ x.sourcesOf type) (htarget : target ∈ x.sourcesOf type)
    (hne : source ≠ target) (names : List String) :
    (x.entryPoint? type target).isSome = true ∧
      x.hop type source target names = .ok (.direct (x.forwardedKeys type target names)) := by
  obtain ⟨e, he, -⟩ := hx.enterable type ⟨source, hsource, target, htarget, hne⟩ target htarget
  have hkey : x.keyFor type target ≠ [] := by
    rw [keyFor, he]
    exact key_of_entryPoint? hb he
  have hempty : (x.keyFor type target).isEmpty = false := by
    simpa [List.isEmpty_iff, ← Bool.not_eq_true] using hkey
  refine ⟨Option.isSome_of_mem he, ?_⟩
  simp [SchemaIndex.hop, hempty, hx.resolvesAll hsource htarget hne names]

end SchemaIndex
end FederatedQuery
