import FederatedQuery.Proofs.Decomposition.Success

/-!
Keys: what a hop forwards and who resolves it, and the hidden fields that carry it. Carrying only
appends hidden fields without sub-selection, and in the end every key is held.
-/
namespace FederatedQuery

theorem prefix_addNew (items more : List String) : items <+: addNew items more := by
  induction more generalizing items with
  | nil => exact List.prefix_rfl
  | cons a more ih =>
    refine List.IsPrefix.trans ?_ (ih _)
    by_cases ha : a ∈ items <;> simp [ha]

namespace SchemaIndex
variable {x : SchemaIndex} {type : String} {source target : Source} {names : List String}

theorem mem_ownersOf_of_resolvesAll {keys : List String}
    (h : x.resolvesAll type source keys = true) {k : String} (hk : k ∈ keys) :
    source ∈ x.ownersOf type k := by
  have := List.all_eq_true.1 h k hk
  simpa using this

theorem keyFor_prefix_forwardedKeys (x : SchemaIndex) (type : String) (target : Source)
    (names : List String) : x.keyFor type target <+: x.forwardedKeys type target names := by
  have hall : ∀ ks : List String,
      ks <+: names.foldl (fun ks f => addNew ks (x.requiresOf type f target)) ks := by
    induction names with
    | nil => exact fun ks => List.prefix_rfl
    | cons n names ih => exact fun ks => (prefix_addNew ks _).trans (ih _)
  exact hall _

theorem mem_forwardedKeys {k : String} : k ∈ x.forwardedKeys type target names ↔
    k ∈ x.keyFor type target ∨ ∃ n ∈ names, k ∈ x.requiresOf type n target := by
  have hall : ∀ ks : List String,
      k ∈ names.foldl (fun ks f => addNew ks (x.requiresOf type f target)) ks ↔
        k ∈ ks ∨ ∃ n ∈ names, k ∈ x.requiresOf type n target := by
    induction names with
    | nil => simp
    | cons n names ih =>
      intro ks
      simp only [List.foldl_cons, ih, mem_addNew, List.mem_cons, exists_eq_or_imp, or_assoc]
  exact hall _

theorem requiresOf_subset_forwardedKeys {n : String} (hn : n ∈ names) :
    x.requiresOf type n target ⊆ x.forwardedKeys type target names :=
  fun _ hk => mem_forwardedKeys.2 (.inr ⟨n, hn, hk⟩)

/-- What a direct hop hands over, the source at hand resolves. -/
theorem hop_direct {keys : List String} (h : x.hop type source target names = .ok (.direct keys)) :
    x.keyFor type target ≠ [] ∧ keys = x.forwardedKeys type target names ∧
      x.resolvesAll type source keys = true := by
  simp only [hop] at h
  split at h
  · exact nomatch h
  · split at h
    · cases h
      exact ⟨fun he => ‹¬_› (by simp [he]), rfl, ‹_›⟩
    · split at h <;> cases h

/-- What a bridged hop hands over, the base resolves, and the source at hand resolves the key of the
base. -/
theorem hop_bridged {base : Source} {baseKeys keys : List String}
    (h : x.hop type source target names = .ok (.bridged base baseKeys keys)) :
    x.keyFor type target ≠ [] ∧ keys = x.forwardedKeys type target names ∧
      base ∈ x.sourcesOf type ∧ (∃ e, x.entryPoint? type base = some e ∧ e.key = baseKeys) ∧
      x.resolvesAll type source baseKeys = true ∧ x.resolvesAll type base keys = true := by
  simp only [hop] at h
  split at h
  · exact nomatch h
  · split at h
    · cases h
    · split at h
      · rename_i hb
        cases h
        obtain ⟨b, hmem, hb⟩ := List.exists_of_findSome?_eq_some hb
        split at hb
        · exact nomatch hb
        · obtain ⟨e, he, hb⟩ := Option.bind_eq_some_iff.1 hb
          split at hb
          · rename_i hres
            cases hb
            rw [Bool.and_eq_true] at hres
            exact ⟨fun hk => ‹¬(x.keyFor type target).isEmpty = true› (by simp [hk]), rfl, hmem,
              ⟨e, he, rfl⟩, hres.1, hres.2⟩
          · exact nomatch hb
      · cases h

end SchemaIndex

namespace SelectionSet

theorem holdsKey_append (s t : SelectionSet) (type enclosing key : String) :
    (s ++ t).holdsKey type enclosing key =
      (s.holdsKey type enclosing key || holdsKey t type enclosing key) := List.any_append

theorem holdsKey_iff {s : SelectionSet} {type enclosing key : String} :
    s.holdsKey type enclosing key = true ↔ ∃ n ∈ s, n.name = key ∧ n.alias? = none ∧
      (n.onType = type ∨ n.onType = enclosing) := by
  simp [holdsKey, List.any_eq_true, and_assoc]

end SelectionSet

namespace Planner
variable (p : Planner)

theorem mem_carried {keys : List String} {k : String} : k ∈ p.carried keys ↔
    (p.config.typenameInRepresentations = true ∧ k = typenameField) ∨ k ∈ keys := by
  unfold carried
  split <;> simp [*]

theorem keyNode_holdsKey (place : List String) (type enclosing key : String) :
    SelectionSet.holdsKey [p.keyNode place type key] type enclosing key = true := by
  simp [SelectionSet.holdsKey, keyNode]

/-- Injecting appends hidden fields, after which every key is held. -/
theorem injectKeys_spec (place : List String) (type enclosing : String) (keys : List String)
    (s : SelectionSet) : ∃ added : List SelectionNode,
      p.injectKeys place type enclosing keys s = s ++ added ∧
      (∀ n ∈ added, ∃ k ∈ p.carried keys, n = p.keyNode place type k) ∧
      ∀ k ∈ p.carried keys, (s ++ added).holdsKey type enclosing k = true := by
  unfold injectKeys
  induction p.carried keys generalizing s with
  | nil => exact ⟨[], by simp, by simp, by simp⟩
  | cons k ks ih =>
    rw [List.foldl_cons]
    by_cases hk : s.holdsKey type enclosing k = true
    · obtain ⟨added, heq, hadded, hheld⟩ := ih s
      rw [if_pos hk]
      refine ⟨added, heq, fun n hn => ?_, List.forall_mem_cons.2 ⟨?_, hheld⟩⟩
      · obtain ⟨k', hk', he⟩ := hadded n hn
        exact ⟨k', List.mem_cons_of_mem k hk', he⟩
      · rw [SelectionSet.holdsKey_append, hk, Bool.true_or]
    · obtain ⟨added, heq, hadded, hheld⟩ := ih (s ++ [p.keyNode place type k])
      rw [if_neg hk]
      refine ⟨p.keyNode place type k :: added, by simp [heq], ?_, List.forall_mem_cons.2 ⟨?_, ?_⟩⟩
      · refine List.forall_mem_cons.2 ⟨⟨k, by simp, rfl⟩, fun n hn => ?_⟩
        obtain ⟨k', hk', he⟩ := hadded n hn
        exact ⟨k', List.mem_cons_of_mem k hk', he⟩
      · rw [← List.singleton_append, SelectionSet.holdsKey_append, SelectionSet.holdsKey_append,
          keyNode_holdsKey, Bool.true_or, Bool.or_true]
      · simpa using hheld

/-- Carrying appends hidden fields for entries of the fragment, after which it holds every key that
it hands on. -/
theorem carry_spec (place : List String) (entries : List Entry) (id : Nat)
    (enclosing? : Option String) (s : SelectionSet) : ∃ added : List SelectionNode,
      p.carry place entries id enclosing? s = s ++ added ∧
      (∀ n ∈ added, ∃ e ∈ entries, e.parent = id ∧
        ∃ k ∈ p.carried e.fragment.requiredKeys, n = p.keyNode place e.fragment.onType k) ∧
      ∀ e ∈ entries, e.parent = id → ∀ k ∈ p.carried e.fragment.requiredKeys,
        (s ++ added).holdsKey e.fragment.onType (enclosing?.getD e.fragment.onType) k = true := by
  unfold carry
  induction entries generalizing s with
  | nil => exact ⟨[], by simp, by simp, by simp⟩
  | cons e entries ih =>
    by_cases he : e.parent = id
    · obtain ⟨first, hfirst, hf, hheld⟩ := p.injectKeys_spec place e.fragment.onType
        (enclosing?.getD e.fragment.onType) e.fragment.requiredKeys s
      obtain ⟨added, heq, hadded, hrest⟩ := ih (s ++ first)
      rw [List.filter_cons_of_pos (by simpa using he), List.foldl_cons, hfirst, heq]
      refine ⟨first ++ added, by simp, fun n hn => ?_, List.forall_mem_cons.2 ⟨?_, ?_⟩⟩
      · cases List.mem_append.1 hn with
        | inl hn =>
          obtain ⟨k, hk, rfl⟩ := hf n hn
          exact ⟨e, by simp, he, k, hk, rfl⟩
        | inr hn =>
          obtain ⟨e', he', hrest'⟩ := hadded n hn
          exact ⟨e', List.mem_cons_of_mem e he', hrest'⟩
      · intro _ k hk
        rw [← List.append_assoc, SelectionSet.holdsKey_append, hheld k hk, Bool.true_or]
      · simpa using hrest
    · obtain ⟨added, heq, hadded, hrest⟩ := ih s
      rw [List.filter_cons_of_neg (by simpa using he)]
      refine ⟨added, heq, fun n hn => ?_, List.forall_mem_cons.2 ⟨fun h => absurd h he, hrest⟩⟩
      obtain ⟨e', he', hrest'⟩ := hadded n hn
      exact ⟨e', List.mem_cons_of_mem e he', hrest'⟩

theorem carry_hidden (place : List String) (entries : List Entry) (id : Nat)
    (enclosing? : Option String) (s : SelectionSet) : ∃ added : List SelectionNode,
      p.carry place entries id enclosing? s = s ++ added ∧
      ∀ n ∈ added, n.isHidden = true ∧ n.children = [] := by
  obtain ⟨added, heq, hadded, -⟩ := p.carry_spec place entries id enclosing? s
  refine ⟨added, heq, fun n hn => ?_⟩
  obtain ⟨e, -, -, k, -, rfl⟩ := hadded n hn
  exact ⟨rfl, rfl⟩

theorem visible_carry (above place : List String) (entries : List Entry) (id : Nat)
    (enclosing? : Option String) (s : SelectionSet) :
    SelectionSet.visible above (p.carry place entries id enclosing? s) =
      SelectionSet.visible above s := by
  obtain ⟨added, heq, hadded⟩ := p.carry_hidden place entries id enclosing? s
  have hnone := SelectionSet.visible_of_hidden above hadded
  rw [heq, SelectionSet.visible_append, hnone, List.append_nil]

/-- An entry that carries keys has more hidden fields, and holds the key of what is entered from
it. -/
theorem carryEntry_spec (place : List String) (entries : List Entry) (e : Entry) :
    ∃ added : List SelectionNode,
      (p.carryEntry place entries e).fragment.selection = e.fragment.selection ++ added ∧
      (∀ n ∈ added, n.isHidden = true ∧ n.children = []) ∧
      ∀ c ∈ entries, c.parent = e.id → ∀ k ∈ c.fragment.requiredKeys,
        (p.carryEntry place entries e).fragment.selection.holdsKey c.fragment.onType
          c.fragment.onType k = true := by
  obtain ⟨added, heq, hadded, hheld⟩ := p.carry_spec place entries e.id none e.fragment.selection
  refine ⟨added, heq, fun n hn => ?_, fun c hc hparent k hk => ?_⟩
  · obtain ⟨c, -, -, k, -, rfl⟩ := hadded n hn
    exact ⟨rfl, rfl⟩
  · rw [carryEntry, heq]
    exact hheld c hc hparent k (p.mem_carried.2 (.inr hk))

/-- The drafts of entries that carry keys: the entries themselves, and those inside them. -/
theorem mem_drafts_carryEntry {place : List String} {entries all : List Entry} {d : Draft} :
    d ∈ (entries.map (p.carryEntry place all)).flatMap Entry.drafts ↔ ∃ e ∈ entries,
      d = ⟨(p.carryEntry place all e).fragment, [e.parent]⟩ ∨ d ∈ e.inner := by
  rw [List.flatMap_map, List.mem_flatMap]
  exact exists_congr fun e => and_congr_right fun _ => List.mem_cons

theorem mem_of_mem_carryEntry {place : List String} {entries : List Entry} {e : Entry}
    {n : SelectionNode} (hn : n ∈ (p.carryEntry place entries e).fragment.selection)
    (hvisible : n.isHidden = false) : n ∈ e.fragment.selection := by
  obtain ⟨added, heq, hadded, -⟩ := p.carryEntry_spec place entries e
  cases List.mem_append.1 (heq ▸ hn) with
  | inl hn => exact hn
  | inr hn =>
    rw [(hadded n hn).1] at hvisible
    exact nomatch hvisible

end Planner
end FederatedQuery
