import Mathlib.Data.List.Nodup
import FederatedQuery.Table

/-!
Tables as functions: the entries are what the lookups find, and in a table made from a list of
things the last one of a name is found under it.
-/
namespace FederatedQuery.Table
variable {α β : Type}

theorem lookup_of_ascends {l : List (String × α)} (h : l.Pairwise fun a b => a.1 < b.1)
    {key : String} {a : α} : l.lookup key = some a ↔ (key, a) ∈ l := by
  induction l with
  | nil => simp
  | cons e l ih =>
    obtain ⟨k, b⟩ := e
    obtain ⟨hfirst, hrest⟩ := List.pairwise_cons.1 h
    by_cases hk : key = k
    · subst hk
      have hlater : (key, a) ∉ l := fun hmem => String.lt_irrefl key (hfirst _ hmem)
      simp [hlater, eq_comm]
    · have hb : (key == k) = false := by simpa using hk
      simp [List.lookup_cons, hb, hk, ih hrest]

theorem mem_entries_iff {t : Table α} {key : String} {a : α} :
    (key, a) ∈ t.entries ↔ t.find? key = some a :=
  (lookup_of_ascends t.ascends).symm

/-- Tables with the same lookups are equal. -/
theorem eq_of_find? {t u : Table α} (h : ∀ key, t.find? key = u.find? key) : t = u := by
  have hmem : ∀ e, e ∈ t.entries ↔ e ∈ u.entries := fun e => by
    rw [mem_entries_iff, mem_entries_iff, h]
  have hnodup : ∀ v : Table α, v.entries.Nodup := by
    intro v
    refine v.ascends.imp fun {e f} hlt heq => ?_
    rw [heq] at hlt
    exact String.lt_irrefl _ hlt
  have hperm : t.entries.Perm u.entries :=
    (List.perm_ext_iff_of_nodup (hnodup t) (hnodup u)).2 hmem
  have hentries : t.entries = u.entries :=
    hperm.eq_of_pairwise (fun _ _ _ _ hab hba => absurd hba (String.lt_asymm hab)) t.ascends
      u.ascends
  cases t
  cases u
  congr

theorem mem_values_iff {t : Table α} {a : α} :
    a ∈ t.values ↔ ∃ key, t.find? key = some a := by
  simp [values, ← mem_entries_iff]

/-- The items of all lists in a table are those found under its keys. -/
theorem mem_flatten_values_iff {t : Table (List α)} {a : α} :
    a ∈ t.values.flatten ↔ ∃ key, a ∈ (t.find? key).getD [] := by
  simp only [List.mem_flatten, mem_values_iff]
  constructor
  · rintro ⟨items, ⟨key, hfind⟩, ha⟩
    exact ⟨key, by rwa [hfind]⟩
  · rintro ⟨key, ha⟩
    cases hfind : t.find? key with
    | none => simp [hfind] at ha
    | some items => exact ⟨items, ⟨key, hfind⟩, by simpa [hfind] using ha⟩

/-- What holds of every entry holds of all that is found. -/
theorem forall_entries_iff {t : Table α} {P : String → α → Prop} :
    (∀ e ∈ t.entries, P e.1 e.2) ↔ ∀ key a, t.find? key = some a → P key a := by
  constructor
  · exact fun h key a ha => h (key, a) (mem_entries_iff.2 ha)
  · exact fun h e he => h e.1 e.2 (mem_entries_iff.1 he)

theorem lookup_map (key : β → String) (f : β → α) (l : List β) (k : String) :
    (l.map fun b => (key b, f b)).lookup k = (l.find? (key · = k)).map f := by
  induction l with
  | nil => rfl
  | cons b l ih =>
    by_cases h : key b = k
    · simp [h]
    · have hb : (k == key b) = false := by simpa using Ne.symm h
      simp [List.lookup_cons, hb, h, ih]

/-- Nothing is found that was not put in. -/
theorem mem_of_find?_ofList {entries : List (String × α)} {key : String} {a : α}
    (h : (ofList entries).find? key = some a) : (key, a) ∈ entries := by
  rw [find?_ofList] at h
  obtain ⟨front, behind, heq, -⟩ := List.lookup_eq_some_iff.1 h
  have hmem : (key, a) ∈ entries.reverse := by simp [heq]
  exact List.mem_reverse.1 hmem

/-- Under a name stands the last of its things. -/
theorem find?_ofList_map (key : β → String) (f : β → α) (l : List β) (k : String) :
    (ofList (l.map fun b => (key b, f b))).find? k = (l.reverse.find? (key · = k)).map f := by
  rw [find?_ofList, ← List.map_reverse, lookup_map]

/-- Of things with distinct names the first of a name is the only one. -/
theorem find?_eq_some_of_nodup {key : β → String} {l : List β} (h : (l.map key).Nodup) {k : String}
    {b : β} : l.find? (key · = k) = some b ↔ b ∈ l ∧ key b = k := by
  constructor
  · intro hfind
    exact ⟨List.mem_of_find?_eq_some hfind, by simpa using List.find?_some hfind⟩
  · rintro ⟨hb, hk⟩
    have hsome : (l.find? (key · = k)).isSome = true :=
      List.find?_isSome.2 ⟨b, hb, by simpa using hk⟩
    obtain ⟨c, hc⟩ := Option.isSome_iff_exists.1 hsome
    have hname : key c = k := by simpa using List.find?_some hc
    rw [hc, List.inj_on_of_nodup_map h (List.mem_of_find?_eq_some hc) hb (hname.trans hk.symm)]

theorem find?_reverse_of_nodup {key : β → String} {l : List β} (h : (l.map key).Nodup)
    (k : String) : l.reverse.find? (key · = k) = l.find? (key · = k) := by
  have hreverse : (l.reverse.map key).Nodup := by
    rw [List.map_reverse]
    exact List.nodup_reverse.2 h
  ext b
  rw [find?_eq_some_of_nodup hreverse, find?_eq_some_of_nodup h, List.mem_reverse]

/-- Of things with distinct names each is found. -/
theorem find?_ofList_map_of_nodup {key : β → String} {f : β → α} {l : List β}
    (h : (l.map key).Nodup) {k : String} {a : α} :
    (ofList (l.map fun b => (key b, f b))).find? k = some a ↔ ∃ b ∈ l, key b = k ∧ f b = a := by
  rw [find?_ofList_map, find?_reverse_of_nodup h, Option.map_eq_some_iff]
  simp only [find?_eq_some_of_nodup h, and_assoc]

end FederatedQuery.Table
