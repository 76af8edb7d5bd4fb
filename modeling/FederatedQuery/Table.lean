/-!
Tables keyed by strings. Entries stand in the order of their keys, so two tables with the same
entries are equal, and a listing never depends on the order of insertion.
-/
namespace FederatedQuery

structure Table (α : Type) where
  entries : List (String × α)
  ascends : entries.Pairwise fun a b => a.1 < b.1

namespace Table
variable {α β : Type}

def place (key : String) (a : α) : List (String × α) → List (String × α)
  | [] => [(key, a)]
  | (k, b) :: rest =>
    if key < k then (key, a) :: (k, b) :: rest
    else if key = k then (key, a) :: rest
    else (k, b) :: place key a rest

theorem mem_place {key : String} {a : α} {e : String × α} {l : List (String × α)}
    (h : e ∈ place key a l) : e = (key, a) ∨ e ∈ l := by
  induction l with
  | nil => simpa [place] using h
  | cons hd tl ih => grind [place]

theorem place_ascends {key : String} {a : α} {l : List (String × α)}
    (h : l.Pairwise fun a b => a.1 < b.1) : (place key a l).Pairwise fun a b => a.1 < b.1 := by
  induction l with
  | nil => simp [place]
  | cons hd tl ih =>
    obtain ⟨k, b⟩ := hd
    rw [List.pairwise_cons] at h
    rw [place]
    split
    · rename_i hk
      refine List.pairwise_cons.2 ⟨fun e he => ?_, List.pairwise_cons.2 h⟩
      rcases List.mem_cons.1 he with rfl | he
      · exact hk
      · exact String.lt_trans hk (h.1 e he)
    · rename_i hk
      split
      · rename_i heq
        subst heq
        exact List.pairwise_cons.2 ⟨h.1, h.2⟩
      · rename_i hne
        refine List.pairwise_cons.2 ⟨fun e he => ?_, ih h.2⟩
        rcases mem_place he with rfl | he
        · exact String.not_le.1 fun hle => hne (String.le_antisymm hle (String.not_lt.1 hk))
        · exact h.1 e he

def empty : Table α := ⟨[], List.Pairwise.nil⟩

def insert (t : Table α) (key : String) (a : α) : Table α :=
  ⟨place key a t.entries, place_ascends t.ascends⟩

/-- The table of a list of entries; of two with one key the later counts. -/
def ofList (entries : List (String × α)) : Table α :=
  entries.foldl (fun t e => t.insert e.1 e.2) empty

def find? (t : Table α) (key : String) : Option α := t.entries.lookup key

theorem lookup_place (key k : String) (a : α) (l : List (String × α)) :
    (place key a l).lookup k = if k = key then some a else l.lookup k := by
  induction l with
  | nil => grind [place]
  | cons e l ih => grind [place]

@[simp] theorem find?_empty (k : String) : (empty : Table α).find? k = none := rfl

theorem find?_insert (t : Table α) (key k : String) (a : α) :
    (t.insert key a).find? k = if k = key then some a else t.find? k :=
  lookup_place key k a t.entries

theorem find?_foldl_insert (entries : List (String × α)) (t : Table α) (k : String) :
    (entries.foldl (fun t e => t.insert e.1 e.2) t).find? k =
      (entries.reverse.lookup k).or (t.find? k) := by
  induction entries generalizing t with
  | nil => rfl
  | cons e rest ih =>
    rw [List.foldl_cons, ih, find?_insert, List.reverse_cons, List.lookup_append]
    obtain ⟨key, a⟩ := e
    by_cases h : k = key
    · simp [h]
    · have hb : (k == key) = false := by simpa using h
      simp [h, hb, List.lookup_cons]

/-- The last entry of a key counts. -/
theorem find?_ofList (entries : List (String × α)) (k : String) :
    (ofList entries).find? k = entries.reverse.lookup k := by
  simp [ofList, find?_foldl_insert]

def contains (t : Table α) (key : String) : Bool := (t.find? key).isSome

def keys (t : Table α) : List String := t.entries.map (·.1)

def values (t : Table α) : List α := t.entries.map (·.2)

end Table
end FederatedQuery
