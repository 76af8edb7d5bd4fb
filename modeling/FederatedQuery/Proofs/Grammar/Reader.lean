import FederatedQuery.Grammar.Reader

/-!
What readers do on a text: one step at a time for choices and sequences, and all at once for a
repetition of items that stand in the text one after the other.
-/
namespace FederatedQuery.Reader
variable {α β : Type} {r r' : Reader α} {f : α → Reader β} {s rest : List Char} {a : α}

/-! ### One step -/

theorem bind_of_some (h : r s = some (a, rest)) : (r >>= f) s = f a rest := by
  change (r s).bind (fun e => f e.1 e.2) = f a rest
  rw [h]
  rfl

theorem bind_of_none (h : r s = none) : (r >>= f) s = none := by
  change (r s).bind (fun e => f e.1 e.2) = none
  rw [h]
  rfl

theorem orElse_of_some (h : r s = some (a, rest)) : (r <|> r') s = some (a, rest) := by
  change (r s <|> r' s) = some (a, rest)
  rw [h]
  rfl

theorem orElse_of_none (h : r s = none) : (r <|> r') s = r' s := by
  change (r s <|> r' s) = r' s
  rw [h]
  rfl

theorem maybe_of_some (h : r s = some (a, rest)) : maybe r s = some (some a, rest) := by
  simp [maybe, h]

theorem maybe_of_none (h : r s = none) : maybe r s = some (none, s) := by
  simp [maybe, h]

theorem many_of_none (bound : Nat) (h : r s = none) : many bound r s = some ([], s) := by
  cases bound <;> simp [many, manyFrom, h]

/-! ### Fixed characters -/

theorem after?_of_head {word : List Char} (h : ∀ c ∈ s.head?, word.head? ≠ some c)
    (hne : word ≠ []) : after? word s = none := by
  cases word with
  | nil => exact absurd rfl hne
  | cons d word =>
    cases s with
    | nil => rfl
    | cons c s =>
      have hdc : d ≠ c := by simpa using h
      simp [after?, hdc]

theorem after?_mono {word : List Char} (h : after? word s = some rest) (more : List Char) :
    after? word (s ++ more) = some (rest ++ more) := by
  fun_induction after? word s with
  | case1 s =>
    cases h
    cases s ++ more <;> rfl
  | case2 => exact nomatch h
  | case3 c word s ih => simpa [after?] using ih h
  | case4 c word d s hne => exact nomatch h

theorem literal_append (word : String) (s : List Char) :
    literal word (word.toList ++ s) = some ((), s) := by
  simp [literal]

theorem literal_of_head {word : String} (h : ∀ c ∈ s.head?, word.toList.head? ≠ some c)
    (hne : word.toList ≠ []) : literal word s = none := by
  rw [literal, after?_of_head h hne]
  rfl

/-! ### Repetition -/

/-- The reader takes the items one by one from their texts, which stand with a gap between them in
front of `rest`, where it stops. What follows an item satisfies `F`. -/
structure Listed (r : Reader α) (text : α → List Char) (gap : List Char) (F : List Char → Prop)
    (items : List α) (rest : List Char) : Prop where
  skips : ∀ s, r (gap ++ s) = r s
  each : ∀ a ∈ items, ∀ s, F s → r (text a ++ s) = some (a, s)
  opens : ∀ a ∈ items, ∀ s, F (gap ++ (text a ++ s))
  closes : F rest
  stops : r rest = none

variable {text : α → List Char} {gap : List Char} {F : List Char → Prop} {items : List α}

def spaced (text : α → List Char) (gap : List Char) (items : List α) : List Char :=
  items.flatMap fun a => gap ++ text a

theorem intercalate_cons (text : α → List Char) (gap : List Char) (a : α) (items : List α) :
    gap.intercalate ((a :: items).map text) = text a ++ spaced text gap items := by
  induction items generalizing a with
  | nil => simp [List.intercalate_singleton, spaced]
  | cons b items ih =>
    rw [List.map_cons, List.map_cons, List.intercalate_cons_cons, ← List.map_cons, ih b]
    simp [spaced]

theorem length_le_spaced (text : α → List Char) (items : List α) (hgap : gap ≠ []) :
    items.length ≤ (spaced text gap items).length := by
  induction items with
  | nil => exact Nat.zero_le _
  | cons a items ih =>
    have hpos : 0 < gap.length := List.length_pos_iff.2 hgap
    simp only [spaced, List.flatMap_cons, List.length_append, List.length_cons] at ih ⊢
    omega

/-- No more items stand in a text than it has characters, but for one that needs none. -/
theorem length_le_intercalate (text : α → List Char) (items : List α) (hgap : gap ≠ []) :
    items.length ≤ (gap.intercalate (items.map text)).length + 1 := by
  cases items with
  | nil => exact Nat.zero_le _
  | cons a items =>
    have hothers := length_le_spaced text items hgap
    rw [intercalate_cons, List.length_append, List.length_cons]
    omega

theorem length_text_le_intercalate (text : α → List Char) (gap : List Char) (ha : a ∈ items) :
    (text a).length ≤ (gap.intercalate (items.map text)).length := by
  cases items with
  | nil => exact nomatch ha
  | cons b items =>
    rw [intercalate_cons, List.length_append]
    cases List.mem_cons.1 ha with
    | inl heq =>
      rw [heq]
      omega
    | inr hmem =>
      have hothers : (text a).length ≤ (spaced text gap items).length := by
        have hsub : (gap ++ text a).Sublist (spaced text gap items) :=
          List.sublist_flatten_of_mem (List.mem_map_of_mem hmem)
        have hlength := hsub.length_le
        rw [List.length_append] at hlength
        omega
      omega

namespace Listed

theorem tail (h : Listed r text gap F (a :: items) rest) : Listed r text gap F items rest :=
  ⟨h.skips, (List.forall_mem_cons.1 h.each).2, (List.forall_mem_cons.1 h.opens).2, h.closes,
    h.stops⟩

theorem follows (h : Listed r text gap F items rest) : F (spaced text gap items ++ rest) := by
  cases items with
  | nil => exact h.closes
  | cons a items => simpa [spaced] using h.opens a List.mem_cons_self _

theorem first (h : Listed r text gap F (a :: items) rest) :
    r (gap.intercalate ((a :: items).map text) ++ rest) =
      some (a, spaced text gap items ++ rest) := by
  rw [intercalate_cons, List.append_assoc]
  exact h.each a List.mem_cons_self _ h.tail.follows

theorem manyFrom_spaced (h : Listed r text gap F items rest) {bound : Nat}
    (enough : items.length ≤ bound) :
    manyFrom r bound (spaced text gap items ++ rest) = (items, rest) := by
  induction items generalizing bound with
  | nil => cases bound <;> simp [manyFrom, spaced, h.stops]
  | cons a items ih =>
    cases bound with
    | zero => exact absurd enough (Nat.not_succ_le_zero _)
    | succ bound =>
      have hothers := ih h.tail (Nat.le_of_succ_le_succ enough)
      have hfirst := h.each a List.mem_cons_self _ h.tail.follows
      have hspaced : spaced text gap (a :: items) = gap ++ text a ++ spaced text gap items := rfl
      rw [hspaced, List.append_assoc, List.append_assoc, manyFrom, h.skips, hfirst]
      dsimp only
      rw [hothers]

theorem many (h : Listed r text gap F items rest) {bound : Nat} (enough : items.length ≤ bound) :
    Reader.many bound r (gap.intercalate (items.map text) ++ rest) = some (items, rest) := by
  cases items with
  | nil => exact many_of_none bound h.stops
  | cons a items =>
    cases bound with
    | zero => exact absurd enough (Nat.not_succ_le_zero _)
    | succ bound =>
      have hothers := h.tail.manyFrom_spaced (Nat.le_of_succ_le_succ enough)
      rw [Reader.many, manyFrom, h.first]
      dsimp only
      rw [hothers]

theorem many1 (h : Listed r text gap F (a :: items) rest) {bound : Nat}
    (enough : items.length ≤ bound) :
    Reader.many1 bound r (gap.intercalate ((a :: items).map text) ++ rest) =
      some (a :: items, rest) := by
  have hothers : Reader.many bound r (spaced text gap items ++ rest) = some (items, rest) :=
    congrArg some (h.tail.manyFrom_spaced enough)
  rw [Reader.many1, bind_of_some h.first, bind_of_some hothers]
  rfl

end Listed
end FederatedQuery.Reader
