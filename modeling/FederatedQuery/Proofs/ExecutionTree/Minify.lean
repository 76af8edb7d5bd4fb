import Mathlib.Data.List.Basic
import FederatedQuery.ExecutionTree
import FederatedQuery.Proofs.Validation

/-!
What a tree means: its fetches in their order, each with the places it runs for, and which step sets
two of them side by side or one after the other. Minifying a tree keeps all of it.
-/
namespace FederatedQuery

structure Occurrence where
  node : Nat
  service : Source
  places : List ResponsePath
deriving DecidableEq

def Occurrence.under (path : ResponsePath) (o : Occurrence) : Occurrence :=
  { o with places := path :: o.places }

namespace ExecutionTree

/-- What passes from the items of a step to the step, and on to paths, holds of every tree. -/
@[elab_as_elim]
theorem ofItems {motive : ExecutionTree → Prop}
    (step : ∀ kind items, (∀ t ∈ items, motive t) → motive (.step kind items))
    (fetch : ∀ node service, motive (.fetch node service))
    (flatten : ∀ path inner, motive inner → motive (.flatten path inner)) :
    (t : ExecutionTree) → motive t
  | .step kind items => step kind items fun t _ => ofItems step fetch flatten t
  | .fetch node service => fetch node service
  | .flatten path inner => flatten path inner (ofItems step fetch flatten inner)

mutual
def occurrences : ExecutionTree → List Occurrence
  | step _ items => occurrencesOfList items
  | fetch node service => [⟨node, service, []⟩]
  | flatten path inner => inner.occurrences.map (Occurrence.under path)

def occurrencesOfList : List ExecutionTree → List Occurrence
  | [] => []
  | t :: rest => t.occurrences ++ occurrencesOfList rest
end

mutual
/-- The kind of the lowest step around both of two fetches, which are given by their positions, the
first one in front. -/
def commonStep? : ExecutionTree → Nat → Nat → Option StepKind
  | step kind items, i, j => commonStepOfList? kind items i j
  | fetch .., _, _ => none
  | flatten _ inner, i, j => inner.commonStep? i j

def commonStepOfList? (kind : StepKind) : List ExecutionTree → Nat → Nat → Option StepKind
  | [], _, _ => none
  | t :: rest, i, j =>
    if j < t.fetches.length then t.commonStep? i j
    else if i < t.fetches.length then some kind
    else commonStepOfList? kind rest (i - t.fetches.length) (j - t.fetches.length)
end

mutual
def emptySteps : ExecutionTree → List EmptyStep
  | step kind [] => [⟨kind⟩]
  | step _ (t :: rest) => t.emptySteps ++ emptyStepsOfList rest
  | fetch .. => []
  | flatten _ inner => inner.emptySteps

def emptyStepsOfList : List ExecutionTree → List EmptyStep
  | [] => []
  | t :: rest => t.emptySteps ++ emptyStepsOfList rest
end

theorem fetchesOfList_eq (items : List ExecutionTree) :
    fetchesOfList items = items.flatMap fetches := by
  induction items with
  | nil => rfl
  | cons t rest ih => rw [fetchesOfList, ih, List.flatMap_cons]

theorem occurrencesOfList_eq (items : List ExecutionTree) :
    occurrencesOfList items = items.flatMap occurrences := by
  induction items with
  | nil => rfl
  | cons t rest ih => rw [occurrencesOfList, ih, List.flatMap_cons]

theorem emptyStepsOfList_eq (items : List ExecutionTree) :
    emptyStepsOfList items = items.flatMap emptySteps := by
  induction items with
  | nil => rfl
  | cons t rest ih => rw [emptyStepsOfList, ih, List.flatMap_cons]

theorem emptySteps_step {kind : StepKind} {t : ExecutionTree} {rest : List ExecutionTree}
    (h : ∀ u ∈ t :: rest, u.emptySteps = []) : (step kind (t :: rest)).emptySteps = [] := by
  rw [emptySteps, emptyStepsOfList_eq, ← List.flatMap_cons]
  exact List.flatMap_eq_nil_iff.2 h

theorem minifyList_eq (items : List ExecutionTree) : minifyList items = items.map minify := by
  induction items with
  | nil => rfl
  | cons t rest ih => rw [minifyList, ih, List.map_cons]

@[simp] theorem map_node_occurrences (t : ExecutionTree) :
    t.occurrences.map (·.node) = t.fetches := by
  induction t using ofItems with
  | step kind items ih =>
    rw [occurrences, occurrencesOfList_eq, fetches, fetchesOfList_eq, List.map_flatMap]
    exact List.flatMap_congr ih
  | fetch node service => rfl
  | flatten path inner ih =>
    rw [occurrences, List.map_map, fetches, ← ih]
    rfl

/-! ### Splicing steps -/

section Splicing
variable {kind : StepKind} {t : ExecutionTree} {ts us : List ExecutionTree} {i j : Nat}

theorem commonStepOfList?_append (kind : StepKind) (ts us : List ExecutionTree) (i j : Nat) :
    commonStepOfList? kind (ts ++ us) i j =
      if j < (fetchesOfList ts).length then commonStepOfList? kind ts i j
      else if i < (fetchesOfList ts).length then some kind
      else commonStepOfList? kind us (i - (fetchesOfList ts).length)
        (j - (fetchesOfList ts).length) := by
  induction ts generalizing i j with
  | nil => simp [fetchesOfList]
  | cons t ts ih =>
    rw [List.cons_append, commonStepOfList?, ih, commonStepOfList?, fetchesOfList,
      List.length_append]
    grind

theorem commonStepOfList?_singleton (h : j < t.fetches.length) :
    commonStepOfList? kind [t] i j = t.commonStep? i j := by
  rw [commonStepOfList?, if_pos h]

theorem fetchesOfList_spliced (kind : StepKind) (t : ExecutionTree) :
    fetchesOfList (spliced kind t) = t.fetches := by
  cases t with
  | step k items =>
    rw [spliced]
    split
    · rfl
    · simp [fetchesOfList]
  | fetch node service => rfl
  | flatten path inner => simp [spliced, fetchesOfList]

theorem commonStepOfList?_spliced (h : j < t.fetches.length) :
    commonStepOfList? kind (spliced kind t) i j = t.commonStep? i j := by
  cases t with
  | step k items =>
    rw [spliced]
    split
    next heq => rw [heq, commonStep?]
    next => exact commonStepOfList?_singleton h
  | fetch node service => exact commonStepOfList?_singleton h
  | flatten path inner => exact commonStepOfList?_singleton h

theorem commonStepOfList?_flatMap_spliced (kind : StepKind) (ts : List ExecutionTree) (i j : Nat) :
    commonStepOfList? kind (ts.flatMap (spliced kind)) i j = commonStepOfList? kind ts i j := by
  induction ts generalizing i j with
  | nil => rfl
  | cons t ts ih =>
    rw [List.flatMap_cons, commonStepOfList?_append, fetchesOfList_spliced, ih, commonStepOfList?]
    by_cases h : j < t.fetches.length
    · rw [if_pos h, if_pos h, commonStepOfList?_spliced h]
    · rw [if_neg h, if_neg h]

theorem occurrencesOfList_spliced (kind : StepKind) (t : ExecutionTree) :
    occurrencesOfList (spliced kind t) = t.occurrences := by
  cases t with
  | step k items =>
    rw [spliced]
    split
    · rfl
    · simp [occurrencesOfList]
  | fetch node service => rfl
  | flatten path inner => simp [spliced, occurrencesOfList]

end Splicing

/-! ### Fetches one after the other -/

def Before (t : ExecutionTree) (first second : Nat) : Prop :=
  ∃ i j, i < j ∧ t.fetches[i]? = some first ∧ t.fetches[j]? = some second ∧
    t.commonStep? i j = some .sequence

def Unordered (t : ExecutionTree) : Prop := ∀ i j, t.commonStep? i j ≠ some .sequence

section Before
variable {items before after : List ExecutionTree} {first second : Nat}

theorem before_of_append (hfirst : first ∈ fetchesOfList before)
    (hsecond : second ∈ fetchesOfList after) :
    (step .sequence (before ++ after)).Before first second := by
  obtain ⟨i, hi, hfirst⟩ := List.mem_iff_getElem.1 hfirst
  obtain ⟨j, hj, hsecond⟩ := List.mem_iff_getElem.1 hsecond
  have hfetches : (step .sequence (before ++ after)).fetches =
      fetchesOfList before ++ fetchesOfList after := by
    rw [fetches, fetchesOfList_eq, fetchesOfList_eq, fetchesOfList_eq, List.flatMap_append]
  refine ⟨i, (fetchesOfList before).length + j, by omega, ?_, ?_, ?_⟩
  · rw [hfetches, List.getElem?_append_left hi, List.getElem?_eq_getElem hi, hfirst]
  · rw [hfetches, List.getElem?_append_right (Nat.le_add_right _ _), Nat.add_sub_cancel_left,
      List.getElem?_eq_getElem hj, hsecond]
  · rw [commonStep?, commonStepOfList?_append, if_neg (by omega), if_pos hi]

theorem Unordered.parallel (h : ∀ t ∈ items, t.Unordered) :
    (step .parallel items).Unordered := by
  intro i j
  rw [commonStep?]
  induction items generalizing i j with
  | nil => exact nofun
  | cons t rest ih =>
    obtain ⟨hfirst, hrest⟩ := List.forall_mem_cons.1 h
    rw [commonStepOfList?]
    split
    · exact hfirst i j
    · split
      · exact nofun
      · exact ih hrest _ _

/-- A sequence of unordered items only orders fetches of different items. -/
theorem Before.of_unordered (hitems : ∀ t ∈ items, t.Unordered)
    (h : (step .sequence items).Before first second) :
    ∃ (k l : Nat) (t u : ExecutionTree), k < l ∧ items[k]? = some t ∧ first ∈ t.fetches ∧
      items[l]? = some u ∧ second ∈ u.fetches := by
  obtain ⟨i, j, hlt, hfirst, hsecond, hcommon⟩ := h
  rw [fetches] at hfirst hsecond
  rw [commonStep?] at hcommon
  induction items generalizing i j with
  | nil => exact nomatch hfirst
  | cons t rest ih =>
    obtain ⟨hhead, hrest⟩ := List.forall_mem_cons.1 hitems
    rw [commonStepOfList?] at hcommon
    rw [fetchesOfList] at hfirst hsecond
    by_cases hj : j < t.fetches.length
    · rw [if_pos hj] at hcommon
      exact absurd hcommon (hhead i j)
    · rw [if_neg hj] at hcommon
      rw [List.getElem?_append_right (by omega)] at hsecond
      by_cases hi : i < t.fetches.length
      · rw [List.getElem?_append_left hi] at hfirst
        have hlater : second ∈ rest.flatMap fetches := by
          rw [← fetchesOfList_eq]
          exact List.mem_of_getElem? hsecond
        obtain ⟨u, hu, hmem⟩ := List.mem_flatMap.1 hlater
        obtain ⟨l, hl⟩ := List.mem_iff_getElem?.1 hu
        exact ⟨0, l + 1, t, u, by omega, rfl, List.mem_of_getElem? hfirst, hl, hmem⟩
      · rw [if_neg hi] at hcommon
        rw [List.getElem?_append_right (by omega)] at hfirst
        obtain ⟨k, l, t', u, hkl, ht, hmem, hu, hmem'⟩ :=
          ih hrest _ _ (by omega) hfirst hsecond hcommon
        exact ⟨k + 1, l + 1, t', u, by omega, ht, hmem, hu, hmem'⟩

end Before

/-! ### Trees that mean the same -/

/-- Two trees run the same fetches in the same order, with the same steps around them. -/
structure Agrees (t u : ExecutionTree) : Prop where
  occurrences : u.occurrences = t.occurrences
  order : ∀ i j, j < t.fetches.length → u.commonStep? i j = t.commonStep? i j

namespace Agrees
variable {t u : ExecutionTree} {ts us : List ExecutionTree} {kind : StepKind}

theorem fetches (h : t.Agrees u) : u.fetches = t.fetches := by
  rw [← map_node_occurrences, h.occurrences, map_node_occurrences]

theorem flatten (path : ResponsePath) (h : t.Agrees u) :
    (flatten path t).Agrees (.flatten path u) :=
  ⟨congrArg (List.map _) h.occurrences, h.order⟩

theorem step (kind : StepKind) (h : List.Forall₂ Agrees ts us) :
    (step kind ts).Agrees (.step kind us) := by
  induction h with
  | nil => exact ⟨rfl, fun i j h => nomatch h⟩
  | @cons t u ts us htu _ ih =>
    refine ⟨?_, fun i j hj => ?_⟩
    · have hrest : occurrencesOfList us = occurrencesOfList ts := ih.occurrences
      simp only [ExecutionTree.occurrences, occurrencesOfList, htu.occurrences, hrest]
    · simp only [ExecutionTree.fetches, fetchesOfList, List.length_append] at hj
      simp only [commonStep?, commonStepOfList?, htu.fetches]
      by_cases hfirst : j < t.fetches.length
      · rw [if_pos hfirst, if_pos hfirst, htu.order i j hfirst]
      · have hrest : j - t.fetches.length < (ExecutionTree.step kind ts).fetches.length := by
          rw [ExecutionTree.fetches]
          omega
        have horder := ih.order (i - t.fetches.length) _ hrest
        rw [commonStep?, commonStep?] at horder
        rw [if_neg hfirst, if_neg hfirst, horder]

theorem join (kind : StepKind) (ts : List ExecutionTree) :
    (ExecutionTree.step kind ts).Agrees (join kind ts) := by
  have hspliced : (ExecutionTree.step kind ts).Agrees
      (.step kind (ts.flatMap (spliced kind))) := by
    refine ⟨?_, fun i j _ => commonStepOfList?_flatMap_spliced kind ts i j⟩
    rw [ExecutionTree.occurrences, ExecutionTree.occurrences, occurrencesOfList_eq,
      occurrencesOfList_eq, List.flatMap_assoc]
    refine List.flatMap_congr fun t _ => ?_
    rw [← occurrencesOfList_eq, occurrencesOfList_spliced]
  unfold ExecutionTree.join
  split
  next t hone =>
    -- a single item is left, and its fetches are all there are
    rw [hone] at hspliced
    have hoccurrences : t.occurrences = (ExecutionTree.step kind ts).occurrences := by
      rw [← hspliced.occurrences]
      simp [ExecutionTree.occurrences, occurrencesOfList]
    have hfetches : t.fetches = (ExecutionTree.step kind ts).fetches := by
      rw [← map_node_occurrences, hoccurrences, map_node_occurrences]
    refine ⟨hoccurrences, fun i j hj => ?_⟩
    rw [← hspliced.order i j hj]
    exact (commonStepOfList?_singleton (hfetches ▸ hj)).symm
  next => exact hspliced

theorem before_iff (h : t.Agrees u) {first second : Nat} :
    u.Before first second ↔ t.Before first second := by
  rw [Before, Before, h.fetches]
  refine exists_congr fun i => exists_congr fun j => and_congr_right fun _ =>
    and_congr_right fun _ => and_congr_right fun hj => ?_
  rw [h.order i j (List.getElem?_eq_some_iff.1 hj).1]

theorem trans {v : ExecutionTree} (htu : t.Agrees u) (huv : u.Agrees v) : t.Agrees v :=
  ⟨huv.occurrences.trans htu.occurrences,
    fun i j hj => (huv.order i j (htu.fetches ▸ hj)).trans (htu.order i j hj)⟩

end Agrees

theorem minify_step (kind : StepKind) {items : List ExecutionTree} (h : items ≠ []) :
    minify (step kind items) = (Validated.traverse minify items).map (join kind) := by
  cases items with
  | nil => exact absurd rfl h
  | cons t rest => rw [minify, minifyList_eq, Validated.traverse, List.map_cons]

theorem causes_minify (t : ExecutionTree) : (minify t).causes = t.emptySteps.map (⟨·, []⟩) := by
  induction t using ofItems with
  | step kind items ih =>
    cases items with
    | nil => rfl
    | cons t rest =>
      rw [minify_step kind (List.cons_ne_nil t rest), Validated.causes_map,
        Validated.causes_traverse, emptySteps, emptyStepsOfList_eq, ← List.flatMap_cons,
        List.map_flatMap]
      exact List.flatMap_congr ih
  | fetch node service => rfl
  | flatten path inner ih => rw [minify, Validated.causes_map, ih, emptySteps]

/-- Minifying refuses only for an empty step. -/
theorem explained_minify (t : ExecutionTree) : (minify t).Explained := by
  induction t using ofItems with
  | step kind items ih =>
    cases items with
    | nil => exact .fail _
    | cons t rest =>
      rw [minify_step kind (List.cons_ne_nil t rest)]
      exact (Validated.Explained.traverse minify _).map _
  | fetch node service => exact fun _ => rfl
  | flatten path inner ih => exact ih.map _

theorem exists_minify {t : ExecutionTree} (h : t.emptySteps = []) : ∃ u, minify t = .valid u := by
  have hvalid : (minify t).isValid = true := explained_minify t (by rw [causes_minify, h]; rfl)
  exact ⟨_, Validated.eq_valid_of_isValid hvalid t⟩

/-- A minified step joins its minified items. -/
theorem exists_of_minify_step {kind : StepKind} {items : List ExecutionTree} {u : ExecutionTree}
    (h : minify (step kind items) = .valid u) : items ≠ [] ∧ ∃ us,
      List.Forall₂ (fun t v => minify t = .valid v) items us ∧ u = join kind us := by
  cases items with
  | nil => exact nomatch h
  | cons t rest =>
    rw [minify_step kind (List.cons_ne_nil t rest), Validated.map_eq_valid] at h
    obtain ⟨us, hus, rfl⟩ := h
    exact ⟨List.cons_ne_nil t rest, us,
      Validated.forall₂_of_traverse (fun t _ => explained_minify t) hus, rfl⟩

theorem minify_agrees {t u : ExecutionTree} (h : minify t = .valid u) : t.Agrees u := by
  induction t using ofItems generalizing u with
  | step kind items ih =>
    obtain ⟨-, us, hitems, rfl⟩ := exists_of_minify_step h
    have hagree : List.Forall₂ Agrees items us :=
      List.forall₂_iff_get.2 ⟨hitems.length_eq, fun i hi hj =>
        ih _ (List.get_mem _ _) (hitems.get hi hj)⟩
    exact (Agrees.step kind hagree).trans (Agrees.join kind us)
  | fetch node service =>
    cases h
    exact ⟨rfl, fun _ _ _ => rfl⟩
  | flatten path inner ih =>
    obtain ⟨v, hv, rfl⟩ := Validated.map_eq_valid.1 h
    exact (ih hv).flatten path

/-- Two fetches of a tree have a lowest step around both. -/
theorem exists_commonStep {t : ExecutionTree} {i j : Nat} (hij : i < j)
    (hj : j < t.fetches.length) : ∃ kind, t.commonStep? i j = some kind := by
  induction t using ofItems generalizing i j with
  | step kind items ih =>
    rw [fetches] at hj
    rw [commonStep?]
    induction items generalizing i j with
    | nil => exact nomatch hj
    | cons t rest ihrest =>
      obtain ⟨hfirst, hrest⟩ := List.forall_mem_cons.1 ih
      rw [fetchesOfList, List.length_append] at hj
      rw [commonStepOfList?]
      by_cases hinside : j < t.fetches.length
      · rw [if_pos hinside]
        exact hfirst hij hinside
      · rw [if_neg hinside]
        by_cases hapart : i < t.fetches.length
        · exact ⟨kind, if_pos hapart⟩
        · rw [if_neg hapart]
          exact ihrest hrest (by omega) (by omega)
  | fetch node service =>
    rw [fetches, List.length_singleton] at hj
    omega
  | flatten path inner ih => exact ih hij hj

/-- Minifying keeps the fetches, in their order and for their places, and the kind of the lowest
step around every two of them: what was in sequence stays in sequence, and nothing else is. -/
theorem minify_keeps_meaning {t u : ExecutionTree} (h : minify t = .valid u) :
    u.occurrences = t.occurrences ∧ ∀ i j, i < j → j < t.occurrences.length →
      ∃ kind, t.commonStep? i j = some kind ∧ u.commonStep? i j = some kind := by
  have hagrees := minify_agrees h
  refine ⟨hagrees.occurrences, fun i j hij hj => ?_⟩
  have hlength : t.occurrences.length = t.fetches.length := by
    rw [← map_node_occurrences, List.length_map]
  rw [hlength] at hj
  obtain ⟨kind, hkind⟩ := exists_commonStep hij hj
  exact ⟨kind, hkind, (hagrees.order i j hj).trans hkind⟩

def wrapped : ExecutionTree :=
  step .sequence
    [step .parallel [step .sequence [fetch 0 "reviews",
      flatten [.field "reviews", .each] (step .parallel
        [step .sequence [fetch 1 "products", fetch 2 "shipping"]])]],
     step .sequence [step .parallel [fetch 3 "accounts", fetch 4 "reviews"]]]

def unwrapped : ExecutionTree :=
  step .sequence
    [fetch 0 "reviews",
     flatten [.field "reviews", .each] (step .sequence [fetch 1 "products", fetch 2 "shipping"]),
     step .parallel [fetch 3 "accounts", fetch 4 "reviews"]]

theorem minify_keeps_meaning_wrapped : minify wrapped = .valid unwrapped ∧
    unwrapped.occurrences = wrapped.occurrences ∧
    wrapped.commonStep? 1 2 = some .sequence ∧ wrapped.commonStep? 3 4 = some .parallel ∧
    ∀ i j, i < j → j < 5 →
      ∃ kind, wrapped.commonStep? i j = some kind ∧ unwrapped.commonStep? i j = some kind := by
  have hminify : minify wrapped = .valid unwrapped := rfl
  obtain ⟨hoccurrences, hcommon⟩ := minify_keeps_meaning hminify
  exact ⟨hminify, hoccurrences, rfl, rfl, hcommon⟩

end ExecutionTree
end FederatedQuery
