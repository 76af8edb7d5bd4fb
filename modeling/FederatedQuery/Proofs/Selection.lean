import Mathlib.Data.List.Basic
import FederatedQuery.Selection

/-!
Walks of a selection: every field with the response keys that lead to it, ways down from field to
field, and what it means that one selection is another thinned out.
-/
namespace FederatedQuery

structure Asked where
  name : String
  alias? : Option String
  arguments : List Argument
  onType : String
  ofType : String
deriving DecidableEq

namespace SelectionNode

def asked (n : SelectionNode) : Asked := ⟨n.name, n.alias?, n.arguments, n.onType, n.ofType⟩

def head (n : SelectionNode) : Asked × Bool := (n.asked, n.isHidden)

theorem asked_of_head {n m : SelectionNode} (h : n.head = m.head) : n.asked = m.asked :=
  congrArg Prod.fst h

theorem isHidden_of_head {n m : SelectionNode} (h : n.head = m.head) : n.isHidden = m.isHidden :=
  congrArg Prod.snd h

theorem name_of_asked {n m : SelectionNode} (h : n.asked = m.asked) : n.name = m.name :=
  congrArg Asked.name h

theorem onType_of_asked {n m : SelectionNode} (h : n.asked = m.asked) : n.onType = m.onType :=
  congrArg Asked.onType h

theorem alias_of_asked {n m : SelectionNode} (h : n.asked = m.asked) : n.alias? = m.alias? :=
  congrArg Asked.alias? h

theorem arguments_of_asked {n m : SelectionNode} (h : n.asked = m.asked) :
    n.arguments = m.arguments :=
  congrArg Asked.arguments h

theorem responseKey_of_asked {n m : SelectionNode} (h : n.asked = m.asked) :
    n.responseKey = m.responseKey :=
  congrArg (fun a : Asked => a.alias?.getD a.name) h

theorem withChildren_eq {n : SelectionNode} {children : List SelectionNode}
    (h : children = n.children) : { n with children } = n := by
  subst h
  cases n
  rfl

theorem sizeOf_child_lt {n c : SelectionNode} (h : c ∈ n.children) : sizeOf c < sizeOf n := by
  have hc := List.sizeOf_lt_of_mem h
  cases n
  simp only [mk.sizeOf_spec] at hc ⊢
  omega

/-- What passes from the sub-selection to the field holds of every field. -/
@[elab_as_elim]
theorem ofChildren {motive : SelectionNode → Prop}
    (step : ∀ n, (∀ c ∈ n.children, motive c) → motive n) (n : SelectionNode) : motive n :=
  step n fun c _ => ofChildren step c
termination_by sizeOf n
decreasing_by exact sizeOf_child_lt ‹_›

mutual
/-- The field and all below it, each with the response keys that lead to it. The keys `above` lead
to the selection in which it stands. -/
def located (above : List String) : SelectionNode → List (List String × SelectionNode)
  | n@⟨_, _, _, _, _, _, children, _⟩ =>
    (above ++ [n.responseKey], n) :: locatedOfList (above ++ [n.responseKey]) children

def locatedOfList (above : List String) : List SelectionNode → List (List String × SelectionNode)
  | [] => []
  | n :: rest => n.located above ++ locatedOfList above rest
end

end SelectionNode

namespace SelectionSet

def located (above : List String) (s : SelectionSet) : List (List String × SelectionNode) :=
  SelectionNode.locatedOfList above s

def allFields (s : SelectionSet) : List SelectionNode := (s.located []).map (·.2)

def visible (above : List String) (s : SelectionSet) : List (List String × Asked) :=
  ((s.located above).filter (!·.2.isHidden)).map fun e => (e.1, e.2.asked)

@[simp] theorem located_nil (above : List String) : located above [] = [] := rfl

theorem located_cons (above : List String) (n : SelectionNode) (s : SelectionSet) :
    located above (n :: s) = (above ++ [n.responseKey], n) ::
      (located (above ++ [n.responseKey]) n.children ++ located above s) := by
  cases n
  rfl

theorem located_append (above : List String) (s t : SelectionSet) :
    located above (s ++ t) = located above s ++ located above t := by
  induction s with
  | nil => rfl
  | cons n s ih => simp [located_cons, ih]

theorem located_eq_flatMap (above : List String) (s : SelectionSet) :
    located above s = s.flatMap fun n => located above [n] := by
  induction s with
  | nil => rfl
  | cons n s ih => simp [located_cons, ih]

theorem located_append_above (above more : List String) (n : SelectionNode) :
    located (above ++ more) [n] = (located more [n]).map fun e => (above ++ e.1, e.2) := by
  induction n using SelectionNode.ofChildren generalizing more with
  | step n ih =>
    have hc : located (above ++ (more ++ [n.responseKey])) n.children =
        (located (more ++ [n.responseKey]) n.children).map fun e => (above ++ e.1, e.2) := by
      rw [located_eq_flatMap, located_eq_flatMap _ n.children, List.map_flatMap]
      exact List.flatMap_congr fun c hc => ih c hc _
    simp [located_cons, hc]

theorem map_snd_located (above : List String) (s : SelectionSet) :
    (s.located above).map (·.2) = s.allFields := by
  rw [allFields, located_eq_flatMap, located_eq_flatMap [], List.map_flatMap, List.map_flatMap]
  refine List.flatMap_congr fun n _ => ?_
  have h := located_append_above above [] n
  rw [List.append_nil] at h
  rw [h, List.map_map]
  rfl

@[simp] theorem allFields_nil : allFields [] = [] := rfl

theorem allFields_cons (n : SelectionNode) (s : SelectionSet) :
    allFields (n :: s) = n :: (allFields n.children ++ allFields s) := by
  rw [allFields, located_cons, List.map_cons, List.map_append, map_snd_located]
  rfl

theorem allFields_append (s t : SelectionSet) :
    allFields (s ++ t) = allFields s ++ allFields t := by
  rw [allFields, located_append, List.map_append]
  rfl

theorem allFields_eq_flatMap (s : SelectionSet) :
    s.allFields = s.flatMap fun n => allFields [n] := by
  rw [allFields, located_eq_flatMap, List.map_flatMap]
  rfl

theorem mem_allFields_iff {s : SelectionSet} {c : SelectionNode} :
    c ∈ s.allFields ↔ ∃ n ∈ s, c = n ∨ c ∈ allFields n.children := by
  induction s with
  | nil => simp
  | cons n s ih => simp [allFields_cons, ih, or_assoc]

theorem mem_allFields_of_mem {s : SelectionSet} {n : SelectionNode} (h : n ∈ s) :
    n ∈ s.allFields :=
  mem_allFields_iff.2 ⟨n, h, .inl rfl⟩

theorem mem_allFields_of_child {s : SelectionSet} {n c : SelectionNode} (h : n ∈ s)
    (hc : c ∈ allFields n.children) : c ∈ s.allFields :=
  mem_allFields_iff.2 ⟨n, h, .inr hc⟩

theorem allFields_subset {s t : SelectionSet} (h : s ⊆ t) : s.allFields ⊆ t.allFields := by
  intro c hc
  obtain ⟨n, hn, hc⟩ := mem_allFields_iff.1 hc
  exact mem_allFields_iff.2 ⟨n, h hn, hc⟩

theorem mem_located_of_mem {above : List String} {s : SelectionSet} {n : SelectionNode}
    (h : n ∈ s) {e : List String × SelectionNode} (he : e ∈ located above [n]) :
    e ∈ located above s := by
  rw [located_eq_flatMap]
  exact List.mem_flatMap.2 ⟨n, h, he⟩

theorem located_subset {s t : SelectionSet} (above : List String) (h : s ⊆ t) :
    located above s ⊆ located above t := by
  intro e he
  rw [located_eq_flatMap] at he
  obtain ⟨n, hn, he⟩ := List.mem_flatMap.1 he
  exact mem_located_of_mem (h hn) he

theorem mem_located_of_child {above : List String} {n : SelectionNode}
    {e : List String × SelectionNode}
    (he : e ∈ located (above ++ [n.responseKey]) n.children) : e ∈ located above [n] := by
  simp [located_cons, he]

/-! ### Fields that are part of the answer -/

@[simp] theorem visible_nil (above : List String) : visible above [] = [] := rfl

theorem visible_append (above : List String) (s t : SelectionSet) :
    visible above (s ++ t) = visible above s ++ visible above t := by
  simp [visible, located_append]

theorem visible_eq_flatMap (above : List String) (s : SelectionSet) :
    visible above s = s.flatMap fun n => visible above [n] := by
  induction s with
  | nil => rfl
  | cons n s ih => rw [← List.singleton_append, visible_append, ih]; rfl

theorem visible_singleton (above : List String) (n : SelectionNode) :
    visible above [n] = (if n.isHidden then [] else [(above ++ [n.responseKey], n.asked)]) ++
      visible (above ++ [n.responseKey]) n.children := by
  cases h : n.isHidden <;> simp [visible, located_cons, h]

theorem visible_of_hidden (above : List String) {s : SelectionSet}
    (h : ∀ n ∈ s, n.isHidden = true ∧ n.children = []) : visible above s = [] := by
  rw [visible_eq_flatMap]
  refine List.flatMap_eq_nil_iff.2 fun n hn => ?_
  simp [visible_singleton, h n hn]

theorem visible_perm {s t : SelectionSet} (above : List String) (h : s.Perm t) :
    (visible above s).Perm (visible above t) := by
  rw [visible_eq_flatMap, visible_eq_flatMap _ t]
  exact h.flatMap_right _

theorem visible_eq_map {above : List String} {s : SelectionSet}
    (h : ∀ n ∈ s.allFields, n.isHidden = false) :
    visible above s = (s.located above).map fun e => (e.1, e.2.asked) := by
  rw [visible, List.filter_eq_self.2]
  intro e he
  have hm : e.2 ∈ s.allFields := map_snd_located above s ▸ List.mem_map_of_mem he
  simp [h e.2 hm]

/-! ### Ways down -/

def Descends : SelectionSet → List SelectionNode → Prop
  | _, [] => True
  | s, n :: way => n ∈ s ∧ Descends n.children way

def DescendsFirst : SelectionSet → List SelectionNode → Prop
  | _, [] => True
  | s, n :: way => s.find? n.responseKey = some n ∧ DescendsFirst n.children way

def after : SelectionSet → List SelectionNode → SelectionSet
  | s, [] => s
  | _, n :: way => after n.children way

theorem Descends.mono {s t : SelectionSet} {way : List SelectionNode} (h : Descends s way)
    (hst : s ⊆ t) : Descends t way := by
  cases way with
  | nil => trivial
  | cons n way => exact ⟨hst h.1, h.2⟩

theorem Descends.mem_allFields {s : SelectionSet} {way : List SelectionNode} (h : Descends s way)
    {n : SelectionNode} (hn : n ∈ way) : n ∈ s.allFields := by
  induction way generalizing s with
  | nil => exact nomatch hn
  | cons m way ih =>
    cases List.mem_cons.1 hn with
    | inl heq => exact heq ▸ mem_allFields_of_mem h.1
    | inr hn => exact mem_allFields_of_child h.1 (ih h.2 hn)

theorem after_concat (s : SelectionSet) (way : List SelectionNode) (n : SelectionNode) :
    after s (way ++ [n]) = n.children := by
  induction way generalizing s with
  | nil => rfl
  | cons m way ih => exact ih m.children

theorem Descends.mem_located {s : SelectionSet} {way : List SelectionNode} {n : SelectionNode}
    (above : List String) (h : Descends s (way ++ [n])) :
    (above ++ (way ++ [n]).map (·.responseKey), n) ∈ located above s := by
  induction way generalizing s above with
  | nil =>
    refine mem_located_of_mem h.1 ?_
    simp [located_cons]
  | cons m way ih =>
    refine mem_located_of_mem h.1 (mem_located_of_child ?_)
    simpa using ih (above ++ [m.responseKey]) h.2

/-- A way leads to every field, along its response keys. -/
theorem exists_way_of_mem_located {above : List String} {s : SelectionSet}
    {e : List String × SelectionNode} (h : e ∈ located above s) :
    ∃ way, Descends s (way ++ [e.2]) ∧ e.1 = above ++ (way ++ [e.2]).map (·.responseKey) := by
  have hnode : ∀ (n : SelectionNode) (above : List String), e ∈ located above [n] →
      ∃ way, Descends [n] (way ++ [e.2]) ∧ e.1 = above ++ (way ++ [e.2]).map (·.responseKey) := by
    intro n
    induction n using SelectionNode.ofChildren with
    | step n ih =>
      intro above h
      rw [located_cons, located_nil, List.append_nil] at h
      cases List.mem_cons.1 h with
      | inl hself =>
        subst hself
        exact ⟨[], ⟨List.mem_cons_self, trivial⟩, rfl⟩
      | inr hbelow =>
        rw [located_eq_flatMap] at hbelow
        obtain ⟨c, hc, he⟩ := List.mem_flatMap.1 hbelow
        obtain ⟨way, hway, hkeys⟩ := ih c hc _ he
        have hway : Descends n.children (way ++ [e.2]) := hway.mono (by simpa using hc)
        exact ⟨n :: way, ⟨List.mem_cons_self, hway⟩, by simpa using hkeys⟩
  rw [located_eq_flatMap] at h
  obtain ⟨n, hn, he⟩ := List.mem_flatMap.1 h
  obtain ⟨way, hway, hkeys⟩ := hnode n above he
  exact ⟨way, hway.mono (by simpa using hn), hkeys⟩

/-! ### Fields of different response keys -/

def DistinctKeys (s : SelectionSet) : Prop :=
  (s.map (·.responseKey)).Nodup ∧ ∀ n ∈ s.allFields, (n.children.map (·.responseKey)).Nodup

instance (s : SelectionSet) : Decidable s.DistinctKeys := inferInstanceAs (Decidable (_ ∧ _))

namespace DistinctKeys
variable {s t : SelectionSet}

theorem children {n : SelectionNode} (h : DistinctKeys s) (hn : n ∈ s) :
    DistinctKeys n.children :=
  ⟨h.2 n (mem_allFields_of_mem hn), fun c hc => h.2 c (mem_allFields_of_child hn hc)⟩

theorem sublist (h : DistinctKeys t) (hst : s.Sublist t) : DistinctKeys s :=
  ⟨h.1.sublist (hst.map _), fun n hn => h.2 n (allFields_subset hst.subset hn)⟩

theorem nodup_of_heads (h : DistinctKeys t)
    (hst : (s.map SelectionNode.head).Sublist (t.map SelectionNode.head)) :
    (s.map (·.responseKey)).Nodup := by
  have hkeys : ∀ u : SelectionSet, u.map (·.responseKey) =
      (u.map SelectionNode.head).map fun e => e.1.alias?.getD e.1.name := fun u => by
    rw [List.map_map]
    rfl
  rw [hkeys]
  exact (hkeys t ▸ h.1).sublist (hst.map _)

end DistinctKeys

theorem find?_of_nodup {s : SelectionSet} {n : SelectionNode}
    (h : (s.map (·.responseKey)).Nodup) (hn : n ∈ s) : s.find? n.responseKey = some n := by
  induction s with
  | nil => exact nomatch hn
  | cons m s ih =>
    obtain ⟨hm, hs⟩ := List.nodup_cons.1 h
    cases List.mem_cons.1 hn with
    | inl heq =>
      subst heq
      simp [find?]
    | inr hn =>
      have hne : m.responseKey ≠ n.responseKey := fun he =>
        hm (List.mem_map.2 ⟨n, hn, he.symm⟩)
      rw [find?, List.find?_cons_of_neg (by simpa using hne)]
      exact ih hs hn

theorem mem_of_find? {s : SelectionSet} {key : String} {n : SelectionNode}
    (h : s.find? key = some n) : n ∈ s ∧ n.responseKey = key :=
  ⟨List.mem_of_find?_eq_some h, by simpa using List.find?_some h⟩

theorem find?_append_of_some {s : SelectionSet} {key : String} {n : SelectionNode}
    (h : s.find? key = some n) (t : SelectionSet) : find? (s ++ t) key = some n := by
  rw [find?] at h ⊢
  rw [List.find?_append, h, Option.some_or]

/-! ### Thinning -/

/-- The visible fields of the first selection are some of those of the second, in their order, each
with its sub-selection thinned in turn. -/
inductive Thinned : SelectionSet → SelectionSet → Prop
  | nil : Thinned [] []
  | skip {s t : SelectionSet} {m : SelectionNode} (rest : Thinned s t) : Thinned s (m :: t)
  | hidden {s t : SelectionSet} {n : SelectionNode} (hn : n.isHidden = true) (rest : Thinned s t) :
      Thinned (n :: s) t
  | keep {s t : SelectionSet} {n m : SelectionNode} (hn : n.isHidden = false)
      (same : n.asked = m.asked) (below : Thinned n.children m.children) (rest : Thinned s t) :
      Thinned (n :: s) (m :: t)

namespace Thinned
variable {s t s' t' : SelectionSet}

theorem append (h : Thinned s t) (h' : Thinned s' t') : Thinned (s ++ s') (t ++ t') := by
  induction h with
  | nil => exact h'
  | skip _ ih => exact .skip ih
  | hidden hn _ ih => exact .hidden hn ih
  | keep hn same below _ _ ih => exact .keep hn same below ih

theorem of_hidden (h : ∀ n ∈ s, n.isHidden = true) (t : SelectionSet) : Thinned s t := by
  induction s with
  | nil => exact t.rec .nil fun _ _ ih => .skip ih
  | cons n s ih => exact .hidden (h n (by simp)) (ih fun m hm => h m (List.mem_cons_of_mem n hm))

theorem append_hidden (h : Thinned s t) (hs : ∀ n ∈ s', n.isHidden = true) :
    Thinned (s ++ s') t := by
  simpa using h.append (of_hidden hs [])

theorem sublist (h : Thinned s t) (ht : t.Sublist t') : Thinned s t' := by
  induction ht generalizing s with
  | slnil => exact h
  | cons _ _ ih => exact .skip (ih h)
  | cons_cons m _ ih =>
    generalize hu : m :: _ = u at h
    induction h with
    | nil => exact nomatch hu
    | skip rest _ =>
      cases hu
      exact .skip (ih rest)
    | hidden hn _ ih' => exact .hidden hn (ih' hu)
    | keep hn same below rest _ _ =>
      cases hu
      exact .keep hn same below (ih rest)

theorem withChildren {n : SelectionNode} (h : Thinned s n.children) :
    Thinned [{ n with children := s }] [n] := by
  cases n.isHidden with
  | true => exact .hidden rfl (.skip .nil)
  | false => exact .keep rfl rfl h .nil

theorem refl (s : SelectionSet) : Thinned s s := by
  have hall : ∀ n : SelectionNode, Thinned [n] [n] := fun n => by
    induction n using SelectionNode.ofChildren with
    | step n ih =>
      have hc : ∀ t : SelectionSet, (∀ c ∈ t, Thinned [c] [c]) → Thinned t t := fun t ht => by
        induction t with
        | nil => exact .nil
        | cons c t iht =>
          exact (ht c (by simp)).append (iht fun d hd => ht d (List.mem_cons_of_mem c hd))
      have h := withChildren (hc _ ih)
      cases n
      exact h
  induction s with
  | nil => exact .nil
  | cons n s ih => exact (hall n).append ih

end Thinned

end SelectionSet
end FederatedQuery
