import FederatedQuery.Proofs.Decomposition.Conflicts
import FederatedQuery.Proofs.Decomposition.WellFormed
import FederatedQuery.Proofs.Operation.Complete

/-!
Where fragments are attached. A fragment that enters a type completes the children of one field of
the operation, and its path goes down to that field along the fields above it. A field that returns
a list is marked once, however many lists it returns one inside the other.
-/
namespace FederatedQuery

/-! ### Lists in the blueprint and in the index -/

theorem TypeRef.isList_iff {t : TypeRef} : t.isList = true ↔ 0 < t.depth := by
  cases t <;> simp [isList, depth]

namespace Blueprint
variable {b : Blueprint} {x : SchemaIndex}

def DistinctFields (b : Blueprint) : Prop := ∀ t ∈ b.types, (t.fields.map (·.name)).Nodup

instance (b : Blueprint) : Decidable b.DistinctFields := inferInstanceAs (Decidable (∀ _ ∈ _, _))

def definition? (b : Blueprint) (n : SelectionNode) : Option FieldDefinition :=
  (b.type? n.onType).bind (·.field? n.name)

def listDepth (b : Blueprint) (n : SelectionNode) : Nat :=
  ((b.definition? n).map (·.type.depth)).getD 0

/-- With distinct names the index and the blueprint find the same definition of a field. -/
theorem field?_index (hb : b.index = .valid x) (hfields : b.DistinctFields) (n : SelectionNode) :
    x.field? n.onType n.name =
      (b.type? n.onType).bind fun t => (t.field? n.name).map t.fieldIndex := by
  obtain ⟨hformed, rfl⟩ := b.index_decides.of_valid hb
  have htypes : b.schemaIndex.types.find? n.onType = (b.type? n.onType).map (·.typeIndex) := by
    rw [schemaIndex, Table.find?_ofList_map, Table.find?_reverse_of_nodup hformed.distinct]
    rfl
  rw [SchemaIndex.field?, htypes]
  cases htype : b.type? n.onType with
  | none => rfl
  | some t =>
    have ht : t ∈ b.types := List.mem_of_find?_eq_some htype
    rw [Option.map_some, Option.bind_some, Option.bind_some, TypeDefinition.find?_fields,
      TypeDefinition.lastField?, Table.find?_reverse_of_nodup (hfields t ht)]
    rfl

theorem isSome_field?_index (hb : b.index = .valid x) (hfields : b.DistinctFields)
    (n : SelectionNode) :
    (x.field? n.onType n.name).isSome = (b.definition? n).isSome := by
  rw [field?_index hb hfields, definition?]
  cases b.type? n.onType <;> simp

end Blueprint

/-! ### Paths and ways -/

def ResponsePath.ofWay (marks : SelectionNode → Nat) (way : List SelectionNode) : ResponsePath :=
  way.flatMap fun n => .field n.responseKey :: List.replicate (marks n) .each

/-- Two ways to mark the fields give one path exactly if they agree on each field, provided that one
never sets more marks than the other. -/
theorem ResponsePath.ofWay_eq_iff {marks more : SelectionNode → Nat}
    (h : ∀ n, marks n ≤ more n) (way : List SelectionNode) :
    ofWay marks way = ofWay more way ↔ ∀ n ∈ way, marks n = more n := by
  constructor
  · intro heq
    have hlength := congrArg List.length heq
    clear heq
    have hcons : ∀ (marks : SelectionNode → Nat) (n : SelectionNode) (way : List SelectionNode),
        (ofWay marks (n :: way)).length = marks n + 1 + (ofWay marks way).length := by
      intro marks n way
      simp only [ofWay, List.flatMap_cons, List.length_append, List.length_cons,
        List.length_replicate]
    have hle : ∀ way, (ofWay marks way).length ≤ (ofWay more way).length := by
      intro way
      induction way with
      | nil => exact Nat.le_refl _
      | cons n way ih =>
        have hn := h n
        rw [hcons, hcons]
        omega
    induction way with
    | nil => exact nofun
    | cons n way ih =>
      have hn := h n
      have hway := hle way
      rw [hcons, hcons] at hlength
      exact List.forall_mem_cons.2 ⟨by omega, ih (by omega)⟩
  · intro hsame
    exact List.flatMap_congr fun n hn => by rw [hsame n hn]

namespace Planner
variable {p : Planner}

def listMarks (p : Planner) (n : SelectionNode) : Nat :=
  if (p.index.field? n.onType n.name).any (·.isList) then 1 else 0

theorem foldl_placeBelow (p : Planner) (way : List SelectionNode) (path : ResponsePath) :
    way.foldl p.placeBelow path = path ++ ResponsePath.ofWay p.listMarks way := by
  induction way generalizing path with
  | nil => simp [ResponsePath.ofWay]
  | cons n way ih =>
    have hstep : p.placeBelow path n =
        path ++ (.field n.responseKey :: List.replicate (p.listMarks n) .each) := by
      unfold placeBelow listMarks
      split <;> simp [ResponsePath.field, ResponsePath.each]
    rw [List.foldl_cons, ih, hstep, List.append_assoc]
    rfl

/-- A field gets one mark if it returns a list of any depth. -/
theorem listMarks_eq {b : Blueprint} (hb : b.index = .valid p.index)
    (hfields : b.DistinctFields) (n : SelectionNode) :
    p.listMarks n = min 1 (b.listDepth n) := by
  rw [listMarks, Blueprint.field?_index hb hfields, Blueprint.listDepth, Blueprint.definition?]
  cases b.type? n.onType with
  | none => rfl
  | some t =>
    rw [Option.bind_some, Option.bind_some]
    cases t.field? n.name with
    | none => rfl
    | some f =>
      have hlist : (t.fieldIndex f).isList = f.type.isList := rfl
      have hdepth := TypeRef.isList_iff (t := f.type)
      simp only [Option.map_some, Option.any_some, Option.getD_some, hlist]
      split <;> rename_i h
      · have := hdepth.1 h
        omega
      · have := mt hdepth.2 h
        omega

end Planner

/-! ### The field that a fragment completes -/

/-- The fragment receives keys, asks for children of the field at the end of a way through the
selection, and is attached where the way leads from `path`. -/
def FetchFragment.AttachedBelow (p : Planner) (path : ResponsePath) (s : SelectionSet)
    (f : FetchFragment) : Prop :=
  f.requiredKeys ≠ [] ∧ ∃ way field, SelectionSet.Descends s (way ++ [field]) ∧
    f.providedPath = (way ++ [field]).foldl p.placeBelow path ∧
    ∀ n ∈ f.selection, n.isHidden = false → ∃ c ∈ field.children, n.asked = c.asked

namespace FetchFragment.AttachedBelow
variable {p : Planner} {path : ResponsePath} {s t : SelectionSet} {f : FetchFragment}

theorem subset (h : f.AttachedBelow p path s) (hst : s ⊆ t) : f.AttachedBelow p path t := by
  obtain ⟨hkeys, way, field, hway, hattached⟩ := h
  exact ⟨hkeys, way, field, hway.mono hst, hattached⟩

theorem of_children {n : SelectionNode} (h : f.AttachedBelow p (p.placeBelow path n) s)
    (hs : s ⊆ n.children) : f.AttachedBelow p path [n] := by
  obtain ⟨hkeys, way, field, hway, hpath, hcopies⟩ := h
  exact ⟨hkeys, n :: way, field, ⟨List.mem_cons_self, hway.mono hs⟩, hpath, hcopies⟩

end FetchFragment.AttachedBelow

def Planner.Attaches (p : Planner) : Completion := fun site _ n m drafts =>
  m.head = n.head ∧ ∀ d ∈ drafts, d.fragment.AttachedBelow p site.path [n]

section Attaches
variable {b : Blueprint} {p : Planner} {site : Site} {next : Nat} {ns : List SelectionNode}
  {drafts : List Draft}

theorem CompletesAll.attaches {ms : List SelectionNode}
    (h : CompletesAll p.Attaches site next ns ms drafts) :
    ms.map SelectionNode.head = ns.map SelectionNode.head ∧
      ∀ d ∈ drafts, d.fragment.AttachedBelow p site.path ns := by
  induction h with
  | nil => exact ⟨rfl, nofun⟩
  | cons first _ ih =>
    obtain ⟨hhead, hdrafts⟩ := first
    obtain ⟨hheads, hmore⟩ := ih
    refine ⟨by simp [hhead, hheads], List.forall_mem_append.2 ⟨fun d hd => ?_, fun d hd => ?_⟩⟩
    · exact (hdrafts d hd).subset (by simp)
    · exact (hmore d hd).subset (by simp)

theorem Routes.attaches {provided : List String} {kept : List SelectionNode}
    {leaving : List ((Source × String) × SelectionNode)}
    (h : Routes p.Attaches p site provided next ns kept leaving drafts) :
    ∀ d ∈ drafts, d.fragment.AttachedBelow p site.path ns := by
  induction h with
  | nil => exact nofun
  | typename _ _ ih => exact fun d hd => (ih d hd).subset (by simp)
  | stays _ first _ ih =>
    refine List.forall_mem_append.2 ⟨fun d hd => ?_, fun d hd => ?_⟩
    · exact (first.2 d hd).subset (by simp)
    · exact (ih d hd).subset (by simp)
  | leaves _ _ _ _ ih => exact fun d hd => (ih d hd).subset (by simp)

/-- An entry made for children of a field is attached below it, and so are those inside. -/
theorem MadeFor.attaches (hb : b.index = .valid p.index) {n : SelectionNode} {bases : List Entry}
    {g : Group} {e : Entry}
    (h : MadeFor p.Attaches p { site with path := p.placeBelow site.path n } bases g e)
    (hg : g.2 ⊆ n.children) (place : List String) (entries : List Entry) :
    (p.carryEntry place entries e).fragment.AttachedBelow p site.path [n] ∧
      ∀ d ∈ e.inner, d.fragment.AttachedBelow p site.path [n] := by
  have hpath : e.fragment.providedPath = p.placeBelow site.path n := h.path
  have hself : (∀ m ∈ e.fragment.selection, ∃ c ∈ g.2, m.asked = c.asked) →
      (p.carryEntry place entries e).fragment.AttachedBelow p site.path [n] := by
    intro hcopies
    refine ⟨h.keys_ne_nil hb, [], n, ⟨List.mem_cons_self, trivial⟩, hpath, fun m hm hvisible => ?_⟩
    obtain ⟨c, hc, hasked⟩ := hcopies m (p.mem_of_mem_carryEntry hm hvisible)
    exact ⟨c, hg hc, hasked⟩
  cases h.filled with
  | inl hempty =>
    obtain ⟨hselection, hinner⟩ := hempty
    refine ⟨hself fun m hm => ?_, fun d hd => ?_⟩
    · exact nomatch hselection ▸ hm
    · exact nomatch hinner ▸ hd
  | inr fill =>
    obtain ⟨hheads, hinner⟩ := fill.attaches
    refine ⟨hself fun m hm => ?_, fun d hd => ?_⟩
    · have hmem : m.head ∈ g.2.map SelectionNode.head := hheads ▸ List.mem_map_of_mem hm
      obtain ⟨c, hc, hhead⟩ := List.mem_map.1 hmem
      exact ⟨c, hc, SelectionNode.asked_of_head hhead.symm⟩
    · have hbelow := hinner d hd
      rw [hpath] at hbelow
      exact hbelow.of_children hg

theorem Splits.attaches (hb : b.index = .valid p.index) {n : SelectionNode} {place : List String}
    {kept : List SelectionNode}
    (h : Splits p.Attaches p { site with path := p.placeBelow site.path n } n.ofType
      (p.providedBelow site.source n) place n.children next kept drafts) :
    p.Attaches site next n { n with children := kept } drafts := by
  cases h with
  | @mk kept leaving drafts groups entries routes grouped enters =>
    have hroutes := routes.attaches
    refine ⟨rfl, List.forall_mem_append.2 ⟨fun d hd => ?_, fun d hd => ?_⟩⟩
    · exact (hroutes d hd).of_children (List.Subset.refl _)
    · obtain ⟨e, he, hd⟩ := p.mem_drafts_carryEntry.1 hd
      obtain ⟨-, g, hg, hmade⟩ := enters.made (by simp [Site.Before]) e he
      have hsublist := routes.group_sublist (grouped.subset hg)
      obtain ⟨hself, hinner⟩ := hmade.attaches hb hsublist.subset place entries
      cases hd with
      | inl heq => exact heq ▸ hself
      | inr hd => exact hinner d hd

theorem Planner.complete_attaches (hb : b.index = .valid p.index) (n : SelectionNode) :
    p.Completes p.Attaches n :=
  complete_induction (fun _ _ _ _ => ⟨rfl, nofun⟩) (fun _ _ _ _ _ _ h => h.attaches hb) n

theorem EntersRoots.attaches {serial : Bool} {rootType : String} {previous? : Option Nat}
    {groups : List (Source × List SelectionNode)}
    (h : EntersRoots p.Attaches serial rootType previous? next groups drafts)
    (hgroups : ∀ g ∈ groups, g.2 ⊆ ns) :
    ∀ d ∈ drafts, (d.fragment.isRoot = true ∧ d.fragment.providedPath = .root) ∨
      d.fragment.AttachedBelow p .root ns := by
  induction h with
  | nil => exact nofun
  | cons fill _ ih =>
    obtain ⟨hfields, hgroups⟩ := List.forall_mem_cons.1 hgroups
    refine List.forall_mem_append.2 ⟨List.forall_mem_cons.2 ⟨.inl ⟨rfl, rfl⟩, fun d hd => ?_⟩,
      ih hgroups⟩
    exact .inr ((fill.attaches.2 d hd).subset hfields)

/-- A fragment of an operation is a root fragment, or it is attached below one of its fields. -/
theorem Planner.decompose_attaches (hb : b.index = .valid p.index) {o : Operation}
    {d : Decomposition} (h : p.decompose o = .ok d) : ∀ f ∈ d.fragments,
      (f.isRoot = true ∧ f.providedPath = .root) ∨ f.AttachedBelow p .root o.selection := by
  cases decomposes_of_ok (complete_attaches hb) h with
  | @mk roots drafts fields _ enters =>
    intro f hf
    obtain ⟨draft, hdraft, rfl⟩ := List.mem_map.1 hf
    exact enters.attaches (fun g hg => (sublist_of_mem_rootGroups fields hg).subset) draft hdraft

end Attaches

/-- Every field of an operation is a type name or one that its type defines. -/
theorem Operation.defines_of_parse {text : String} {name? : Option String} {b : Blueprint}
    {x : SchemaIndex} {o : Operation} (hb : b.index = .valid x) (hfields : b.DistinctFields)
    (ho : Operation.parse text name? x = .ok o) :
    ∀ n ∈ o.selection.allFields, n.isTypename = true ∨ (b.definition? n).isSome = true := by
  obtain ⟨fragments, hanswers⟩ := Operation.parse_answers ho
  intro n hn
  have hreturns := (hanswers n hn).returns
  unfold Scope.returnType? at hreturns
  split at hreturns
  · rename_i hname
    exact .inl (by simpa [SelectionNode.isTypename] using hname)
  · obtain ⟨f, hf, -⟩ := Option.map_eq_some_iff.1 hreturns
    refine .inr ?_
    rw [← Blueprint.isSome_field?_index hb hfields, hf]
    rfl

/-- A root fragment is attached at the root. Any other completes the children of a field, and its
path follows the fields of the operation down to that one, with one list mark for each that returns
a list. So it marks every list exactly if no field on the way returns lists of lists. -/
theorem decompose_attach_paths {text : String} {name? : Option String} {b : Blueprint} {p : Planner}
    {o : Operation} {d : Decomposition} (hb : b.index = .valid p.index)
    (hfields : b.DistinctFields) (ho : Operation.parse text name? p.index = .ok o)
    (h : p.decompose o = .ok d) {f : FetchFragment} (hf : f ∈ d.fragments) :
    (f.isRoot = true ∧ f.providedPath = .root) ∨
    (f.isRoot = false ∧ ∃ way field, SelectionSet.Descends o.selection (way ++ [field]) ∧
      (∀ n ∈ f.selection, n.isHidden = false → ∃ c ∈ field.children, n.asked = c.asked) ∧
      (∀ n ∈ way ++ [field], n.isTypename = true ∨ (b.definition? n).isSome = true) ∧
      f.providedPath = .ofWay (fun n => min 1 (b.listDepth n)) (way ++ [field]) ∧
      (f.providedPath = .ofWay b.listDepth (way ++ [field]) ↔
        ∀ n ∈ way ++ [field], b.listDepth n ≤ 1)) := by
  cases Planner.decompose_attaches hb h f hf with
  | inl hroot => exact .inl hroot
  | inr hbelow =>
    obtain ⟨hkeys, way, field, hway, hpath, hcopies⟩ := hbelow
    have hmarks : p.listMarks = fun n => min 1 (b.listDepth n) :=
      funext fun n => Planner.listMarks_eq hb hfields n
    have hpath : f.providedPath =
        .ofWay (fun n => min 1 (b.listDepth n)) (way ++ [field]) := by
      rw [hpath, Planner.foldl_placeBelow, hmarks]
      rfl
    have hentered : f.isRoot = false := by
      simpa [FetchFragment.isRoot] using hkeys
    refine .inr ⟨hentered, way, field, hway, hcopies, fun n hn => ?_, hpath, ?_⟩
    · exact Operation.defines_of_parse hb hfields ho n (hway.mem_allFields hn)
    · rw [hpath, ResponsePath.ofWay_eq_iff fun n => Nat.min_le_right 1 _]
      exact forall_congr' fun n => forall_congr' fun _ => by omega

/-- In the shop every fragment is attached where its objects are. -/
theorem decompose_attach_paths_shop :
    (shopFragments.fragments.map (·.providedPath.text)) =
      ["[]", "[reviews, @, product]", "[reviews, @, product]", "[reviews, @, author]"] ∧
    ∀ f ∈ shopFragments.fragments, f.isRoot = true ∨ ∃ way field,
      SelectionSet.Descends shopQuery.selection (way ++ [field]) ∧
      f.providedPath = .ofWay shopSchema.listDepth (way ++ [field]) := by
  have hdepth : ∀ n ∈ shopQuery.selection.allFields, shopSchema.listDepth n ≤ 1 := by
    decide +kernel
  refine ⟨by decide +kernel, fun f hf => ?_⟩
  cases decompose_attach_paths shop_index (by decide +kernel) shop_parse shop_decompose hf with
  | inl hroot => exact .inl hroot.1
  | inr hbelow =>
    obtain ⟨-, way, field, hway, -, -, -, hiff⟩ := hbelow
    exact .inr ⟨way, field, hway, hiff.2 fun n hn => hdepth n (hway.mem_allFields hn)⟩

/-! ### Rows of seats -/

def hallSchema : Blueprint :=
  ⟨"Query", none, none, ["halls", "tickets"],
    [⟨"Query", [{ graph := "halls" }],
       [⟨"seats", .list (.list (.named "Seat" false) false) false, []⟩]⟩,
     ⟨"Seat", [{ graph := "halls", key := some "id" }, { graph := "tickets", key := some "id" }],
       [⟨"id", .named "ID" true, []⟩,
        ⟨"guest", .named "String" false, [{ graph := some "tickets" }]⟩]⟩]⟩

def hall : Planner := ⟨hallSchema.index.value?.getD ⟨"", none, none, .empty⟩, {}⟩

def hallText : String := "{ seats { guest } }"

/-- The seats of all rows are behind two lists, of which the path marks one. -/
theorem hall_seats_marked_once : hallSchema.index.isValid = true ∧ hallSchema.DistinctFields ∧
    Operation.parse hallText none hall.index = .ok (hall.operationOf hallText) ∧
    hall.decompose (hall.operationOf hallText) = .ok (hall.fragmentsOf hallText) ∧
    ∃ f ∈ (hall.fragmentsOf hallText).fragments, f.isRoot = false ∧
      f.providedPath = [.field "seats", .each] ∧
      ∀ way field, SelectionSet.Descends (hall.operationOf hallText).selection (way ++ [field]) →
        f.providedPath ≠ .ofWay hallSchema.listDepth (way ++ [field]) := by
  refine ⟨by decide +kernel, by decide +kernel, Planner.operationOf_of_isOk (by decide +kernel),
    Planner.fragmentsOf_of_isOk (by decide +kernel), ?_⟩
  have hentered : ∃ f ∈ (hall.fragmentsOf hallText).fragments, f.isRoot = false ∧
      f.providedPath = [.field "seats", .each] := by decide +kernel
  have hdepth : ∀ n ∈ (hall.operationOf hallText).selection, hallSchema.listDepth n = 2 := by
    decide +kernel
  obtain ⟨f, hf, hkeys, hpath⟩ := hentered
  refine ⟨f, hf, hkeys, hpath, fun way field hway heq => ?_⟩
  -- every way starts at the seats
  obtain ⟨n, rest, hrest⟩ := List.exists_cons_of_ne_nil (List.append_ne_nil_of_right_ne_nil way
    (List.cons_ne_nil field []))
  rw [hrest] at hway heq
  have hlength := congrArg List.length heq
  simp only [hpath, ResponsePath.ofWay, List.flatMap_cons, hdepth n hway.1, List.length_append,
    List.length_cons, List.length_nil, List.length_replicate] at hlength
  omega

end FederatedQuery
