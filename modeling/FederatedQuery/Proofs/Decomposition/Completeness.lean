import FederatedQuery.Operation.Parse
import FederatedQuery.Proofs.Decomposition.Keys
import FederatedQuery.Proofs.Outcome

/-!
A decomposition asks for every field of the operation once, at its place and in its order.
-/
namespace FederatedQuery

namespace Draft

def asked (drafts : List Draft) : List (List String × Asked) :=
  drafts.flatMap fun d =>
    SelectionSet.visible d.fragment.providedPath.keys d.fragment.selection

theorem asked_append (drafts more : List Draft) :
    asked (drafts ++ more) = asked drafts ++ asked more :=
  List.flatMap_append

theorem asked_cons (d : Draft) (drafts : List Draft) : asked (d :: drafts) =
    SelectionSet.visible d.fragment.providedPath.keys d.fragment.selection ++ asked drafts :=
  List.flatMap_cons

/-- The draft asks for some fields of a selection below `s`, in their order, where that selection
stands in the response. The keys `above` lead to `s`. -/
def Thins (above : List String) (s : SelectionSet) (d : Draft) : Prop :=
  ∃ way, SelectionSet.Descends s way ∧
    d.fragment.providedPath.keys = above ++ way.map (·.responseKey) ∧
    SelectionSet.Thinned d.fragment.selection (SelectionSet.after s way)

variable {above : List String} {s t : SelectionSet} {d : Draft}

theorem Thins.sublist (h : Thins above s d) (hst : s.Sublist t) : Thins above t d := by
  obtain ⟨way, hway, hkeys, hthin⟩ := h
  refine ⟨way, hway.mono hst.subset, hkeys, ?_⟩
  cases way with
  | nil => exact hthin.sublist hst
  | cons n way => exact hthin

theorem Thins.of_child {n : SelectionNode} (h : Thins (above ++ [n.responseKey]) n.children d)
    (hn : n ∈ s) : Thins above s d := by
  obtain ⟨way, hway, hkeys, hthin⟩ := h
  exact ⟨n :: way, ⟨hn, hway⟩, by simp [hkeys], hthin⟩

end Draft

theorem Planner.keys_placeBelow (p : Planner) (path : ResponsePath) (n : SelectionNode) :
    (p.placeBelow path n).keys = path.keys ++ [n.responseKey] := by
  unfold placeBelow
  split <;> simp [ResponsePath.keys, ResponsePath.field, ResponsePath.each, Segment.key?]

/-! ### Nothing is lost or asked for twice -/

def AsksAll : Completion := fun site _ n m drafts =>
  (SelectionSet.visible site.path.keys [m] ++ Draft.asked drafts).Perm
    (SelectionSet.visible site.path.keys [n])

theorem perm_append_parts {α : Type} {a b c a' b' c' : List α} (h : (a ++ b).Perm c)
    (h' : (a' ++ b').Perm c') : ((a ++ a') ++ (b ++ b')).Perm (c ++ c') := by
  refine List.Perm.trans ?_ (h.append h')
  rw [List.append_assoc, List.append_assoc]
  exact (List.perm_append_comm_assoc a' b b').append_left a

section AsksAll
variable {p : Planner} {site : Site} {next : Nat} {ns : List SelectionNode} {drafts : List Draft}

theorem CompletesAll.asks {ms : List SelectionNode}
    (h : CompletesAll AsksAll site next ns ms drafts) :
    (SelectionSet.visible site.path.keys ms ++ Draft.asked drafts).Perm
      (SelectionSet.visible site.path.keys ns) := by
  induction h with
  | nil => exact .nil
  | @cons _ n m ns ms _ _ first _ ih =>
    rw [← List.singleton_append (l := ms), ← List.singleton_append (l := ns),
      SelectionSet.visible_append, SelectionSet.visible_append, Draft.asked_append]
    exact perm_append_parts first ih

/-- What children ask for is asked by those kept, the drafts below them and those that leave. -/
theorem Routes.asks {provided : List String} {kept : List SelectionNode}
    {leaving : List ((Source × String) × SelectionNode)}
    (h : Routes AsksAll p site provided next ns kept leaving drafts) :
    (SelectionSet.visible site.path.keys kept ++
      (Draft.asked drafts ++ SelectionSet.visible site.path.keys (leaving.map (·.2)))).Perm
      (SelectionSet.visible site.path.keys ns) := by
  induction h with
  | nil => exact .nil
  | @typename _ n ns kept leaving drafts _ _ ih =>
    rw [← List.singleton_append (l := kept), ← List.singleton_append (l := ns),
      SelectionSet.visible_append, SelectionSet.visible_append, List.append_assoc]
    exact ih.append_left _
  | @stays _ n m ns kept leaving drafts more _ first _ ih =>
    rw [← List.singleton_append (l := kept), ← List.singleton_append (l := ns),
      SelectionSet.visible_append, SelectionSet.visible_append, Draft.asked_append,
      List.append_assoc (Draft.asked drafts)]
    exact perm_append_parts first ih
  | @leaves _ n ns kept leaving drafts owner others _ _ _ _ ih =>
    rw [List.map_cons, ← List.singleton_append (l := ns), SelectionSet.visible_append,
      ← List.singleton_append (l := leaving.map (·.2)), SelectionSet.visible_append]
    -- the field is asked for behind the drafts now, and no longer in front of them
    rw [← List.append_assoc] at ih ⊢
    exact (List.perm_append_comm_assoc _ _ _).trans (ih.append_left _)

/-- The entries ask for what the groups ask for; a base asks for nothing. -/
theorem Enters.asks {known entries : List Entry} {groups : List Group}
    (h : Enters AsksAll p site known next groups entries) :
    (Draft.asked (entries.flatMap Entry.drafts)).Perm
      (SelectionSet.visible site.path.keys (groups.flatMap (·.2))) := by
  induction h with
  | nil => exact .nil
  | direct _ fill _ ih =>
    rw [List.flatMap_cons, List.flatMap_cons, SelectionSet.visible_append, Draft.asked_append]
    exact fill.asks.append ih
  | beyond _ _ _ _ fill _ ih =>
    rw [List.flatMap_cons, List.flatMap_cons, SelectionSet.visible_append, Draft.asked_append]
    exact fill.asks.append ih
  | bridged _ fill _ ih =>
    rw [List.flatMap_cons, List.flatMap_cons, List.flatMap_cons, SelectionSet.visible_append,
      Draft.asked_append, Draft.asked_append]
    exact fill.asks.append ih

theorem Planner.asked_carryEntry (p : Planner) (place : List String) (all entries : List Entry) :
    Draft.asked ((entries.map (p.carryEntry place all)).flatMap Entry.drafts) =
      Draft.asked (entries.flatMap Entry.drafts) := by
  induction entries with
  | nil => rfl
  | cons e entries ih =>
    rw [List.map_cons, List.flatMap_cons, List.flatMap_cons, Draft.asked_append, Draft.asked_append,
      ih, Entry.drafts, Entry.drafts, Draft.asked_cons, Draft.asked_cons]
    simp only [carryEntry, visible_carry]

theorem Splits.asks {enclosing : String} {provided place : List String} {kept : List SelectionNode}
    (h : Splits AsksAll p site enclosing provided place ns next kept drafts) :
    (SelectionSet.visible site.path.keys kept ++ Draft.asked drafts).Perm
      (SelectionSet.visible site.path.keys ns) := by
  cases h with
  | @mk kept leaving drafts groups entries routes grouped enters =>
    -- grouping puts what leaves in another order, and so does entering the near groups first
    have hgroups : (groups.flatMap (·.2)).Perm (leaving.map (·.2)) := by
      refine (grouped.flatMap_right _).trans ?_
      rw [← map_snd_ungroup]
      exact (ungroup_gather_perm leaving).map _
    rw [p.visible_carry, Draft.asked_append, p.asked_carryEntry]
    refine List.Perm.trans ?_ routes.asks
    exact ((enters.asks.trans (SelectionSet.visible_perm _ hgroups)).append_left _).append_left _

theorem Planner.complete_asks (p : Planner) (n : SelectionNode) : p.Completes AsksAll n := by
  refine complete_induction (fun site next n _ => ?_) (fun site next n kept drafts _ h => ?_) n
  · simp [AsksAll, Draft.asked]
  · have hasks := h.asks
    rw [p.keys_placeBelow] at hasks
    simp only [AsksAll, SelectionSet.visible_singleton site.path.keys, List.append_assoc]
    exact hasks.append_left _

theorem EntersRoots.asks {serial : Bool} {rootType : String} {previous? : Option Nat}
    {groups : List (Source × List SelectionNode)}
    (h : EntersRoots AsksAll serial rootType previous? next groups drafts) :
    (Draft.asked drafts).Perm (SelectionSet.visible [] (groups.flatMap (·.2))) := by
  induction h with
  | nil => exact .nil
  | cons fill _ ih =>
    rw [Draft.asked_append, Draft.asked_cons, List.flatMap_cons, SelectionSet.visible_append]
    exact fill.asks.append ih

end AsksAll

/-! ### The order is kept -/

def KeepsOrder : Completion := fun site _ n m drafts =>
  SelectionSet.Thinned [m] [n] ∧
    ∀ d ∈ drafts, d.Thins (site.path.keys ++ [n.responseKey]) n.children

section KeepsOrder
variable {p : Planner} {site : Site} {next : Nat} {ns : List SelectionNode} {drafts : List Draft}

theorem CompletesAll.keepsOrder {ms : List SelectionNode}
    (h : CompletesAll KeepsOrder site next ns ms drafts) :
    SelectionSet.Thinned ms ns ∧ ∀ d ∈ drafts, d.Thins site.path.keys ns := by
  induction h with
  | nil => exact ⟨.nil, by simp⟩
  | @cons _ n m ns ms _ _ first _ ih =>
    refine ⟨first.1.append ih.1, List.forall_mem_append.2 ⟨fun d hd => ?_, fun d hd => ?_⟩⟩
    · exact (first.2 d hd).of_child (by simp)
    · exact (ih.2 d hd).sublist (List.sublist_cons_self n ns)

theorem Routes.keepsOrder {provided : List String} {kept : List SelectionNode}
    {leaving : List ((Source × String) × SelectionNode)}
    (h : Routes KeepsOrder p site provided next ns kept leaving drafts) :
    SelectionSet.Thinned kept ns ∧ ∀ d ∈ drafts, d.Thins site.path.keys ns := by
  induction h with
  | nil => exact ⟨.nil, by simp⟩
  | @typename _ n ns _ _ _ _ _ ih =>
    have hsub := List.sublist_cons_self n ns
    exact ⟨(SelectionSet.Thinned.refl [n]).append ih.1, fun d hd => (ih.2 d hd).sublist hsub⟩
  | @stays _ n m ns _ _ _ _ _ first _ ih =>
    refine ⟨first.1.append ih.1, List.forall_mem_append.2 ⟨fun d hd => ?_, fun d hd => ?_⟩⟩
    · exact (first.2 d hd).of_child (by simp)
    · exact (ih.2 d hd).sublist (List.sublist_cons_self n ns)
  | @leaves _ n ns _ _ _ _ _ _ _ _ _ ih =>
    exact ⟨.skip ih.1, fun d hd => (ih.2 d hd).sublist (List.sublist_cons_self n ns)⟩

theorem MadeFor.keepsOrder {bases : List Entry} {g : Group} {e : Entry}
    (h : MadeFor KeepsOrder p site bases g e) (hg : g.2.Sublist ns) :
    ∀ d ∈ e.drafts, d.Thins site.path.keys ns := by
  have hself : SelectionSet.Thinned e.fragment.selection g.2 →
      Draft.Thins site.path.keys ns ⟨e.fragment, [e.parent]⟩ := by
    intro hthin
    exact ⟨[], trivial, by simp [h.path], hthin.sublist hg⟩
  cases h.filled with
  | inl hempty =>
    -- a base asks for nothing of its own, so its group does not matter
    have hthin : SelectionSet.Thinned e.fragment.selection g.2 :=
      .of_hidden (by simp [hempty.1]) g.2
    exact List.forall_mem_cons.2 ⟨hself hthin, by simp [hempty.2]⟩
  | inr fill =>
    obtain ⟨hthin, hinner⟩ := fill.keepsOrder
    rw [h.path] at hinner
    exact List.forall_mem_cons.2 ⟨hself hthin, fun d hd => (hinner d hd).sublist hg⟩

theorem Planner.carryEntry_thins (p : Planner) (place : List String) (all : List Entry) {e : Entry}
    {above : List String} (h : ∀ d ∈ e.drafts, d.Thins above ns) :
    ∀ d ∈ (p.carryEntry place all e).drafts, d.Thins above ns := by
  obtain ⟨hfirst, hinner⟩ := List.forall_mem_cons.1 h
  refine List.forall_mem_cons.2 ⟨?_, hinner⟩
  obtain ⟨way, hway, hkeys, hthin⟩ := hfirst
  obtain ⟨added, heq, hadded⟩ := p.carry_hidden place all e.id none e.fragment.selection
  refine ⟨way, hway, hkeys, ?_⟩
  rw [carryEntry, heq]
  exact hthin.append_hidden fun n hn => (hadded n hn).1

theorem Splits.keepsOrder {enclosing : String} {provided place : List String}
    {kept : List SelectionNode}
    (h : Splits KeepsOrder p site enclosing provided place ns next kept drafts) :
    SelectionSet.Thinned kept ns ∧ ∀ d ∈ drafts, d.Thins site.path.keys ns := by
  cases h with
  | @mk kept leaving drafts groups entries routes grouped enters =>
    obtain ⟨hkept, hdrafts⟩ := routes.keepsOrder
    obtain ⟨added, heq, hadded⟩ := p.carry_hidden place entries site.id (some enclosing) kept
    refine ⟨heq ▸ hkept.append_hidden fun n hn => (hadded n hn).1,
      List.forall_mem_append.2 ⟨hdrafts, fun d hd => ?_⟩⟩
    obtain ⟨e', he', hd⟩ := List.mem_flatMap.1 hd
    obtain ⟨e, he, rfl⟩ := List.mem_map.1 he'
    obtain ⟨-, g, hg, hmade⟩ := enters.made (by simp [Site.Before]) e he
    have hsublist := routes.group_sublist (grouped.subset hg)
    exact p.carryEntry_thins place entries (hmade.keepsOrder hsublist) d hd

theorem Planner.complete_keepsOrder (p : Planner) (n : SelectionNode) :
    p.Completes KeepsOrder n := by
  refine complete_induction (fun site next n _ => ?_) (fun site next n kept drafts _ h => ?_) n
  · exact ⟨.refl [n], by simp⟩
  · obtain ⟨hkept, hdrafts⟩ := h.keepsOrder
    rw [p.keys_placeBelow] at hdrafts
    exact ⟨hkept.withChildren, hdrafts⟩

theorem EntersRoots.keepsOrder {serial : Bool} {rootType : String} {previous? : Option Nat}
    {groups : List (Source × List SelectionNode)}
    (h : EntersRoots KeepsOrder serial rootType previous? next groups drafts)
    (hgroups : ∀ g ∈ groups, g.2.Sublist ns) : ∀ d ∈ drafts, d.Thins [] ns := by
  induction h with
  | nil => simp
  | cons fill _ ih =>
    obtain ⟨hfields, hgroups⟩ := List.forall_mem_cons.1 hgroups
    obtain ⟨hnodes, hinner⟩ := fill.keepsOrder
    refine List.forall_mem_append.2 ⟨List.forall_mem_cons.2 ⟨?_, fun d hd => ?_⟩, ih hgroups⟩
    · exact ⟨[], trivial, rfl, hnodes.sublist hfields⟩
    · exact (hinner d hd).sublist hfields

end KeepsOrder

theorem Decomposition.asked_ofDrafts (drafts : List Draft) :
    ((Decomposition.ofDrafts drafts).fragments.flatMap fun f =>
      SelectionSet.visible f.providedPath.keys f.selection) = Draft.asked drafts := by
  simp [ofDrafts, Draft.asked, List.flatMap_map]

/-- The fragments ask for every field of the operation once, at its place, but for the type names at
the root. Each asks for some fields of one selection of the operation, in their order. -/
theorem decompose_complete {p : Planner} {o : Operation} {d : Decomposition}
    (visible : ∀ n ∈ SelectionSet.allFields o.selection, n.isHidden = false)
    (h : p.decompose o = .ok d) :
    (d.fragments.flatMap fun f => SelectionSet.visible f.providedPath.keys f.selection).Perm
      ((SelectionSet.located [] (o.selection.filter (!·.isTypename))).map fun e =>
        (e.1, e.2.asked)) ∧
    ∀ f ∈ d.fragments, ∃ way, SelectionSet.Descends o.selection way ∧
      f.providedPath.keys = way.map (·.responseKey) ∧
      SelectionSet.Thinned f.selection (SelectionSet.after o.selection way) := by
  constructor
  · cases Planner.decomposes_of_ok p.complete_asks h with
    | @mk roots drafts fields _ enters =>
      have hgroups : ((rootGroups o roots).flatMap (·.2)).Perm
          (o.selection.filter (!·.isTypename)) := by
        rw [← map_snd_ungroup, ← fields]
        exact (ungroup_rootGroups_perm o roots).map _
      have hvisible : ∀ n ∈ SelectionSet.allFields (o.selection.filter (!·.isTypename)),
          n.isHidden = false := fun n hn =>
        visible n (SelectionSet.allFields_subset List.filter_sublist.subset hn)
      rw [Decomposition.asked_ofDrafts, ← SelectionSet.visible_eq_map hvisible]
      exact enters.asks.trans (SelectionSet.visible_perm [] hgroups)
  · intro f hf
    cases Planner.decomposes_of_ok p.complete_keepsOrder h with
    | @mk roots drafts fields _ enters =>
      obtain ⟨draft, hdraft, rfl⟩ := List.mem_map.1 hf
      have hgroups : ∀ g ∈ rootGroups o roots, g.2.Sublist o.selection := by
        intro g hg
        exact sublist_of_mem_rootGroups fields hg
      have hthins := enters.keepsOrder hgroups draft hdraft
      simpa [Draft.Thins] using hthins

/-! ### A shop -/

/-- The weight of a product has to pass through `products` on its way to `shipping`. -/
def shopSchema : Blueprint :=
  ⟨"Query", none, none, ["accounts", "products", "reviews", "shipping"],
    [⟨"Query", [{ graph := "reviews" }], [⟨"reviews", .list (.named "Review" false) false, []⟩]⟩,
     ⟨"Review", [{ graph := "reviews", key := some "id" }],
       [⟨"id", .named "ID" true, []⟩, ⟨"product", .named "Product" false, []⟩,
        ⟨"author", .named "User" false, [{ graph := some "reviews", provides := some "name" }]⟩]⟩,
     ⟨"Product", [{ graph := "products", key := some "upc" },
         { graph := "reviews", key := some "upc" }, { graph := "shipping", key := some "upc" }],
       [⟨"upc", .named "String" true, []⟩,
        ⟨"weight", .named "Int" false, [{ graph := some "products" },
          { graph := some "shipping", external := some true }]⟩,
        ⟨"estimate", .named "Int" false,
          [{ graph := some "shipping", requires := some "weight" }]⟩]⟩,
     ⟨"User", [{ graph := "accounts", key := some "id" }, { graph := "reviews", key := some "id" }],
       [⟨"id", .named "ID" true, []⟩,
        ⟨"name", .named "String" false, [{ graph := some "accounts" }]⟩,
        ⟨"email", .named "String" false, [{ graph := some "accounts" }]⟩]⟩]⟩

def shop : Planner := ⟨shopSchema.index.value?.getD ⟨"", none, none, .empty⟩, {}⟩

def shopQuery : Operation :=
  (Operation.parse
    "{ reviews { product { estimate weight } author { name email } __typename id } }"
    none shop.index).toOption.getD ⟨.query, none, "", [], []⟩

def shopFragments : Decomposition := (shop.decompose shopQuery).toOption.getD ⟨[], []⟩

theorem error_of_map {ε α β : Type} {r : Except ε α} {f : α → β} {e : ε}
    (h : r.map f = .error e) : r = .error e := by
  cases r with
  | error e' => exact congrArg _ (Except.error.inj h)
  | ok a => exact nomatch h

theorem shop_decompose : shop.decompose shopQuery = .ok shopFragments := by
  rw [shopFragments]
  exact ok_of_isOk (by decide +kernel) _

namespace Planner

def operationOf (p : Planner) (text : String) : Operation :=
  (Operation.parse text none p.index).toOption.getD ⟨.query, none, "", [], []⟩

def fragmentsOf (p : Planner) (text : String) : Decomposition :=
  (p.decompose (p.operationOf text)).toOption.getD ⟨[], []⟩

theorem operationOf_of_isOk {p : Planner} {text : String}
    (h : (Operation.parse text none p.index).isOk = true) :
    Operation.parse text none p.index = .ok (p.operationOf text) := by
  rw [operationOf]
  exact ok_of_isOk h _

theorem fragmentsOf_of_isOk {p : Planner} {text : String}
    (h : (p.decompose (p.operationOf text)).isOk = true) :
    p.decompose (p.operationOf text) = .ok (p.fragmentsOf text) := by
  rw [fragmentsOf]
  exact ok_of_isOk h _

end Planner

/-- The shop decomposes a query over four sources. -/
theorem decompose_complete_shop :
    shopFragments.fragments.length = 4 ∧
    (shopFragments.fragments.flatMap fun f =>
      SelectionSet.visible f.providedPath.keys f.selection).Perm
      ((SelectionSet.located [] (shopQuery.selection.filter (!·.isTypename))).map fun e =>
        (e.1, e.2.asked)) :=
  ⟨by decide +kernel, (decompose_complete (by decide +kernel) shop_decompose).1⟩

end FederatedQuery
