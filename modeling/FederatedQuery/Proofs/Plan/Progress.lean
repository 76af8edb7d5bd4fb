import FederatedQuery.Plan
import FederatedQuery.Proofs.Decomposition.Progress
import FederatedQuery.Proofs.Operation.Complete

/-!
Well-connected schemas have a plan for every operation whose fields stay on the types that are
returned to them.
-/
namespace FederatedQuery

namespace Blueprint

def ProvidesNothing (b : Blueprint) : Prop :=
  ∀ t ∈ b.types, ∀ f ∈ t.fields, ∀ j ∈ f.joinFields, j.provides = none

instance (b : Blueprint) : Decidable b.ProvidesNothing :=
  inferInstanceAs (Decidable (∀ _ ∈ _, ∀ _ ∈ _, ∀ _ ∈ _, _))

theorem ProvidesNothing.providesIn_eq_nil {b : Blueprint} {x : SchemaIndex}
    (h : b.ProvidesNothing) (hb : b.index = .valid x) {type field : String} {f : FieldIndex}
    (hf : x.field? type field = some f) (source : Source) : f.providesIn source = [] := by
  obtain ⟨hformed, rfl⟩ := b.index_decides.of_valid hb
  obtain ⟨t, ht, -, d, hd, rfl⟩ := (Blueprint.field?_schemaIndex hformed.distinct).1 hf
  have hnone : d.provides? source = none := by
    rw [FieldDefinition.provides?, List.getLast?_eq_none_iff, List.filterMap_eq_nil_iff]
    intro j hj
    exact h t ht d (TypeDefinition.mem_of_lastField? hd) j (List.mem_filter.1 hj).1
  rw [TypeDefinition.providesIn_fieldIndex, hnone]
  rfl

end Blueprint

/-- The fields of an operation fit the index if each stands on the type that its parent returns. -/
theorem Operation.fits_of_parse {text : String} {name? : Option String} {x : SchemaIndex}
    {o : Operation} (h : Operation.parse text name? x = .ok o)
    (honward : ∀ n ∈ o.selection.allFields, ∀ c ∈ n.children, c.onType = n.ofType) :
    ∀ n ∈ o.selection.allFields, x.Fits n := by
  obtain ⟨fragments, hanswers⟩ := Operation.parse_answers h
  intro n hn
  have hanswer := hanswers n hn
  refine ⟨fun hnamed => ?_, hanswer.composite, honward n hn⟩
  have hne : n.name ≠ typenameField := by simpa [SelectionNode.isTypename] using hnamed
  have hreturns := hanswer.returns
  rwa [Scope.returnType?, if_neg hne, Option.map_eq_some_iff] at hreturns

namespace Planner
variable {p : Planner}

theorem emit_returns {f : FetchFragment} (h : p.Enterable f) :
    Returns (MergeSpec.emit p.index f) fun _ => True := by
  unfold MergeSpec.emit
  cases h with
  | inl hroot =>
    rw [if_pos hroot]
    exact .ok trivial
  | inr hpoint =>
    obtain ⟨e, he⟩ := Option.isSome_iff_exists.1 hpoint
    rw [he]
    split
    · exact .ok trivial
    · exact .ok trivial

theorem build_returns (o : Operation) {d : Decomposition}
    (h : ∀ f ∈ d.fragments, p.Enterable f) : Returns (p.build o d) fun _ => True := by
  have hnodes : Returns (d.fragments.zipIdx.mapM fun e => p.node o d e.1 e.2) fun _ => True := by
    refine (Returns.mapM (Q := fun _ => True) fun e he => ?_).mono fun _ _ => trivial
    exact (emit_returns (h e.1 (List.fst_mem_of_mem_zipIdx he))).bind fun _ _ => .ok trivial
  exact hnodes.bind fun _ _ => .ok trivial

end Planner

/-- Over a well-connected schema in which no field provides anything, every query and mutation has
a plan, as long as the fields below the root are selected on the types that their parents return. -/
theorem plan_progress {b : Blueprint} {p : Planner} {text : String} {name? : Option String}
    {o : Operation} (hb : b.index = .valid p.index) (hnone : b.ProvidesNothing)
    (hx : p.index.WellConnected) (hparse : Operation.parse text name? p.index = .ok o)
    (hkind : o.kind ≠ .subscription)
    (honward : ∀ n ∈ o.selection.allFields, ∀ c ∈ n.children, c.onType = n.ofType) :
    ∃ plan, p.plan o = .ok plan := by
  have hfits := Operation.fits_of_parse hparse honward
  have hdecomposed := Planner.decompose_progresses hb hx
    (fun _ _ _ hf => hnone.providesIn_eq_nil hb hf) hfits
  have hplan : Returns (p.plan o) fun _ => True := by
    rw [Planner.plan, if_neg hkind]
    exact hdecomposed.bind fun d hd => Planner.build_returns o hd
  obtain ⟨plan, hplan, -⟩ := hplan
  exact ⟨plan, hplan⟩

def marketSchema : Blueprint :=
  ⟨"Query", none, none, ["accounts", "orders"],
    [⟨"Query", [{ graph := "accounts" }], [⟨"me", .named "User" false, []⟩]⟩,
     ⟨"User", [{ graph := "accounts", key := some "id" }, { graph := "orders", key := some "id" }],
       [⟨"id", .named "ID" true, []⟩, ⟨"region", .named "String" false, []⟩,
        ⟨"name", .named "String" false, [{ graph := some "accounts" }]⟩,
        ⟨"tax", .named "Int" false, [{ graph := some "orders", requires := some "region" }]⟩,
        ⟨"orders", .list (.named "Order" false) false, [{ graph := some "orders" }]⟩]⟩,
     ⟨"Order", [{ graph := "orders" }],
       [⟨"number", .named "Int" true, []⟩, ⟨"buyer", .named "User" false, []⟩]⟩]⟩

def market : Planner := ⟨marketSchema.index.value?.getD ⟨"", none, none, .empty⟩, {}⟩

def marketText : String := "{ me { name tax orders { number buyer { name __typename } } } }"

/-- A query that goes from accounts to orders and back. -/
theorem plan_progress_market : market.index.Shared "User" ∧
    ∃ plan, market.plan (market.operationOf marketText) = .ok plan ∧ plan.nodes.length = 3 := by
  have hindex : marketSchema.index = .valid market.index :=
    Validated.eq_valid_of_isValid (by decide +kernel) ⟨"", none, none, .empty⟩
  have hparse : Operation.parse marketText none market.index =
      .ok (market.operationOf marketText) :=
    Planner.operationOf_of_isOk (by decide +kernel)
  obtain ⟨plan, hplan⟩ := plan_progress hindex (by decide +kernel) (by decide +kernel) hparse
    (by decide +kernel) (by decide +kernel)
  have hcount : (market.plan (market.operationOf marketText)).toOption.all
      (·.nodes.length = 3) = true := by decide +kernel
  rw [hplan] at hcount
  exact ⟨by decide +kernel, plan, hplan, by simpa [Except.toOption] using hcount⟩

end FederatedQuery
