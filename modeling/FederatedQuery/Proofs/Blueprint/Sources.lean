import FederatedQuery.Blueprint.Sdl
import FederatedQuery.Proofs.Outcome
import FederatedQuery.Proofs.SchemaIndex.Faults
import FederatedQuery.Proofs.Table

/-!
The sources of a schema document. What its directives name are values of the enumeration of graphs,
and what these stand for are the sources of the schema, so that no declaration names another one.
-/
namespace FederatedQuery

structure TypeDefinition.NamesOnly (t : TypeDefinition) (sources : List Source) : Prop where
  joinTypes : ∀ j ∈ t.joinTypes, j.graph ∈ sources
  joinFields : ∀ f ∈ t.fields, ∀ j ∈ f.joinFields, ∀ source, j.graph = some source →
    source ∈ sources

namespace Sdl

def Declares (ds : List Definition) (sources : List Source) : Prop :=
  ∃ values, graphValues ds = some values ∧
    List.Forall₂ (fun v source => graphEntry v = .valid (v.name, source)) values sources

variable {graphs : Table Source} {sources : List Source}

/-! ### Declarations name values of the enumeration -/

theorem resolveGraph_yields (hgraphs : graphs.values ⊆ sources) (graph : String) :
    (resolveGraph graphs graph).Yields (· ∈ sources) := by
  refine .ofOption fun source hsource => hgraphs ?_
  exact Table.mem_values_iff.2 ⟨graph, hsource⟩

theorem joinType_yields (hgraphs : graphs.values ⊆ sources) (j : JoinType) :
    (joinType graphs j).Yields fun k => k.graph ∈ sources :=
  .map (resolveGraph_yields hgraphs j.graph)

theorem joinField_yields (hgraphs : graphs.values ⊆ sources) (j : JoinField) :
    (joinField graphs j).Yields fun k => ∀ source, k.graph = some source → source ∈ sources := by
  unfold joinField
  cases hgraph : j.graph with
  | none => exact .valid (by simp [hgraph])
  | some graph =>
    refine .map ?_
    intro source hsource other hother
    cases hother
    exact resolveGraph_yields hgraphs graph source hsource

theorem fieldDefinition_yields (hgraphs : graphs.values ⊆ sources) (f : FieldNode) :
    (fieldDefinition graphs f).Yields fun d =>
      ∀ j ∈ d.joinFields, ∀ source, j.graph = some source → source ∈ sources := by
  refine .within (.map (.andThen fun _ _ => .traverse fun j _ => ?_)) _
  exact joinField_yields hgraphs j

theorem typeDefinition_yields (hgraphs : graphs.values ⊆ sources) (t : TypeNode)
    (fields : List FieldNode) :
    (typeDefinition graphs t fields).Yields (·.NamesOnly sources) := by
  have hjoinTypes : ((readDirectives "join__type" JoinType.ofJson t.directives).andThen
      (Validated.traverse (joinType graphs))).Yields fun js => ∀ j ∈ js, j.graph ∈ sources :=
    .andThen fun _ _ => .traverse fun j _ => joinType_yields hgraphs j
  refine .within (.map ?_) _
  intro e he
  obtain ⟨hj, hf⟩ := hjoinTypes.zip (.traverse fun f _ => fieldDefinition_yields hgraphs f) e he
  exact ⟨hj, hf⟩

/-! ### The sources of the schema -/

theorem graphEntry_explained (v : EnumValueNode) : (graphEntry v).Explained :=
  ((Validated.Explained.traverse _ _).map _).within _

theorem graphEntries_declares {values : List EnumValueNode} {entries : List (String × Source)}
    (h : graphEntries values = .valid entries) :
    List.Forall₂ (fun v source => graphEntry v = .valid (v.name, source)) values
      (entries.map (·.2)) := by
  rw [graphEntries, Validated.within_eq_valid] at h
  have hentries := Validated.forall₂_of_traverse (fun v _ => graphEntry_explained v) h
  refine List.forall₂_map_right_iff.2 (hentries.imp fun v e he => ?_)
  have hname := he
  rw [graphEntry, Validated.within_eq_valid, Validated.map_eq_valid] at hname
  obtain ⟨names, -, rfl⟩ := hname
  exact he

/-- However often a value or a source occurs among the entries, what is found is one of them. -/
theorem values_ofList_subset (entries : List (String × Source)) :
    (Table.ofList entries).values ⊆ entries.map (·.2) := by
  intro source hsource
  obtain ⟨graph, hgraph⟩ := Table.mem_values_iff.1 hsource
  exact List.mem_map_of_mem (Table.mem_of_find?_ofList hgraph)

theorem blueprint_yields (ds : List Definition) : (blueprint ds).Yields fun b =>
    Declares ds b.sources ∧ ∀ t ∈ b.types, t.NamesOnly b.sources := by
  unfold blueprint
  cases hvalues : graphValues ds with
  | none => exact nofun
  | some values =>
    refine .andThen fun entries hentries => .map ?_
    intro types htypes
    refine ⟨⟨values, hvalues, graphEntries_declares hentries⟩, ?_⟩
    refine Validated.Yields.traverse (fun e _ => ?_) types htypes
    exact typeDefinition_yields (values_ofList_subset entries) e.1 e.2

end Sdl

theorem Blueprint.parse_eq_ok {text : String} {b : Blueprint} : Blueprint.parse text = .ok b ↔
    ∃ ds, Sdl.parse text = .ok ds ∧ Sdl.blueprint ds = .valid b := by
  unfold Blueprint.parse
  cases Sdl.parse text with
  | error e => simp
  | ok ds => cases hb : Sdl.blueprint ds <;> simp [hb]

/-- A schema that was read from a document names no source in its declarations but those of the
document, so it is not refused for a source that is not declared. -/
theorem parse_names_sources {text : String} {b : Blueprint} (h : Blueprint.parse text = .ok b) :
    (∃ ds, Sdl.parse text = .ok ds ∧ Sdl.Declares ds b.sources) ∧
    (∀ t ∈ b.types, t.NamesOnly b.sources) ∧
    ∀ cause ∈ b.index.causes, ∀ source, cause.message ≠ .undeclaredSource source := by
  obtain ⟨ds, hds, hb⟩ := Blueprint.parse_eq_ok.1 h
  obtain ⟨hdeclares, hnames⟩ := Sdl.blueprint_yields ds b hb
  refine ⟨⟨ds, hds, hdeclares⟩, hnames, fun cause hcause source hsource => ?_⟩
  obtain ⟨hmissing, t, ht, hnamed⟩ := b.index_blames cause hcause source hsource
  obtain ⟨j, hj, rfl⟩ := List.mem_map.1 hnamed
  exact hmissing ((hnames t ht).joinTypes j hj)

/-! ### A mall whose graphs share a name and repeat -/

def mallText : String :=
  "enum join__Graph \x7b SHOP @join__graph(name: \"shop\") MALL @join__graph(name: \"shop\") " ++
    "STOCK SHOP @join__graph(name: \"stock\") \x7d " ++
    "type Query @join__type(graph: SHOP) @join__type(graph: MALL) \x7b " ++
    "part: Int @join__field(graph: STOCK) \x7d"

/-- Of the two values called `SHOP` the last one counts, and `STOCK` stands for itself. That it does
not declare the type of its field is another fault than being no source. -/
theorem parse_names_sources_mall : ∃ b, Blueprint.parse mallText = .ok b ∧
    b.sources = ["shop", "shop", "STOCK", "stock"] ∧
    b.types.map (·.sources) = [["stock", "shop"]] ∧
    b.index.causes.map (·.message) = [.foreignOwner "STOCK" "Query"] ∧
    (∀ t ∈ b.types, t.NamesOnly b.sources) ∧
    ∀ cause ∈ b.index.causes, ∀ source, cause.message ≠ .undeclaredSource source := by
  have hmall : (Blueprint.parse mallText).toOption.any (fun b =>
      b.sources = ["shop", "shop", "STOCK", "stock"] ∧
        b.types.map (·.sources) = [["stock", "shop"]] ∧
        b.index.causes.map (·.message) = [.foreignOwner "STOCK" "Query"]) = true := by
    decide +kernel
  obtain ⟨b, hb, hvalues⟩ := (Option.any_eq_true _ _).1 hmall
  obtain ⟨hsources, htypes, hmessages⟩ := of_decide_eq_true hvalues
  have hparse : Blueprint.parse mallText = .ok b := ok_of_toOption hb
  obtain ⟨-, hnames, hcauses⟩ := parse_names_sources hparse
  exact ⟨b, hparse, hsources, htypes, hmessages, hnames, hcauses⟩

end FederatedQuery
