import FederatedQuery.Proofs.Validation.Promises
import FederatedQuery.SchemaIndex

/-!
What a schema is refused for. Whichever check finds a fault, a source is reported as undeclared only
where a type names it and the schema does not.
-/
namespace FederatedQuery

namespace SchemaFault

def Reports (P : Source → Prop) (fault : SchemaFault) : Prop :=
  ∀ source, fault = undeclaredSource source → P source

def IsOther (fault : SchemaFault) : Prop := ∀ source, fault ≠ undeclaredSource source

theorem blames_of_other {α : Type} {v : Validated SchemaFault α} {P : Source → Prop}
    (h : v.Blames IsOther) : v.Blames (Reports P) :=
  h.mono fun _ hother source hsource => absurd hsource (hother source)

end SchemaFault

/-! ### Checks of a type -/

theorem fieldSet_blames (fields : String) : (fieldSet fields).Blames SchemaFault.IsOther := by
  unfold fieldSet
  split
  · exact .fail nofun
  · exact .valid

namespace TypeDefinition
variable (t : TypeDefinition)

theorem checkField_blames {fault : String → SchemaFault}
    (hfault : ∀ name, (fault name).IsOther) (name : String) :
    (t.checkField fault name).Blames SchemaFault.IsOther := by
  unfold checkField
  split
  · exact .valid
  · exact .fail (hfault name)

theorem names_blames (fault : String → SchemaFault)
    (hfault : ∀ name, (fault name).IsOther) (fields : String) :
    ((fieldSet fields).andThen (Validated.traverse (t.checkField fault))).Blames
      SchemaFault.IsOther :=
  (fieldSet_blames fields).andThen fun _ => .traverse fun name _ => t.checkField_blames hfault name

theorem entityKeys_blames : t.entityKeys.Blames SchemaFault.IsOther := by
  refine .traverse fun e _ => ?_
  exact ((t.names_blames .unknownKeyField (fun _ => nofun) e.2).within e.1).map _

theorem entryPoints_blames (keys : List (Source × List String)) :
    (t.entryPoints keys).Blames SchemaFault.IsOther := by
  refine .map (.traverse fun ⟨j, key⟩ _ => ?_) _
  refine .map (.traverse fun field _ => .check fun _ => ?_) _
  exact nofun

theorem indexField_blames (f : FieldDefinition) :
    (t.indexField f).Blames SchemaFault.IsOther := by
  refine .within (.map (.zip (.zip (.traverse fun owner _ => .check fun _ => ?_)
    (.traverse fun e _ => ?_)) (.traverse fun e _ => ?_)) _) _
  · exact nofun
  · exact (t.names_blames (fun r => .unknownRequired r t.name) (fun _ => nofun) e.2).map _
  · exact (fieldSet_blames e.2).map _

/-- A type reports those of its sources that are none of the schema. -/
theorem index_blames (sources : List Source) : (t.index sources).Blames
    (SchemaFault.Reports fun source => source ∈ t.sources ∧ source ∉ sources) := by
  refine .andThen (.zip (.zip ?_ ?_) ?_) fun e => ?_
  · refine .traverse fun source hsource => .check fun hmissing other hother => ?_
    cases hother
    exact ⟨hsource, by simpa using hmissing⟩
  · exact SchemaFault.blames_of_other t.entityKeys_blames
  · exact SchemaFault.blames_of_other (.traverse fun f _ => (t.indexField_blames f).map _)
  · exact SchemaFault.blames_of_other ((t.entryPoints_blames e.1.2).map _)

end TypeDefinition

/-! ### Checks of the index -/

namespace SchemaIndex
variable (x : SchemaIndex)

theorem checkRoots_blames : x.checkRoots.Blames SchemaFault.IsOther := by
  refine .discard (.traverse fun root _ => .check fun _ => ?_)
  exact nofun

theorem checkProvides_blames : x.checkProvides.Blames SchemaFault.IsOther := by
  refine .discard (.traverse fun ⟨typeName, i⟩ _ => .within (.traverse fun ⟨fieldName, f⟩ _ => ?_) _)
  refine .within (.traverse fun p _ => .fail ?_) _
  exact nofun

theorem checkReached_blames (type : String) (sources : List Source) :
    (x.checkReached type sources).Blames SchemaFault.IsOther := by
  unfold checkReached
  cases x.types.find? type with
  | none => exact .valid
  | some i =>
    dsimp only
    split
    · exact .valid
    · refine .within (.fail ?_) type
      exact nofun

theorem checkReachability_blames : x.checkReachability.Blames SchemaFault.IsOther :=
  .discard (.traverse fun e _ => x.checkReached_blames e.1 e.2)

end SchemaIndex

theorem Blueprint.checkDuplicates_blames (b : Blueprint) :
    b.checkDuplicates.Blames SchemaFault.IsOther := by
  refine .discard (.traverse fun name _ => .fail ?_)
  exact nofun

/-- A source that is reported as undeclared is none of the schema, and a type names it. -/
theorem Blueprint.index_blames (b : Blueprint) : b.index.Blames
    (SchemaFault.Reports fun source => source ∉ b.sources ∧ ∃ t ∈ b.types, source ∈ t.sources) := by
  refine .andThen (.andThen ?_ fun _ => ?_) fun types => ?_
  · exact SchemaFault.blames_of_other b.checkDuplicates_blames
  · refine .traverse fun t ht => .within (.map ((t.index_blames b.sources).mono ?_) _) _
    intro fault hfault source hsource
    obtain ⟨hnamed, hmissing⟩ := hfault source hsource
    exact ⟨hmissing, t, ht, hnamed⟩
  · refine SchemaFault.blames_of_other (.andThen ?_ fun _ => ?_)
    · exact .zip (SchemaIndex.checkRoots_blames _) (SchemaIndex.checkProvides_blames _)
    · exact .map (SchemaIndex.checkReachability_blames _) _

end FederatedQuery
