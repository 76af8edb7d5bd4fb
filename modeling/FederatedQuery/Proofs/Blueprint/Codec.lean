import FederatedQuery.Blueprint.Codec
import FederatedQuery.Plan
import FederatedQuery.Proofs.Outcome
import FederatedQuery.Proofs.Table

/-!
The JSON form of a schema loses nothing: what is written is read back, at every member and at every
depth.
-/
namespace FederatedQuery

/-- Entries in the order of their keys are a table already. -/
theorem Table.ofList_of_ascends {α : Type} {entries : List (String × α)}
    (h : entries.Pairwise fun a b => a.1 < b.1) : ofList entries = ⟨entries, h⟩ := by
  have hnodup : (entries.map (·.1)).Nodup := by
    refine List.pairwise_map.2 (h.imp fun {a b} hlt heq => ?_)
    rw [heq] at hlt
    exact String.lt_irrefl _ hlt
  refine eq_of_find? fun key => ?_
  ext a
  have hfound := find?_ofList_map_of_nodup (f := (·.2)) hnodup (k := key) (a := a)
  simp only [List.map_id'] at hfound
  rw [hfound, find?, lookup_of_ascends h]
  constructor
  · rintro ⟨e, he, rfl, rfl⟩
    exact he
  · exact fun hmem => ⟨_, hmem, rfl, rfl⟩

def Restores {α β : Type} (read : β → Except DecodeError α) (write : α → β) : Prop :=
  ∀ a, read (write a) = .ok a

namespace Restores
variable {α β : Type}

theorem mapM {read : β → Except DecodeError α} {write : α → β} (h : Restores read write) :
    Restores (List.mapM read) (List.map write) := by
  intro as
  induction as with
  | nil => rfl
  | cons a as ih =>
    rw [List.map_cons, List.mapM_cons, h a, ih]
    rfl

variable {read : Json → Except DecodeError α} {write : α → Json}

theorem string : Restores Json.asString .string := fun _ => rfl

theorem boolean : Restores Json.asBoolean .boolean := fun _ => rfl

/-- Null is free to stand for an absent value. -/
theorem option (h : Restores read write) (hsome : ∀ a, write a ≠ .null) :
    Restores (Json.asOption read) (Json.ofOption write) := by
  intro a?
  cases a? with
  | none => rfl
  | some a =>
    have hread : Json.asOption read (write a) = some <$> read (write a) := by
      cases hwritten : write a with
      | null => exact absurd hwritten (hsome a)
      | _ => rfl
    rw [Json.ofOption, hread, h a]
    rfl

theorem optionalString : Restores (Json.asOption Json.asString) (Json.ofOption .string) :=
  string.option fun _ => Json.noConfusion

theorem optionalBoolean : Restores (Json.asOption Json.asBoolean) (Json.ofOption .boolean) :=
  boolean.option fun _ => Json.noConfusion

theorem list (h : Restores read write) :
    Restores (Json.asList read) fun as => .array (as.map write) :=
  h.mapM

theorem table (h : Restores read write) : Restores (Json.asTable read) (Json.ofTable write) := by
  intro t
  have hascends : (t.entries.map fun e => (e.1, write e.2)).Pairwise fun a b => a.1 < b.1 :=
    List.pairwise_map.2 t.ascends
  have hentry : Restores (fun e : String × Json => do pure (e.1, ← read e.2))
      fun e => (e.1, write e.2) := by
    intro e
    simp only [h e.2]
    rfl
  have hentries := hentry.mapM t.entries
  rw [Json.ofTable, Json.asTable, Json.asRecord, Table.ofList_of_ascends hascends, ok_bind,
    hentries]
  exact congrArg Except.ok (Table.ofList_of_ascends t.ascends)

/-- A member is read from the record that it was written to. -/
theorem member? (h : Restores read write) {members : List (String × Json)} {name : String} {a : α}
    (hlast : members.reverse.lookup name = some (write a)) :
    (Table.ofList members).member? name read = .ok (some a) := by
  rw [Table.member?, Table.find?_ofList, hlast]
  simp only [h a]
  rfl

end Restores

/-! ### Records

From the innermost one out, each with its members in the order of their names, as they are read. -/

section
open Restores

theorem TypeRef.restores : Restores TypeRef.ofJson TypeRef.toJson := by
  intro t
  induction t with
  | named n required =>
    rw [toJson, ofJson, ofContent, if_pos rfl]
    dsimp only
    rw [string.member? (a := n), ok_bind, boolean.member? (a := required), ok_bind]
    all_goals rfl
  | list t required ih =>
    have hinner : ofMember "of_type" [("of_type", t.toJson), ("non_null", .boolean required)] =
        .ok (some t) := by
      simp [ofMember, ih]
    rw [toJson, ofJson, ofContent, if_neg (by decide), if_pos rfl]
    dsimp only
    rw [boolean.member? (a := required), ok_bind, hinner, ok_bind]
    all_goals rfl

theorem JoinField.restores : Restores JoinField.ofJson JoinField.toJson := by
  intro f
  rw [toJson, ofJson, Json.asRecord, ok_bind,
    optionalBoolean.member? (a := f.external), ok_bind,
    optionalString.member? (a := f.graph), ok_bind,
    optionalString.member? (a := f.provides), ok_bind,
    optionalString.member? (a := f.requires), ok_bind]
  all_goals rfl

theorem JoinType.restores : Restores JoinType.ofJson JoinType.toJson := by
  intro t
  rw [toJson, ofJson, Json.asRecord, ok_bind,
    string.table.member? (a := t.arguments), ok_bind,
    optionalString.member? (a := t.entryField), ok_bind,
    string.member? (a := t.graph), ok_bind,
    optionalString.member? (a := t.key), ok_bind,
    boolean.member? (a := t.resolvable), ok_bind]
  all_goals rfl

theorem FieldDefinition.restores : Restores FieldDefinition.ofJson FieldDefinition.toJson := by
  intro f
  rw [toJson, ofJson, Json.asRecord, ok_bind,
    JoinField.restores.list.member? (a := f.joinFields), ok_bind,
    string.member? (a := f.name), ok_bind,
    TypeRef.restores.member? (a := f.type), ok_bind]
  all_goals rfl

theorem TypeDefinition.restores : Restores TypeDefinition.ofJson TypeDefinition.toJson := by
  intro t
  rw [toJson, ofJson, Json.asRecord, ok_bind,
    FieldDefinition.restores.list.member? (a := t.fields), ok_bind,
    JoinType.restores.list.member? (a := t.joinTypes), ok_bind,
    string.member? (a := t.name), ok_bind]
  all_goals rfl

theorem Blueprint.restores : Restores Blueprint.ofJson Blueprint.toJson := by
  intro b
  rw [toJson, ofJson, Json.asRecord, ok_bind,
    optionalString.member? (a := b.mutation), ok_bind,
    string.member? (a := b.query), ok_bind,
    string.list.member? (a := b.sources), ok_bind,
    optionalString.member? (a := b.subscription), ok_bind,
    TypeDefinition.restores.list.member? (a := b.types), ok_bind]
  all_goals rfl

end

def Blueprint.planQuery (b : Blueprint) (config : PlannerConfig) (text : String)
    (name? : Option String) : Validated SchemaFault (Except PlanError Plan) :=
  b.index.map fun x => Planner.planQuery ⟨x, config⟩ text name?

/-- A schema is read back from its JSON form, with the same index and the same plans. -/
theorem blueprint_restored (b : Blueprint) :
    Blueprint.ofJson b.toJson = .ok b ∧
    Blueprint.index <$> Blueprint.ofJson b.toJson = .ok b.index ∧
    ∀ (config : PlannerConfig) (text : String) (name? : Option String),
      (·.planQuery config text name?) <$> Blueprint.ofJson b.toJson =
        .ok (b.planQuery config text name?) := by
  have hb : Blueprint.ofJson b.toJson = .ok b := Blueprint.restores b
  rw [hb]
  exact ⟨rfl, rfl, fun _ _ _ => rfl⟩

end FederatedQuery
