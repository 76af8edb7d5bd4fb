import FederatedQuery.Number
import FederatedQuery.Table
import FederatedQuery.Text.Quoted

/-!
JSON values and the reading of records from them. The members of a record are read in the order
of their names, and the first problem ends the reading, wherever it is nested.
-/
namespace FederatedQuery

inductive Json where
  | null
  | boolean (value : Bool)
  | number (value : Number)
  | string (value : String)
  | array (items : List Json)
  | object (members : List (String × Json))
deriving Inhabited

inductive DecodeError where
  | wrongType (found : String) (wanted : String)
  | manyKeys
  | missingMember (name : String)
  | unknownVariant (name : String) (known : List String)
  | unitVariant
deriving DecidableEq

def DecodeError.message : DecodeError → String
  | wrongType found wanted => "invalid type: " ++ found ++ ", expected " ++ wanted
  | manyKeys => "invalid value: map, expected map with a single key"
  | missingMember name => "missing field `" ++ name ++ "`"
  | unknownVariant name known =>
    "unknown variant `" ++ name ++ "`, expected " ++
      String.intercalate " or " (known.map fun k => "`" ++ k ++ "`")
  | unitVariant => "invalid type: unit variant, expected struct variant"

namespace Json
variable {α : Type}

def shown : Json → String
  | null => "null"
  | boolean b => "boolean `" ++ (if b then "true" else "false") ++ "`"
  | number (.integer n) => "integer `" ++ (Number.integer n).text ++ "`"
  | number (.double x) => "floating point `" ++ x.text ++ "`"
  | string s => "string " ++ Text.messageQuoted s
  | array _ => "sequence"
  | object _ => "map"

def refuse (wanted : String) (j : Json) : Except DecodeError α := .error (.wrongType j.shown wanted)

def asString : Json → Except DecodeError String
  | string s => .ok s
  | j => j.refuse "a string"

def asBoolean : Json → Except DecodeError Bool
  | boolean b => .ok b
  | j => j.refuse "a boolean"

def asRecord (wanted : String) : Json → Except DecodeError (Table Json)
  | object members => .ok (Table.ofList members)
  | j => j.refuse wanted

def asList (item : Json → Except DecodeError α) : Json → Except DecodeError (List α)
  | array items => items.mapM item
  | j => j.refuse "a sequence"

def asOption (item : Json → Except DecodeError α) : Json → Except DecodeError (Option α)
  | null => .ok none
  | j => some <$> item j

def asTable (item : Json → Except DecodeError α) (j : Json) : Except DecodeError (Table α) := do
  let members ← j.asRecord "a map"
  Table.ofList <$> members.entries.mapM fun (name, j) => do pure (name, ← item j)

def ofOption (encode : α → Json) : Option α → Json
  | some a => encode a
  | none => null

def ofTable (encode : α → Json) (t : Table α) : Json :=
  object (t.entries.map fun (name, a) => (name, encode a))

def ofNat (n : Nat) : Json := number (.integer n)

end Json

def Table.member? {α : Type} (t : Table Json) (name : String) (item : Json → Except DecodeError α) :
    Except DecodeError (Option α) :=
  match t.find? name with
  | some j => some <$> item j
  | none => .ok none

def Json.required {α : Type} (name : String) : Option α → Except DecodeError α
  | some a => .ok a
  | none => .error (.missingMember name)

end FederatedQuery
