import FederatedQuery.Json

/-!
References to types: a name, or a list of another reference, each possibly refusing null.
-/
namespace FederatedQuery

inductive TypeRef where
  | named (name : String) (required : Bool)
  | list (of : TypeRef) (required : Bool)
deriving DecidableEq, Inhabited

namespace TypeRef

def name : TypeRef → String
  | named n _ => n
  | list t _ => t.name

def isList : TypeRef → Bool
  | named .. => false
  | list .. => true

def depth : TypeRef → Nat
  | named .. => 0
  | list t _ => t.depth + 1

def text : TypeRef → String
  | named n required => n ++ (if required then "!" else "")
  | list t required => "[" ++ t.text ++ "]" ++ (if required then "!" else "")

def toJson : TypeRef → Json
  | named n required =>
    .object [("Named", .object [("name", .string n), ("required", .boolean required)])]
  | list t required =>
    .object [("List", .object [("of_type", t.toJson), ("non_null", .boolean required)])]

def variantNames : List String := ["Named", "List"]

mutual
def ofJson : Json → Except DecodeError TypeRef
  | .string name =>
    .error (if name ∈ variantNames then .unitVariant else .unknownVariant name variantNames)
  | .object [(name, content)] => ofContent name content
  | .object _ => .error .manyKeys
  | j => j.refuse "string or map"

def ofContent (variantName : String) : Json → Except DecodeError TypeRef
  | .object members =>
    if variantName = "Named" then do
      let table := Table.ofList members
      let name ← table.member? "name" Json.asString
      let isRequired ← table.member? "required" Json.asBoolean
      pure (named (← Json.required "name" name) (← Json.required "required" isRequired))
    else if variantName = "List" then do
      let table := Table.ofList members
      let nonNull ← table.member? "non_null" Json.asBoolean
      let inner ← ofMember "of_type" members
      let inner ← Json.required "of_type" inner
      pure (list inner (← Json.required "non_null" nonNull))
    else .error (.unknownVariant variantName variantNames)
  | j => if variantName ∈ variantNames then j.refuse "struct variant"
    else .error (.unknownVariant variantName variantNames)

def ofMember (name : String) : List (String × Json) → Except DecodeError (Option TypeRef)
  | [] => .ok none
  | (n, j) :: rest =>
    if n = name ∧ ∀ m ∈ rest, m.1 ≠ name then some <$> ofJson j else ofMember name rest
end

end TypeRef
end FederatedQuery
