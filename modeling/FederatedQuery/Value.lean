import FederatedQuery.Json

/-!
Argument values of query documents: their text, the variables in them, and when two are the same.
-/
namespace FederatedQuery

/-- An object lists its members in order. As written it may repeat a name; `merged` settles which
member counts. -/
inductive Value where
  | reference (name : String)
  | null
  | boolean (value : Bool)
  | number (value : Number)
  | string (value : String)
  | enumerant (name : String)
  | list (items : List Value)
  | object (members : List (String × Value))
deriving Inhabited

namespace Value

mutual
def decEq : (a b : Value) → Decidable (a = b)
  | reference a, b => match b with
    | reference b => decidable_of_iff (a = b) (by simp)
    | null | boolean _ | number _ | string _ | enumerant _ | list _ | object _ => isFalse nofun
  | null, b => match b with
    | null => isTrue rfl
    | reference _ | boolean _ | number _ | string _ | enumerant _ | list _ | object _ => isFalse nofun
  | boolean a, b => match b with
    | boolean b => decidable_of_iff (a = b) (by simp)
    | reference _ | null | number _ | string _ | enumerant _ | list _ | object _ => isFalse nofun
  | number a, b => match b with
    | number b => decidable_of_iff (a = b) (by simp)
    | reference _ | null | boolean _ | string _ | enumerant _ | list _ | object _ => isFalse nofun
  | string a, b => match b with
    | string b => decidable_of_iff (a = b) (by simp)
    | reference _ | null | boolean _ | number _ | enumerant _ | list _ | object _ => isFalse nofun
  | enumerant a, b => match b with
    | enumerant b => decidable_of_iff (a = b) (by simp)
    | reference _ | null | boolean _ | number _ | string _ | list _ | object _ => isFalse nofun
  | list as, b => match b with
    | list bs => have := decEqList as bs; decidable_of_iff (as = bs) (by simp)
    | reference _ | null | boolean _ | number _ | string _ | enumerant _ | object _ => isFalse nofun
  | object as, b => match b with
    | object bs => have := decEqMembers as bs; decidable_of_iff (as = bs) (by simp)
    | reference _ | null | boolean _ | number _ | string _ | enumerant _ | list _ => isFalse nofun

def decEqList : (as bs : List Value) → Decidable (as = bs)
  | [], [] => isTrue rfl
  | [], _ :: _ => isFalse nofun
  | _ :: _, [] => isFalse nofun
  | a :: as, b :: bs =>
    have := decEq a b
    have := decEqList as bs
    decidable_of_iff (a = b ∧ as = bs) (by simp)

def decEqMembers : (as bs : List (String × Value)) → Decidable (as = bs)
  | [], [] => isTrue rfl
  | [], _ :: _ => isFalse nofun
  | _ :: _, [] => isFalse nofun
  | (k, a) :: as, (l, b) :: bs =>
    have := decEq a b
    have := decEqMembers as bs
    decidable_of_iff (k = l ∧ a = b ∧ as = bs) (by simp [and_assoc])
end

instance : DecidableEq Value := decEq

def put (name : String) (v : Value) : List (String × Value) → List (String × Value)
  | [] => [(name, v)]
  | (n, w) :: rest => if n = name then (n, v) :: rest else (n, w) :: put name v rest

def ofMembers (members : List (String × Value)) : Value :=
  object (members.foldl (fun ms m => put m.1 m.2 ms) [])

mutual
/-- The value with every name of an object once: the last member of a name counts, at the place of
the first. -/
def merged : Value → Value
  | list items => list (mergedList items)
  | object members => ofMembers (mergedMembers members)
  | v@(reference _) | v@null | v@(boolean _) | v@(number _) | v@(string _) | v@(enumerant _) => v

def mergedList : List Value → List Value
  | [] => []
  | v :: rest => v.merged :: mergedList rest

def mergedMembers : List (String × Value) → List (String × Value)
  | [] => []
  | (name, v) :: rest => (name, v.merged) :: mergedMembers rest
end

mutual
def text : Value → String
  | reference name => "$" ++ name
  | null => "null"
  | boolean b => if b then "true" else "false"
  | number n => n.text
  | string s => Text.documentQuoted s
  | enumerant name => name
  | list items => "[" ++ String.intercalate ", " (texts items) ++ "]"
  | object members => "\x7b" ++ String.intercalate ", " (memberTexts members) ++ "\x7d"

def texts : List Value → List String
  | [] => []
  | v :: rest => v.text :: texts rest

def memberTexts : List (String × Value) → List String
  | [] => []
  | (name, v) :: rest => (name ++ ": " ++ v.text) :: memberTexts rest
end

mutual
def references : Value → List String
  | reference name => [name]
  | list items => referencesOfList items
  | object members => referencesOfMembers members
  | null | boolean _ | number _ | string _ | enumerant _ => []

def referencesOfList : List Value → List String
  | [] => []
  | v :: rest => v.references ++ referencesOfList rest

def referencesOfMembers : List (String × Value) → List String
  | [] => []
  | (_, v) :: rest => v.references ++ referencesOfMembers rest
end

mutual
/-- One form for all values that count as the same: object members by name, one zero. -/
def canonical : Value → Value
  | number n => number n.canonical
  | list items => list (canonicalList items)
  | object members => object (canonicalMembers members)
  | v@(reference _) | v@null | v@(boolean _) | v@(string _) | v@(enumerant _) => v

def canonicalList : List Value → List Value
  | [] => []
  | v :: rest => v.canonical :: canonicalList rest

def canonicalMembers : List (String × Value) → List (String × Value)
  | [] => []
  | (name, v) :: rest => Table.place name v.canonical (canonicalMembers rest)
end

mutual
def isFinite : Value → Bool
  | number n => n.isFinite
  | list items => isFiniteList items
  | object members => isFiniteMembers members
  | reference _ | null | boolean _ | string _ | enumerant _ => true

def isFiniteList : List Value → Bool
  | [] => true
  | v :: rest => v.isFinite && isFiniteList rest

def isFiniteMembers : List (String × Value) → Bool
  | [] => true
  | (_, v) :: rest => v.isFinite && isFiniteMembers rest
end

mutual
def toJson : Value → Json
  | reference name => .object [("$var", .string name)]
  | null => .null
  | boolean b => .boolean b
  | number n => .number n
  | string s => .string s
  | enumerant name => .string name
  | list items => .array (toJsonList items)
  | object members => .object (toJsonMembers members)

def toJsonList : List Value → List Json
  | [] => []
  | v :: rest => v.toJson :: toJsonList rest

def toJsonMembers : List (String × Value) → List (String × Json)
  | [] => []
  | (name, v) :: rest => (name, v.toJson) :: toJsonMembers rest
end

end Value

structure Argument where
  name : String
  value : Value
deriving DecidableEq

namespace Argument

def text (a : Argument) : String := a.name ++ ": " ++ a.value.text

def merged (a : Argument) : Argument := ⟨a.name, a.value.merged⟩

def canonical (a : Argument) : Argument := ⟨a.name, a.value.canonical⟩

def references (a : Argument) : List String := a.value.references

def toJson (a : Argument) : Json :=
  .object [("name", .string a.name), ("value", a.value.toJson)]

def sameList (as bs : List Argument) : Bool := as.map canonical = bs.map canonical

end Argument
end FederatedQuery
