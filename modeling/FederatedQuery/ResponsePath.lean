import FederatedQuery.Json

/-!
Places inside a response: response keys from the root down, and a mark for every element of a list.
-/
namespace FederatedQuery

inductive Segment where
  | field (key : String)
  | each
deriving DecidableEq

namespace Segment

def text : Segment → String
  | field key => key
  | each => "@"

def key? : Segment → Option String
  | field key => some key
  | each => none

def compare : Segment → Segment → Ordering
  | field k, field l => Ord.compare k l
  | field _, each => .lt
  | each, field _ => .gt
  | each, each => .eq

end Segment

abbrev ResponsePath := List Segment

namespace ResponsePath

def root : ResponsePath := []

def isRoot (p : ResponsePath) : Bool := p.isEmpty

def field (p : ResponsePath) (key : String) : ResponsePath := p ++ [.field key]

def each (p : ResponsePath) : ResponsePath := p ++ [.each]

def ofKeys (keys : List String) : ResponsePath := keys.map .field

def keys (p : ResponsePath) : List String := p.filterMap Segment.key?

def below? : (top p : ResponsePath) → Option ResponsePath
  | [], p => some p
  | _ :: _, [] => none
  | s :: top, t :: p => if s = t then below? top p else none

@[simp] theorem below?_append (top p : ResponsePath) : below? top (top ++ p) = some p := by
  induction top with
  | nil => cases p <;> rfl
  | cons s top ih => simp [below?, ih]

def keysBelow? (p top : ResponsePath) : Option (List String) := (below? top p).map keys

def text (p : ResponsePath) : String := "[" ++ String.intercalate ", " (p.map Segment.text) ++ "]"

def compare : ResponsePath → ResponsePath → Ordering
  | [], [] => .eq
  | [], _ :: _ => .lt
  | _ :: _, [] => .gt
  | s :: p, t :: q => (s.compare t).then (compare p q)

def toJson (p : ResponsePath) : Json := .array (p.map fun s => .string s.text)

end ResponsePath
end FederatedQuery
