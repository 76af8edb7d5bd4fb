import FederatedQuery.Blueprint
import FederatedQuery.Grouping
import FederatedQuery.Value

/-!
Selections: the fields asked of a type, each with its own sub-selection.
-/
namespace FederatedQuery

/-- A selected field. `responsePath` are the response keys from the operation root down to it,
`onType` is the type it is selected on and `ofType` the named type it returns. A hidden field was
added to carry keys and is no part of the answer. -/
structure SelectionNode where
  name : String
  alias? : Option String
  arguments : List Argument
  responsePath : List String
  onType : String
  ofType : String
  children : List SelectionNode
  isHidden : Bool
deriving Inhabited

abbrev SelectionSet := List SelectionNode

namespace SelectionNode

def plain (name onType ofType : String) : SelectionNode :=
  ⟨name, none, [], [name], onType, ofType, [], false⟩

def responseKey (n : SelectionNode) : String := n.alias?.getD n.name

def isTypename (n : SelectionNode) : Bool := n.name = typenameField

def headText (n : SelectionNode) : String :=
  (match n.alias? with | some a => a ++ ": " | none => "") ++ n.name ++
    if n.arguments.isEmpty then ""
    else "(" ++ String.intercalate ", " (n.arguments.map Argument.text) ++ ")"

end SelectionNode

namespace SelectionSet

/-- A selection from the texts of its fields: those on the enclosing type stand by themselves, the
others follow in one inline fragment for each type. -/
def assemble (enclosing : Option String) (texts : List (String × String)) : String :=
  let own := (texts.filter fun t => some t.1 = enclosing).map (·.2)
  let others := gather (texts.filter fun t => some t.1 ≠ enclosing)
  let parts := own ++ others.map fun (type, inner) =>
    "... on " ++ type ++ " \x7b " ++ String.intercalate " " inner ++ " \x7d"
  if parts.isEmpty then "\x7b\x7d" else "\x7b " ++ String.intercalate " " parts ++ " \x7d"

end SelectionSet

namespace SelectionNode

mutual
def text : SelectionNode → String
  | n@⟨_, _, _, _, _, ofType, children, _⟩ =>
    n.headText ++
      if children.isEmpty then "" else " " ++ SelectionSet.assemble (some ofType) (texts children)

def texts : List SelectionNode → List (String × String)
  | [] => []
  | n :: rest => (n.onType, n.text) :: texts rest
end

mutual
def references : SelectionNode → List String
  | ⟨_, _, arguments, _, _, _, children, _⟩ =>
    arguments.flatMap Argument.references ++ addReferences [] children

def addReferences (listed : List String) : List SelectionNode → List String
  | [] => listed
  | n :: rest => addReferences (addNew listed n.references) rest
end

mutual
def toJson : SelectionNode → Json
  | ⟨name, alias?, arguments, responsePath, onType, ofType, children, isHidden⟩ =>
    .object ([("name", .string name)] ++ (alias?.map fun a => ("alias", Json.string a)).toList ++
      (if arguments.isEmpty then [] else [("arguments", .array (arguments.map Argument.toJson))]) ++
      [("responsePath", .array (responsePath.map .string)), ("onType", .string onType),
       ("ofType", .string ofType), ("children", .array (toJsonList children))] ++
      if isHidden then [("isHidden", .boolean true)] else [])

def toJsonList : List SelectionNode → List Json
  | [] => []
  | n :: rest => n.toJson :: toJsonList rest
end

end SelectionNode

namespace SelectionSet

def render (enclosing : Option String) (s : SelectionSet) : String :=
  assemble enclosing (SelectionNode.texts s)

def text (s : SelectionSet) : String := s.render (s.head?.map (·.onType))

def usedVariables (s : SelectionSet) : List String := SelectionNode.addReferences [] s

def find? (s : SelectionSet) (key : String) : Option SelectionNode :=
  List.find? (·.responseKey = key) s

def findPath? (s : SelectionSet) : List String → Option SelectionSet
  | [] => some s
  | key :: rest => (s.find? key).bind fun n => findPath? n.children rest

def toJson (s : SelectionSet) : Json := .array (SelectionNode.toJsonList s)

end SelectionSet
end FederatedQuery
