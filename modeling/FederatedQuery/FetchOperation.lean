import FederatedQuery.MergeSpec

/-!
The request that a fetch sends to its source.
-/
namespace FederatedQuery

structure FetchOperation where
  variableUsages : List String
  document : String
deriving DecidableEq

namespace FetchOperation

def representations : VariableDefinition := ⟨"representations", "[_Any!]!"⟩

/-- The variables that a document defines: the keys received, if it enters a type, and of those its
selection uses all that the operation has. -/
def definitions (o : Operation) (f : FetchFragment) (entryField : Option String) :
    List VariableDefinition :=
  (if entryField.isSome then [representations] else []) ++
    f.selection.usedVariables.filterMap o.declared?

def variableList (definitions : List VariableDefinition) : String :=
  if definitions.isEmpty then ""
  else "(" ++ String.intercalate ", " (definitions.map fun v => "$" ++ v.name ++ ": " ++ v.type) ++ ")"

def documentText (o : Operation) (f : FetchFragment) (entryField : Option String) : String :=
  let head := variableList (definitions o f entryField)
  match entryField with
  | none => o.kind.text ++ head ++ " " ++ f.selection.render (some f.onType)
  | some field =>
    "query" ++ head ++ " \x7b " ++ field ++ "(" ++ representations.name ++ ": $" ++
      representations.name ++ ") " ++ f.selection.render none ++ " \x7d"

def make (o : Operation) (f : FetchFragment) (m : MergeSpec) : FetchOperation :=
  ⟨f.selection.usedVariables, documentText o f m.entryField⟩

def toJson (f : FetchOperation) : Json :=
  .object [("variableUsages", .array (f.variableUsages.map .string)), ("document", .string f.document)]

end FetchOperation
end FederatedQuery
