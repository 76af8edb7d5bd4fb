import FederatedQuery.Grammar.Value

/-!
Grammar of executable documents.
-/
namespace FederatedQuery.Grammar
open Reader

/-- A type condition: white space, not a comment, sets the word apart from the name. -/
def rawCondition : Reader String := do
  literal "on"
  let _ ← Reader.char isSpace
  fun s => rawName (s.dropWhile isSpace)

def condition : Reader String := token rawCondition

mutual
def selectionSet : Nat → Reader (List Selection)
  | 0 => failure
  | bound + 1 => do
    symbol "\x7b"
    let selections ← many1 bound (selection bound)
    symbol "\x7d"
    return selections

def selection : Nat → Reader Selection
  | 0 => failure
  | bound + 1 =>
    (do
      let alias? ← maybe (do let a ← name; symbol ":"; return a)
      let name ← name
      let args ← maybe (arguments false bound)
      let ds ← directives false bound
      let selections ← maybe (selectionSet bound)
      return .field alias? name (args.getD []) ds (selections.getD [])) <|>
    (do
      symbol "..."
      let condition? ← maybe condition
      let ds ← directives false bound
      return .inline condition? ds (← selectionSet bound)) <|>
    (do
      symbol "..."
      if ← ahead condition then failure
      let name ← name
      return .spread name (← directives false bound))
end

def variableNode (bound : Nat) : Reader VariableNode := do
  symbol "$"
  let name ← name
  symbol ":"
  let type ← typeRef bound
  let ds ← directives false bound
  let default? ← maybe (defaultValue bound)
  return ⟨name, type, ds.flatMap (fun d => d.arguments.map (·.value)) ++ default?.toList⟩

def variableNodes (bound : Nat) : Reader (List VariableNode) := do
  symbol "("
  let nodes ← many bound (variableNode bound)
  symbol ")"
  return nodes

def operationNode (bound : Nat) : Reader ExecutableNode :=
  (do
    let kind ← operationKind
    let name? ← maybe name
    let definitions ← maybe (variableNodes bound)
    let ds ← directives false bound
    let selections ← selectionSet bound
    return .operation name? ⟨kind, definitions.getD [], ds, selections⟩) <|>
  (do return .operation none ⟨.query, [], [], ← selectionSet bound⟩)

def fragmentNode (bound : Nat) : Reader ExecutableNode := do
  symbol "fragment"
  let name ← name
  let condition ← condition
  let ds ← directives false bound
  return .fragment ⟨name, condition, ds, ← selectionSet bound⟩

def executableNodes (bound : Nat) : Reader (List ExecutableNode) := do
  let nodes ← many1 bound (operationNode bound <|> fragmentNode bound)
  skip
  return nodes

end FederatedQuery.Grammar

namespace FederatedQuery.Document

def parse (text : String) : Except ParseError Document :=
  let s := text.toList
  match (Grammar.executableNodes s.length).all? s with
  | some nodes => ofNodes nodes
  | none => throw .malformed

end FederatedQuery.Document
