import FederatedQuery.Grammar.Executable
import FederatedQuery.Operation.Collect

/-!
Operations from the text of a document.
-/
namespace FederatedQuery

namespace Document

def select (d : Document) (name? : Option String) :
    Except InvalidQuery (Option String × OperationNode) :=
  match d.operations, name? with
  | .anonymous o, _ => pure (none, o)
  | .named operations, some name =>
    match operations.lookup name with
    | some o => pure (some name, o)
    | none => throw ⟨.unknownOperation name, []⟩
  | .named [(name, o)], none => pure (some name, o)
  | .named _, none => throw ⟨.operationNameNeeded, []⟩

def operation (d : Document) (name? : Option String) (x : SchemaIndex) :
    Except InvalidQuery Operation := do
  let (name?, o) ← d.select name?
  let some rootType := x.rootType o.kind | throw ⟨.noRoot o.kind, []⟩
  let definitions := o.definitions.map fun v => (⟨v.name, v.type.text⟩ : VariableDefinition)
  let selection ← Scope.collect ⟨x, d.fragments, definitions⟩ rootType [] [] o.selections []
  pure ⟨o.kind, name?, rootType, definitions, selection⟩

end Document

inductive QueryError where
  | parse (error : ParseError)
  | invalid (error : InvalidQuery)
deriving DecidableEq

def Operation.parse (text : String) (name? : Option String) (x : SchemaIndex) :
    Except QueryError Operation :=
  match Document.parse text with
  | .error e => .error (.parse e)
  | .ok d =>
    match d.operation name? x with
    | .error e => .error (.invalid e)
    | .ok o => .ok o

end FederatedQuery
