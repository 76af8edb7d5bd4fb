import FederatedQuery.Blueprint
import FederatedQuery.Value

/-!
Executable documents: operations and fragments as written, before they meet a schema.
-/
namespace FederatedQuery

inductive ParseError where
  | malformed
  | multipleRoots (kind : OperationKind)
  | missingQueryRoot
  | multipleOperations
  | operationDuplicated (name : String)
  | fragmentDuplicated (name : String)
  | missingOperation
  | recursionLimitExceeded
deriving DecidableEq

def ParseError.message : ParseError → String
  | malformed => "malformed document"
  | multipleRoots k => "multiple " ++ k.text ++ " roots in schema definition"
  | missingQueryRoot => "schema definition is missing query root"
  | multipleOperations => "document contains multiple operations"
  | operationDuplicated name => "operation " ++ name ++ " is defined twice"
  | fragmentDuplicated name => "fragment " ++ name ++ " is defined twice"
  | missingOperation => "document does not contain an operation"
  | recursionLimitExceeded => "recursion limit exceeded."

structure Directive where
  name : String
  arguments : List Argument
deriving DecidableEq

def Directive.isFinite (d : Directive) : Bool := d.arguments.all fun a => a.value.isFinite

inductive Selection where
  | field (alias? : Option String) (name : String) (arguments : List Argument)
      (directives : List Directive) (selections : List Selection)
  | inline (condition? : Option String) (directives : List Directive) (selections : List Selection)
  | spread (fragment : String) (directives : List Directive)

structure VariableNode where
  name : String
  type : TypeRef
  constants : List Value
deriving DecidableEq

structure OperationNode where
  kind : OperationKind
  definitions : List VariableNode
  directives : List Directive
  selections : List Selection

structure FragmentNode where
  name : String
  condition : String
  directives : List Directive
  selections : List Selection

inductive OperationNodes where
  | anonymous (operation : OperationNode)
  | named (operations : List (String × OperationNode))

structure Document where
  operations : OperationNodes
  fragments : List FragmentNode

def nestingLimit : Nat := 64

mutual
/-- Refuses numbers out of range and selections with more levels than are left, whichever comes
first in the text. -/
def Selection.check (levels : Nat) : Selection → Except ParseError Unit
  | .field _ _ arguments directives selections => do
    unless arguments.all (fun a => a.value.isFinite) && directives.all Directive.isFinite do
      throw .malformed
    Selection.checkBelow levels selections
  | .inline _ directives selections => do
    unless directives.all Directive.isFinite do throw .malformed
    Selection.checkBelow levels selections
  | .spread _ directives => unless directives.all Directive.isFinite do throw .malformed

def Selection.checkBelow (levels : Nat) : List Selection → Except ParseError Unit
  | [] => pure ()
  | s :: rest =>
    match levels with
    | 0 => throw .recursionLimitExceeded
    | levels + 1 => do
      s.check levels
      Selection.checkList levels rest

def Selection.checkList (levels : Nat) : List Selection → Except ParseError Unit
  | [] => pure ()
  | s :: rest => do
    s.check levels
    Selection.checkList levels rest
end

def OperationNode.check (o : OperationNode) : Except ParseError Unit := do
  unless o.definitions.all (fun v => v.constants.all Value.isFinite) &&
      o.directives.all Directive.isFinite do
    throw .malformed
  Selection.checkList nestingLimit o.selections

def FragmentNode.check (f : FragmentNode) : Except ParseError Unit := do
  unless f.directives.all Directive.isFinite do throw .malformed
  Selection.checkList nestingLimit f.selections

inductive ExecutableNode where
  | operation (name? : Option String) (operation : OperationNode)
  | fragment (fragment : FragmentNode)

namespace ExecutableNode

def check : ExecutableNode → Except ParseError Unit
  | operation _ o => o.check
  | fragment f => f.check

end ExecutableNode

namespace Document

structure Seen where
  operations? : Option OperationNodes
  fragments : List FragmentNode

def Seen.addOperation (d : Seen) (o : OperationNode) :
    Option String → Except ParseError Seen
  | none =>
    match d.operations? with
    | some _ => throw .multipleOperations
    | none => pure { d with operations? := some (.anonymous o) }
  | some name =>
    match d.operations? with
    | some (.anonymous _) => throw .multipleOperations
    | some (.named operations) =>
      if operations.any (·.1 = name) then throw (.operationDuplicated name)
      else pure { d with operations? := some (.named (operations ++ [(name, o)])) }
    | none => pure { d with operations? := some (.named [(name, o)]) }

def Seen.add (d : Seen) : ExecutableNode → Except ParseError Seen
  | .operation name? o => d.addOperation o name?
  | .fragment f =>
    if d.fragments.any (·.name = f.name) then throw (.fragmentDuplicated f.name)
    else pure { d with fragments := d.fragments ++ [f] }

/-- The document of its definitions. Each is checked by itself before any two are compared. -/
def ofNodes (nodes : List ExecutableNode) : Except ParseError Document := do
  nodes.forM ExecutableNode.check
  let seen ← nodes.foldlM Seen.add ⟨none, []⟩
  match seen.operations? with
  | some operations => pure ⟨operations, seen.fragments⟩
  | none => throw .missingOperation

def fragment? (d : Document) (name : String) : Option FragmentNode :=
  d.fragments.find? (·.name = name)

end Document
end FederatedQuery
