import FederatedQuery.Plan.Text
import FederatedQuery.Validation

/-!
Execution trees: a plan as nested steps that run side by side or one after the other.
-/
namespace FederatedQuery

inductive StepKind where
  | parallel
  | sequence
deriving DecidableEq

def StepKind.text : StepKind → String
  | parallel => "Parallel"
  | sequence => "Sequence"

/-- `flatten` runs a tree for every place that a path leads to. -/
inductive ExecutionTree where
  | step (kind : StepKind) (items : List ExecutionTree)
  | fetch (node : Nat) (service : Source)
  | flatten (path : ResponsePath) (inner : ExecutionTree)
deriving Inhabited

structure EmptyStep where
  kind : StepKind
deriving DecidableEq

def EmptyStep.message (e : EmptyStep) : String := "Empty " ++ e.kind.text

namespace ExecutionTree

mutual
def fetches : ExecutionTree → List Nat
  | step _ items => fetchesOfList items
  | fetch node _ => [node]
  | flatten _ inner => inner.fetches

def fetchesOfList : List ExecutionTree → List Nat
  | [] => []
  | t :: rest => t.fetches ++ fetchesOfList rest
end

def indent (depth : Nat) : String := String.join (List.replicate depth "  ")

mutual
def textAt (depth : Nat) : ExecutionTree → String
  | step kind items => indent depth ++ kind.text ++ " \x7b\n" ++ itemsTextAt (depth + 1) items ++
      indent depth ++ "\x7d"
  | fetch node service => indent depth ++ "Fetch(" ++ service ++ "#" ++ idText node ++ ")"
  | flatten path inner => indent depth ++ "Flatten(" ++ path.text ++ ") \x7b\n" ++
      textAt (depth + 1) inner ++ "\n" ++ indent depth ++ "\x7d"

def itemsTextAt (depth : Nat) : List ExecutionTree → String
  | [] => ""
  | t :: rest => textAt depth t ++ ",\n" ++ itemsTextAt depth rest
end

def text (t : ExecutionTree) : String := textAt 0 t

mutual
def toJson : ExecutionTree → Json
  | step .parallel items => .object [("parallel", .array (toJsonList items))]
  | step .sequence items => .object [("sequence", .array (toJsonList items))]
  | fetch node service =>
    .object [("fetch", .object [("node", .ofNat node), ("service", .string service)])]
  | flatten path inner =>
    .object [("flatten", .object [("path", path.toJson), ("plan", inner.toJson)])]

def toJsonList : List ExecutionTree → List Json
  | [] => []
  | t :: rest => t.toJson :: toJsonList rest
end

def spliced (kind : StepKind) : ExecutionTree → List ExecutionTree
  | step k items => if k = kind then items else [step k items]
  | t => [t]

/-- A step of minified items: steps of the same kind are spliced into it, and a single item stands
for itself. -/
def join (kind : StepKind) (items : List ExecutionTree) : ExecutionTree :=
  match items.flatMap (spliced kind) with
  | [t] => t
  | flat => step kind flat

mutual
def minify : Pass EmptyStep ExecutionTree
  | step kind [] => .fail ⟨kind⟩
  | step kind (t :: rest) => (Validated.all (minify t :: minifyList rest)).map (join kind)
  | t@(fetch ..) => .valid t
  | flatten path inner => (minify inner).map (flatten path)

def minifyList : List ExecutionTree → List (Validated EmptyStep ExecutionTree)
  | [] => []
  | t :: rest => minify t :: minifyList rest
end

def ofNode (n : PlanNode) (m : MergeSpec) : ExecutionTree :=
  if m.attachPath.isRoot then fetch n.id n.source else flatten m.attachPath (fetch n.id n.source)

def ofId? (p : Plan) (id : Nat) : Option ExecutionTree :=
  (p.node? id).bind fun n => (p.mergeSpec? id).map (ofNode n)

def ofPlan (p : Plan) : Validated EmptyStep (Option ExecutionTree) :=
  if p.nodes.isEmpty then .valid none
  else
    (minify (step .sequence
      (p.waves.map fun wave => step .parallel (wave.filterMap (ofId? p))))).map some

end ExecutionTree
end FederatedQuery
