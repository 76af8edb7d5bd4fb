import FederatedQuery.Operation

/-!
Decompositions of an operation: fragments that one source each can resolve, and which fragment
hands its keys to which.
-/
namespace FederatedQuery

structure FetchFragment where
  source : Source
  onType : String
  selection : SelectionSet
  /-- Fields that the fragment receives; none at the root. -/
  requiredKeys : List String
  providedPath : ResponsePath

/-- The child runs after the parent has produced the keys. Without keys the order is all. -/
structure Dependency where
  parent : Nat
  child : Nat
  keys : List String
deriving DecidableEq

structure Decomposition where
  fragments : List FetchFragment
  dependencies : List Dependency

namespace FetchFragment

def isRoot (f : FetchFragment) : Bool := f.requiredKeys.isEmpty

def toJson (f : FetchFragment) : Json :=
  .object [("source", .string f.source), ("onType", .string f.onType),
    ("selection", f.selection.toJson), ("requiredKeys", .array (f.requiredKeys.map .string)),
    ("providedPath", f.providedPath.toJson)]

end FetchFragment

def Dependency.toJson (d : Dependency) : Json :=
  .object [("parent", .ofNat d.parent), ("child", .ofNat d.child),
    ("keys", .array (d.keys.map .string))]

def Decomposition.parentsOf (d : Decomposition) (child : Nat) : List Dependency :=
  d.dependencies.filter (·.child = child)

/-- A fragment with the fragments that it waits for; one that receives keys has them from each. -/
structure Draft where
  fragment : FetchFragment
  parents : List Nat

def Decomposition.ofDrafts (drafts : List Draft) : Decomposition :=
  ⟨drafts.map (·.fragment), drafts.zipIdx.flatMap fun (d, id) =>
    d.parents.map fun parent => ⟨parent, id, d.fragment.requiredKeys⟩⟩

end FederatedQuery
