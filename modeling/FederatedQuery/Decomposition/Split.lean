import FederatedQuery.Decomposition.Hop

/-!
Decomposition of an operation. A field stays with the source of its parent where it can; the others
leave in groups, one for each source and type, and every group enters its source as a fragment of
its own. Fragments are numbered in the order in which they are entered, so a fragment comes after
all that it waits for.
-/
namespace FederatedQuery

structure Site where
  source : Source
  id : Nat
  path : ResponsePath

/-- Completes a field at a site: the field with what stays of its sub-selection, and the drafts of
the fragments entered below it, numbered from `next` on. -/
abbrev Completer := Site → (next : Nat) → Except PlanError (SelectionNode × List Draft)

abbrev Pending := SelectionNode × Completer

def completeAll (site : Site) : (next : Nat) → List Pending →
    Except PlanError (List SelectionNode × List Draft)
  | _, [] => .ok ([], [])
  | next, (_, complete) :: rest => do
    let (node, drafts) ← complete site next
    let (nodes, more) ← completeAll site (next + drafts.length) rest
    return (node :: nodes, drafts ++ more)

inductive Routed where
  | kept (node : SelectionNode)
  | leaving (source : Source) (field : Pending)

namespace Routed

def kept? : Routed → Option SelectionNode
  | kept n => some n
  | leaving .. => none

def leaving? : Routed → Option ((Source × String) × Pending)
  | kept _ => none
  | leaving source field => some ((source, field.1.onType), field)

end Routed

structure Entry where
  id : Nat
  parent : Nat
  fragment : FetchFragment
  inner : List Draft

namespace Entry

def size (e : Entry) : Nat := e.inner.length + 1

def drafts (e : Entry) : List Draft := ⟨e.fragment, [e.parent]⟩ :: e.inner

end Entry

structure Bridge where
  source : Source
  type : String
  fields : List Pending
  base : Source
  baseKeys : List String
  keys : List String

namespace Planner

def route (p : Planner) (site : Site) (provided : List String) : (next : Nat) → List Pending →
    Except PlanError (List Routed × List Draft)
  | _, [] => .ok ([], [])
  | next, (child, complete) :: rest => do
    if child.isTypename then
      let (routed, drafts) ← p.route site provided next rest
      return (.kept child :: routed, drafts)
    else
      let owner ← if provided.contains child.name then .ok site.source
        else p.index.chooseOwner child (some site.source) site.path
      if owner = site.source then
        let (node, drafts) ← complete site next
        let (routed, more) ← p.route site provided (next + drafts.length) rest
        return (.kept node :: routed, drafts ++ more)
      else
        let (routed, drafts) ← p.route site provided next rest
        return (.leaving owner (child, complete) :: routed, drafts)

def enter (site : Site) (parent : Nat) (source : Source) (type : String) (keys : List String)
    (fields : List Pending) (next : Nat) : Except PlanError Entry := do
  let (nodes, inner) ← completeAll ⟨source, next, site.path⟩ (next + 1) fields
  return ⟨next, parent, ⟨source, type, nodes, keys, site.path⟩, inner⟩

def enterDirect (p : Planner) (site : Site) : (next : Nat) →
    List ((Source × String) × List Pending) → Except PlanError (List Entry × List Bridge)
  | _, [] => .ok ([], [])
  | next, ((source, type), fields) :: rest =>
    match p.index.hop type site.source source (fields.map (·.1.name)) with
    | .error fault => .error (.ungroupable type site.source source fault site.path)
    | .ok (.direct keys) => do
      let entry ← enter site site.id source type keys fields next
      let (entries, bridges) ← p.enterDirect site (next + entry.size) rest
      return (entry :: entries, bridges)
    | .ok (.bridged base baseKeys keys) => do
      let (entries, bridges) ← p.enterDirect site next rest
      return (entries, ⟨source, type, fields, base, baseKeys, keys⟩ :: bridges)

/-- Enters the groups set aside, each from its base. A base entered before serves again; `entered`
are the fragments that may, by source and type. -/
def enterBridged (site : Site) (entered : List ((Source × String) × Nat)) : (next : Nat) →
    List Bridge → Except PlanError (List Entry)
  | _, [] => .ok []
  | next, b :: rest =>
    match entered.lookup (b.base, b.type) with
    | some base => do
      let entry ← enter site base b.source b.type b.keys b.fields next
      return entry :: (← enterBridged site entered (next + entry.size) rest)
    | none => do
      let base : Entry := ⟨next, site.id, ⟨b.base, b.type, [], b.baseKeys, site.path⟩, []⟩
      let entry ← enter site next b.source b.type b.keys b.fields (next + 1)
      return base :: entry ::
        (← enterBridged site (((b.base, b.type), next) :: entered) (next + 1 + entry.size) rest)

/-- The selection of fragment `id` at a site with the keys for all that is entered from it. A key
selected on `enclosing` will do; without it, on the type entered. -/
def carry (p : Planner) (place : List String) (entries : List Entry) (id : Nat)
    (enclosing? : Option String) (s : SelectionSet) : SelectionSet :=
  (entries.filter (·.parent = id)).foldl (fun s e =>
    p.injectKeys place e.fragment.onType (enclosing?.getD e.fragment.onType)
      e.fragment.requiredKeys s) s

def carryEntry (p : Planner) (place : List String) (entries : List Entry) (e : Entry) : Entry :=
  { e with fragment :=
      { e.fragment with selection := p.carry place entries e.id none e.fragment.selection } }

def split (p : Planner) (site : Site) (enclosing : String) (provided place : List String)
    (children : List Pending) (next : Nat) : Except PlanError (List SelectionNode × List Draft) := do
  let (routed, drafts) ← p.route site provided next children
  let (direct, bridges) ← p.enterDirect site (next + drafts.length)
    (gather (routed.filterMap Routed.leaving?))
  let bridged ← enterBridged site
    (direct.map fun e => ((e.fragment.source, e.fragment.onType), e.id))
    (direct.foldl (fun next e => next + e.size) (next + drafts.length)) bridges
  let entries := direct ++ bridged
  return (p.carry place entries site.id (some enclosing) (routed.filterMap Routed.kept?),
    drafts ++ (entries.map (p.carryEntry place entries)).flatMap Entry.drafts)

def placeOf : List SelectionNode → List String
  | [] => []
  | child :: _ => child.responsePath.dropLast

mutual
def complete (p : Planner) : SelectionNode → Completer
  | n@⟨_, _, _, _, onType, ofType, children, _⟩ => fun site next =>
    let definition? := p.index.field? onType n.name
    let path := site.path.field n.responseKey
    let path := if definition?.any (·.isList) then path.each else path
    if children.isEmpty then .ok (n, [])
    else do
      let provided := (definition?.map (·.providesIn site.source)).getD []
      let (kept, drafts) ← p.split { site with path := path } ofType provided (placeOf children)
        (p.completers children) next
      return ({ n with children := kept }, drafts)

def completers (p : Planner) : List SelectionNode → List Pending
  | [] => []
  | n :: rest => (n, p.complete n) :: p.completers rest
end

/-- Fills the root fragments. With `serial` each waits for the fragments of the run before it, which
start with number `previous?`. -/
def enterRoots (serial : Bool) (rootType : String) : (previous? : Option Nat) → (next : Nat) →
    List (Source × List Pending) → Except PlanError (List Draft)
  | _, _, [] => .ok []
  | previous?, next, (source, fields) :: rest => do
    let (nodes, inner) ← completeAll ⟨source, next, .root⟩ (next + 1) fields
    let parents := match serial, previous? with
      | true, some start => List.range' start (next - start)
      | _, _ => []
    let more ← enterRoots serial rootType (some next) (next + 1 + inner.length) rest
    return ⟨⟨source, rootType, nodes, [], .root⟩, parents⟩ :: inner ++ more

def ownRoots (p : Planner) : List Pending → Except PlanError (List (Source × Pending))
  | [] => .ok []
  | field :: rest => do
    if field.1.isTypename then p.ownRoots rest
    else
      let owner ← p.index.chooseOwner field.1 none .root
      return (owner, field) :: (← p.ownRoots rest)

/-- Splits an operation into fragments. Fields of a mutation keep their order, so only neighbours
share a fragment. -/
def decompose (p : Planner) (o : Operation) : Except PlanError Decomposition := do
  let owned ← p.ownRoots (p.completers o.selection)
  let serial := o.kind = .mutation
  let groups := if serial then runs owned else gather owned
  return .ofDrafts (← enterRoots serial o.rootType none 0 groups)

end Planner
end FederatedQuery
