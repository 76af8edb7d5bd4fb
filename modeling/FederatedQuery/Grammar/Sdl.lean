import FederatedQuery.Grammar.Value
import FederatedQuery.Sdl

/-!
Grammar of schema documents. A reader of a part that a blueprint ignores yields its constant values.
-/
namespace FederatedQuery.Grammar
open Reader Sdl

def directiveValues (ds : List Directive) : List Value :=
  ds.flatMap fun d => d.arguments.map (·.value)

def constDirectives (bound : Nat) : Reader (List Directive) := directives true bound

def constDirectives1 (bound : Nat) : Reader (List Directive) := directives1 true bound

def description : Reader Unit := do
  let _ ← maybe (token rawString)

def inputValue (bound : Nat) : Reader (List Value) := do
  description
  let _ ← name
  symbol ":"
  let _ ← typeRef bound
  let default? ← maybe (defaultValue bound)
  return default?.toList ++ directiveValues (← constDirectives bound)

def argumentsDefinition (bound : Nat) : Reader (List Value) := do
  symbol "("
  let values ← many1 bound (inputValue bound)
  symbol ")"
  return values.flatten

def fieldNode (bound : Nat) : Reader (FieldNode × List Value) := do
  description
  let name ← name
  let values ← maybe (argumentsDefinition bound)
  symbol ":"
  let type ← typeRef bound
  let ds ← constDirectives bound
  return (⟨name, type, ds⟩, values.getD [] ++ directiveValues ds)

def fieldNodes (bound : Nat) : Reader (List FieldNode × List Value) := do
  symbol "\x7b"
  let fields ← many1 bound (fieldNode bound)
  symbol "\x7d"
  return (fields.map (·.1), fields.flatMap (·.2))

def namesBetween (bound : Nat) (sign : String) : Reader Unit := do
  let _ ← maybe (symbol sign)
  let _ ← name
  let _ ← many bound (do symbol sign; name)

def implementsList (bound : Nat) : Reader Unit := do
  symbol "implements"
  namesBetween bound "&"

def extensionBody {α : Type} (bound : Nat) (body : Reader α) :
    Reader (List Directive × Option α) :=
  (do
    let ds ← constDirectives bound
    return (ds, some (← body))) <|>
  (do return (← constDirectives1 bound, none))

def definitionBody {α : Type} (bound : Nat) (body : Reader α) :
    Reader (List Directive × Option α) := do
  let ds ← constDirectives bound
  return (ds, ← maybe body)

def definedOrExtended {α : Type} (keyword : String) (defined extended : Reader α) :
    Reader (String × α) :=
  (do
    description
    symbol keyword
    let name ← name
    return (name, ← defined)) <|>
  (do
    symbol "extend"
    symbol keyword
    let name ← name
    return (name, ← extended))

def typeDefinition (name : String) (kind : TypeKind) (ds : List Directive) (values : List Value) :
    Definition :=
  ⟨.type ⟨name, kind, ds⟩, directiveValues ds ++ values⟩

def scalarDefinition (bound : Nat) : Reader Definition := do
  let (name, ds) ← definedOrExtended "scalar" (constDirectives bound) (constDirectives1 bound)
  return typeDefinition name .other ds []

def objectDefinition (bound : Nat) : Reader Definition := do
  let (name, ds, fields) ← definedOrExtended "type"
    (do let _ ← maybe (implementsList bound); definitionBody bound (fieldNodes bound))
    ((do let _ ← maybe (implementsList bound); extensionBody bound (fieldNodes bound)) <|>
      (do implementsList bound; return ([], none)))
  let (fields, values) := fields.getD ([], [])
  return typeDefinition name (.object fields) ds values

def interfaceDefinition (bound : Nat) : Reader Definition := do
  let (name, ds, fields) ← definedOrExtended "interface"
    (do let _ ← maybe (implementsList bound); definitionBody bound (fieldNodes bound))
    (do let _ ← maybe (implementsList bound); extensionBody bound (fieldNodes bound))
  let (fields, values) := fields.getD ([], [])
  return typeDefinition name (.interface fields) ds values

def unionMembers (bound : Nat) : Reader Unit := do
  symbol "="
  namesBetween bound "|"

def unionDefinition (bound : Nat) : Reader Definition := do
  let (name, ds, _) ← definedOrExtended "union"
    (definitionBody bound (unionMembers bound)) (extensionBody bound (unionMembers bound))
  return typeDefinition name .other ds []

def enumValue (bound : Nat) : Reader EnumValueNode := do
  description
  let name ← token rawEnumerant
  return ⟨name, ← constDirectives bound⟩

def enumValues (bound : Nat) : Reader (List EnumValueNode) := do
  symbol "\x7b"
  let values ← many1 bound (enumValue bound)
  symbol "\x7d"
  return values

def enumDefinition (bound : Nat) : Reader Definition := do
  let (name, ds, values) ← definedOrExtended "enum"
    (definitionBody bound (enumValues bound)) (extensionBody bound (enumValues bound))
  let values := values.getD []
  return typeDefinition name (.enumeration values) ds
    (values.flatMap fun v => directiveValues v.directives)

def inputFields (bound : Nat) : Reader (List Value) := do
  symbol "\x7b"
  let values ← many1 bound (inputValue bound)
  symbol "\x7d"
  return values.flatten

def inputDefinition (bound : Nat) : Reader Definition := do
  let (name, ds, values) ← definedOrExtended "input"
    (definitionBody bound (inputFields bound)) (extensionBody bound (inputFields bound))
  return typeDefinition name .other ds (values.getD [])

def rootsBlock (bound : Nat) : Reader (List (OperationKind × String)) := do
  symbol "\x7b"
  let roots ← many1 bound (do
    let kind ← operationKind
    symbol ":"
    return (kind, ← name))
  symbol "\x7d"
  return roots

def schemaDefinition (bound : Nat) : Reader Definition :=
  (do
    symbol "schema"
    let ds ← constDirectives bound
    return ⟨.schema false (← rootsBlock bound), directiveValues ds⟩) <|>
  (do
    symbol "extend"
    symbol "schema"
    let (ds, roots) ← extensionBody bound (rootsBlock bound)
    return ⟨.schema true (roots.getD []), directiveValues ds⟩)

/-- Where a directive may stand; of two with a common front the longer comes first. -/
def directiveLocations : List String :=
  ["QUERY", "MUTATION", "SUBSCRIPTION", "FIELD_DEFINITION", "FIELD", "FRAGMENT_DEFINITION",
   "FRAGMENT_SPREAD", "INLINE_FRAGMENT", "VARIABLE_DEFINITION", "SCHEMA", "SCALAR", "OBJECT",
   "ARGUMENT_DEFINITION", "INTERFACE", "UNION", "ENUM_VALUE", "ENUM", "INPUT_OBJECT",
   "INPUT_FIELD_DEFINITION"]

def directiveLocation : Reader Unit :=
  directiveLocations.foldr (fun word other => symbol word <|> other) failure

def directiveDefinition (bound : Nat) : Reader Definition := do
  description
  symbol "directive"
  symbol "@"
  let _ ← name
  let values ← maybe (argumentsDefinition bound)
  let _ ← maybe (symbol "repeatable")
  symbol "on"
  let _ ← maybe (symbol "|")
  directiveLocation
  let _ ← many bound (do symbol "|"; directiveLocation)
  return ⟨.directive, values.getD []⟩

def definition (bound : Nat) : Reader Definition :=
  schemaDefinition bound <|> scalarDefinition bound <|> objectDefinition bound <|>
    interfaceDefinition bound <|> unionDefinition bound <|> enumDefinition bound <|>
    inputDefinition bound <|> directiveDefinition bound

def definitions (bound : Nat) : Reader (List Definition) := do
  let ds ← many1 bound (definition bound)
  skip
  return ds

end FederatedQuery.Grammar

namespace FederatedQuery.Sdl

def parse (text : String) : Except ParseError (List Definition) := do
  let s := text.toList
  match (Grammar.definitions s.length).all? s with
  | some ds =>
    ds.forM Definition.check
    pure ds
  | none => throw .malformed

end FederatedQuery.Sdl
