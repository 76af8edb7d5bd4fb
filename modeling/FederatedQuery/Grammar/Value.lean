import FederatedQuery.Document
import FederatedQuery.Grammar.Lexeme

/-!
Grammar of values, types and directives, which both kinds of documents share. The argument `bound`
of a reader is at least the length of the text that is left.
-/
namespace FederatedQuery.Grammar
open Reader

def rawType : Nat → Reader TypeRef
  | 0 => failure
  | bound + 1 => do
    let type ← (do return Sum.inl (← rawName)) <|> do
      literal "["
      let inner ← rawType bound
      literal "]"
      return Sum.inr inner
    let required ← maybe (literal "!")
    return match type with
      | .inl name => .named name required.isSome
      | .inr inner => .list inner required.isSome

def typeRef (bound : Nat) : Reader TypeRef := token (rawType bound)

def rawEnumerant : Reader String := do
  if ← ahead (literal "true" <|> literal "false" <|> literal "null") then failure
  rawName

mutual
/-- A value; one that is constant holds no variables. -/
def value (constant : Bool) : Nat → Reader Value
  | 0 => failure
  | bound + 1 =>
    (do
      if constant then failure
      symbol "$"
      return .reference (← name)) <|>
    (do return .number (← token numeral).toNumber) <|>
    (do return .string (← token rawString)) <|>
    (do symbol "true"; return .boolean true) <|>
    (do symbol "false"; return .boolean false) <|>
    (do symbol "null"; return .null) <|>
    (do return .enumerant (← token rawEnumerant)) <|>
    (do
      symbol "["
      let items ← many bound (value constant bound)
      symbol "]"
      return .list items) <|>
    (do
      symbol "\x7b"
      let members ← many bound (member constant bound)
      symbol "\x7d"
      return .object members)

def member (constant : Bool) : Nat → Reader (String × Value)
  | 0 => failure
  | bound + 1 => do
    let name ← name
    symbol ":"
    return (name, ← value constant bound)
end

def argument (constant : Bool) (bound : Nat) : Reader Argument := do
  let name ← name
  symbol ":"
  return ⟨name, ← value constant bound⟩

def arguments (constant : Bool) (bound : Nat) : Reader (List Argument) := do
  symbol "("
  let args ← many1 bound (argument constant bound)
  symbol ")"
  return args

def directive (constant : Bool) (bound : Nat) : Reader Directive := do
  symbol "@"
  let name ← name
  let args ← maybe (arguments constant bound)
  return ⟨name, args.getD []⟩

def directives (constant : Bool) (bound : Nat) : Reader (List Directive) :=
  many bound (directive constant bound)

def directives1 (constant : Bool) (bound : Nat) : Reader (List Directive) :=
  many1 bound (directive constant bound)

def defaultValue (bound : Nat) : Reader Value := do
  symbol "="
  value true bound

def operationKind : Reader OperationKind :=
  (do symbol "query"; return .query) <|>
  (do symbol "mutation"; return .mutation) <|>
  (do symbol "subscription"; return .subscription)

end FederatedQuery.Grammar
