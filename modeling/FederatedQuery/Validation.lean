/-!
Validation that keeps every failure. A refusal lists all causes found, each with the places it was
reported from; combining two refusals concatenates their causes.
-/
namespace FederatedQuery

/-- One reason for a refusal. `trace` names the places it was met at, outermost first. -/
structure Cause (ε : Type) where
  message : ε
  trace : List String := []
deriving DecidableEq

namespace Cause
variable {ε δ : Type}

def map (f : ε → δ) (c : Cause ε) : Cause δ := ⟨f c.message, c.trace⟩

def within (place : String) (c : Cause ε) : Cause ε := { c with trace := place :: c.trace }

def line (text : ε → String) (c : Cause ε) : String :=
  "• " ++ text c.message ++
    (if c.trace.isEmpty then "" else " [" ++ String.intercalate ", " c.trace ++ "]") ++ "\n"

def located (text : ε → String) (c : Cause ε) : String :=
  if c.trace.isEmpty then text c.message
  else String.intercalate "." c.trace ++ ": " ++ text c.message

def report (text : ε → String) (causes : List (Cause ε)) : String :=
  "Validation Error\n" ++ String.join (causes.map (line text))

end Cause

inductive Validated (ε α : Type) where
  | valid (value : α)
  | invalid (causes : List (Cause ε))
deriving DecidableEq

namespace Validated
variable {ε δ α β γ : Type}

instance : Inhabited (Validated ε α) := ⟨invalid []⟩

def fail (message : ε) : Validated ε α := invalid [⟨message, []⟩]

def ofOption (message : ε) : Option α → Validated ε α
  | some a => valid a
  | none => fail message

def check (condition : Bool) (message : ε) : Validated ε Unit :=
  if condition then valid () else fail message

def isValid : Validated ε α → Bool
  | valid _ => true
  | invalid _ => false

def value? : Validated ε α → Option α
  | valid a => some a
  | invalid _ => none

def causes : Validated ε α → List (Cause ε)
  | valid _ => []
  | invalid cs => cs

def map (f : α → β) : Validated ε α → Validated ε β
  | valid a => valid (f a)
  | invalid cs => invalid cs

def andThen (v : Validated ε α) (f : α → Validated ε β) : Validated ε β :=
  match v with
  | valid a => f a
  | invalid cs => invalid cs

def zip : Validated ε α → Validated ε β → Validated ε (α × β)
  | valid a, valid b => valid (a, b)
  | valid _, invalid ds => invalid ds
  | invalid cs, valid _ => invalid cs
  | invalid cs, invalid ds => invalid (cs ++ ds)

def mapError (f : ε → δ) : Validated ε α → Validated δ α
  | valid a => valid a
  | invalid cs => invalid (cs.map (Cause.map f))

def within (place : String) : Validated ε α → Validated ε α
  | valid a => valid a
  | invalid cs => invalid (cs.map (Cause.within place))

def discard (v : Validated ε α) : Validated ε Unit := v.map fun _ => ()

def all (outcomes : List (Validated ε α)) : Validated ε (List α) :=
  match outcomes.flatMap causes with
  | [] => valid (outcomes.filterMap value?)
  | c :: cs => invalid (c :: cs)

@[simp] theorem causes_all (outcomes : List (Validated ε α)) :
    (all outcomes).causes = outcomes.flatMap causes := by
  unfold all
  split <;> simp [causes, *]

theorem all_valid (as : List α) : all (as.map valid : List (Validated ε α)) = valid as := by
  have h : (as.map valid : List (Validated ε α)).flatMap causes = [] := by simp [causes]
  simp [all, h, value?, List.filterMap_map, Function.comp_def]

/-- Runs `f` on every item, whether or not an earlier one failed. -/
def traverse (f : α → Validated ε β) (items : List α) : Validated ε (List β) := all (items.map f)

end Validated

abbrev Pass (ε α : Type) := α → Validated ε α

namespace Pass
variable {ε δ α : Type}

def identity : Pass ε α := Validated.valid

def pipe (first second : Pass ε α) : Pass ε α := fun a => (first a).andThen second

def mapError (f : ε → δ) (step : Pass ε α) : Pass δ α := fun a => (step a).mapError f

def appendNew [DecidableEq α] (refusal : α → ε) (item : α) : Pass ε (List α) := fun items =>
  if item ∈ items then Validated.fail (refusal item) else Validated.valid (items ++ [item])

end Pass
end FederatedQuery
