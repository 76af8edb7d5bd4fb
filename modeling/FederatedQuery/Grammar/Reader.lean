/-!
Readers of a text. A reader takes what it recognises from the front, or fails; a choice between
readers is settled by the first that succeeds, and a repetition goes on as long as it can.
-/
namespace FederatedQuery

abbrev Reader := StateT (List Char) Option

namespace Reader
variable {α : Type}

def after? : (word text : List Char) → Option (List Char)
  | [], text => some text
  | _ :: _, [] => none
  | c :: word, d :: text => if c = d then after? word text else none

@[simp] theorem after?_append (word rest : List Char) : after? word (word ++ rest) = some rest := by
  induction word with
  | nil => cases rest <;> rfl
  | cons c word ih => simp [after?, ih]

def literal (word : String) : Reader Unit := fun s => (after? word.toList s).map fun r => ((), r)

def char (p : Char → Bool) : Reader Char
  | [] => none
  | c :: r => if p c then some (c, r) else none

def maybe (r : Reader α) : Reader (Option α) := fun s =>
  match r s with
  | some (a, rest) => some (some a, rest)
  | none => some (none, s)

/-- Whether the reader would succeed here; nothing is taken. -/
def ahead (r : Reader α) : Reader Bool := fun s => some ((r s).isSome, s)

def manyFrom (r : Reader α) : Nat → List Char → List α × List Char
  | 0, s => ([], s)
  | n + 1, s =>
    match r s with
    | none => ([], s)
    | some (a, rest) => let (as, rest) := manyFrom r n rest; (a :: as, rest)

def many (bound : Nat) (r : Reader α) : Reader (List α) := fun s => some (manyFrom r bound s)

def many1 (bound : Nat) (r : Reader α) : Reader (List α) := do
  let a ← r
  return a :: (← many bound r)

def all? (r : Reader α) (s : List Char) : Option α :=
  match r s with
  | some (a, []) => some a
  | _ => none

end Reader
end FederatedQuery
