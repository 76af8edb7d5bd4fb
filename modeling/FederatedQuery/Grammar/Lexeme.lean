import FederatedQuery.Grammar.Reader
import FederatedQuery.Number

/-!
Lexical grammar: what may be skipped, names, numerals and strings. Everything here is read without
skipping; the readers that skip first are `symbol` and `token`.
-/
namespace FederatedQuery.Grammar
open Reader

def isLineEnd (c : Char) : Bool := c = '\n' || c = '\r'

/-- Commas and the byte order mark count as white space. -/
def isSpace (c : Char) : Bool :=
  c = ' ' || c = ',' || c = '\t' || c = '\uFEFF' || isLineEnd c

mutual
def skipped : List Char → List Char
  | [] => []
  | c :: r => if isSpace c then skipped r else if c = '#' then skippedLine r else c :: r

def skippedLine : List Char → List Char
  | [] => []
  | c :: r => if isLineEnd c then skipped r else skippedLine r
end

def skip : Reader Unit := fun s => some ((), skipped s)

def token {α : Type} (r : Reader α) : Reader α := do
  skip
  r

def symbol (word : String) : Reader Unit := token (literal word)

def isLetter (c : Char) : Bool := ('a' ≤ c && c ≤ 'z') || ('A' ≤ c && c ≤ 'Z')

def isDigit (c : Char) : Bool := '0' ≤ c && c ≤ '9'

def isNameStart (c : Char) : Bool := isLetter c || c = '_'

def isNamePart (c : Char) : Bool := isNameStart c || isDigit c

def rawName : Reader String
  | [] => none
  | c :: r =>
    if isNameStart c then some (String.ofList (c :: r.takeWhile isNamePart), r.dropWhile isNamePart)
    else none

def name : Reader String := token rawName

/-! ### Numerals -/

def digits : Reader (List Char) := fun s =>
  match s.takeWhile isDigit with
  | [] => none
  | ds => some (ds, s.dropWhile isDigit)

def wholeDigits : Reader (List Char)
  | [] => none
  | c :: r =>
    if c = '0' then some (['0'], r)
    else if isDigit c then some (c :: r.takeWhile isDigit, r.dropWhile isDigit)
    else none

def fraction : Reader (List Char) := do
  literal "."
  digits

def exponent : Reader (Bool × List Char) := do
  let _ ← Reader.char fun c => c = 'e' || c = 'E'
  let sign ← maybe (Reader.char fun c => c = '+' || c = '-')
  return (sign == some '-', ← digits)

def numeral : Reader Numeral := do
  let negative ← maybe (literal "-")
  let whole ← wholeDigits
  let fraction ← maybe fraction
  let exponent ← maybe exponent
  if ← ahead (Reader.char isNameStart) then failure
  return ⟨negative.isSome, whole, fraction.getD [], exponent⟩

/-! ### Strings -/

def isHexDigit (c : Char) : Bool := isDigit c || ('a' ≤ c && c ≤ 'f') || ('A' ≤ c && c ≤ 'F')

def hexValue (c : Char) : Nat :=
  if isDigit c then c.toNat - '0'.toNat
  else if 'a' ≤ c then c.toNat - 'a'.toNat + 10
  else c.toNat - 'A'.toNat + 10

def escaped? (c : Char) : Option Char :=
  if c = '"' || c = '\\' || c = '/' then some c
  else if c = 'b' then some '\x08'
  else if c = 'f' then some '\x0c'
  else if c = 'n' then some '\n'
  else if c = 'r' then some '\r'
  else if c = 't' then some '\t'
  else none

def hexChar? (a b c d : Char) : Option Char :=
  if isHexDigit a && isHexDigit b && isHexDigit c && isHexDigit d then
    let n := ((hexValue a * 16 + hexValue b) * 16 + hexValue c) * 16 + hexValue d
    if 0xD800 ≤ n && n ≤ 0xDFFF then none else some (Char.ofNat n)
  else none

def lineString : List Char → Option (List Char × List Char)
  | '\\' :: 'u' :: a :: b :: c :: d :: r => do
    let x ← hexChar? a b c d
    let (xs, rest) ← lineString r
    return (x :: xs, rest)
  | '\\' :: e :: r => do
    let x ← escaped? e
    let (xs, rest) ← lineString r
    return (x :: xs, rest)
  | '"' :: r => some ([], r)
  | c :: r =>
    if c = '\\' || isLineEnd c then none
    else do
      let (xs, rest) ← lineString r
      return (c :: xs, rest)
  | [] => none

/-- The raw characters up to three quotes in a row; with a backslash in front those are text. -/
def blockChars : List Char → Option (List Char × List Char)
  | '\\' :: '"' :: '"' :: '"' :: r => do
    let (xs, rest) ← blockChars r
    return ('\\' :: '"' :: '"' :: '"' :: xs, rest)
  | '"' :: '"' :: '"' :: r => some ([], r)
  | c :: r => do
    let (xs, rest) ← blockChars r
    return (c :: xs, rest)
  | [] => none

def lines : List Char → List (List Char)
  | [] => [[]]
  | '\r' :: '\n' :: r => [] :: lines r
  | c :: r =>
    if isLineEnd c then [] :: lines r
    else match lines r with
      | [] => [[c]]
      | line :: rest => (c :: line) :: rest

def isIndent (c : Char) : Bool := c = ' ' || c = '\t'

def indentOf (line : List Char) : Nat := (line.takeWhile isIndent).length

def isBlankLine (line : List Char) : Bool := line.all isIndent

def commonIndent (lines : List (List Char)) : Nat :=
  ((lines.filter fun l => !isBlankLine l).map indentOf).min?.getD 0

def unindent (indent : Nat) (line : List Char) : List Char :=
  if indent ≤ line.length then line.drop indent else line

/-- The value of a block string: the common indent of all lines but the first goes away, and so do
blank lines at both ends. -/
def blockValue (raw : List Char) : String :=
  match lines raw with
  | [] => ""
  | first :: rest =>
    let all := first :: rest.map (unindent (commonIndent rest))
    let kept := ((all.dropWhile isBlankLine).reverse.dropWhile isBlankLine).reverse
    String.ofList (['\n'].intercalate kept)

def rawString : Reader String := fun s =>
  match s with
  | '"' :: '"' :: '"' :: r =>
    match blockChars r with
    | some (raw, rest) => some (blockValue raw, rest)
    | none => some ("", '"' :: r)
  | '"' :: r => (lineString r).map fun (cs, rest) => (String.ofList cs, rest)
  | _ => none

end FederatedQuery.Grammar
