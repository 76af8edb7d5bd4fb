import FederatedQuery.Number.Shortest

/-!
Numbers as documents write them: whole numbers of 64 bits, and doubles for everything else.
-/
namespace FederatedQuery

inductive Number where
  | integer (value : Int)
  | double (value : Binary64)
deriving DecidableEq

structure Numeral where
  negative : Bool
  whole : List Char
  fraction : List Char
  exponent : Option (Bool × List Char)
deriving DecidableEq

namespace Numeral

def digit (c : Char) : Nat := c.toNat - '0'.toNat

def digitsValue (ds : List Char) : Nat := ds.foldl (fun n c => n * 10 + digit c) 0

def absorb (m : Nat) : List Char → Nat × List Char
  | [] => (m, [])
  | c :: rest => if m * 10 + digit c < Nat.pow 2 64 then absorb (m * 10 + digit c) rest else (m, c :: rest)

/-- The double of a decimal. The significand has at most 64 bits: whole digits beyond them count by
their place only, digits of the fraction not at all. -/
def toBinary64 (n : Numeral) : Binary64 :=
  let (m, overWhole) := absorb 0 n.whole
  let (m, overFraction) := absorb m n.fraction
  let shift : Int := overWhole.length - (n.fraction.length - overFraction.length : Nat)
  match n.exponent with
  | none => Binary64.ofDecimal n.negative m shift
  | some (true, ds) => Binary64.ofDecimal n.negative m (shift - digitsValue ds)
  | some (false, ds) => Binary64.ofDecimal n.negative m (shift + digitsValue ds)

/-- A decimal without fraction and exponent is a whole number if it is in the range of 64 bits,
signed or unsigned; minus zero is not. -/
def toNumber (n : Numeral) : Number :=
  let m := digitsValue n.whole
  if n.fraction.isEmpty && n.exponent.isNone &&
      (if n.negative then 0 < m && m ≤ Nat.pow 2 63 else m < Nat.pow 2 64) then
    .integer (if n.negative then -m else m)
  else .double n.toBinary64

end Numeral

namespace Number

def isFinite : Number → Bool
  | integer _ => true
  | double x => x.isFinite

def canonical : Number → Number
  | integer n => integer n
  | double x => double x.canonical

def text : Number → String
  | integer n => if n < 0 then "-" ++ String.ofList (Nat.toDigits 10 n.natAbs)
      else String.ofList (Nat.toDigits 10 n.natAbs)
  | double x => x.text

end Number
end FederatedQuery
