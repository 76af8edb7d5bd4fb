/-!
Doubles as exact values: a sign, a significand below `2 ^ 53` and a power of two. All arithmetic is
on natural numbers, rounding to the nearest double and a half to the even one.
-/
namespace FederatedQuery

/-- `finite` stands for the value `± significand * 2 ^ exponent` with `-1074 ≤ exponent`, and a
significand of 53 bits unless the exponent is `-1074`. -/
inductive Binary64 where
  | finite (negative : Bool) (significand : Nat) (exponent : Int)
  | infinite (negative : Bool)
deriving DecidableEq

namespace Binary64

def zero (negative : Bool) : Binary64 := finite negative 0 (-1074)

def isZero : Binary64 → Bool
  | finite _ m _ => m == 0
  | infinite _ => false

def isFinite : Binary64 → Bool
  | finite .. => true
  | infinite _ => false

def roundQuotient (num den : Nat) : Nat :=
  let q := num / den
  let twice := 2 * (num % den)
  if twice < den then q else if den < twice then q + 1 else q + q % 2

def floorLog (num den : Nat) : Int :=
  let k : Int := (Nat.log2 num : Int) - Nat.log2 den
  let fits := if 0 ≤ k then decide (den * Nat.pow 2 k.toNat ≤ num)
    else decide (den ≤ num * Nat.pow 2 (-k).toNat)
  if fits then k else k - 1

def ofRatio (negative : Bool) (num den : Nat) : Binary64 :=
  if num = 0 then zero negative
  else
    let e := max (floorLog num den - 52) (-1074)
    let m :=
      if 0 ≤ e then roundQuotient num (den * Nat.pow 2 e.toNat)
      else roundQuotient (num * Nat.pow 2 (-e).toNat) den
    let (m, e) := if m = Nat.pow 2 53 then (Nat.pow 2 52, e + 1) else (m, e)
    if 971 < e then infinite negative else finite negative m e

def ofScaled (negative : Bool) (num den : Nat) (exponent : Int) : Binary64 :=
  if 0 ≤ exponent then ofRatio negative (num * Nat.pow 2 exponent.toNat) den
  else ofRatio negative num (den * Nat.pow 2 (-exponent).toNat)

def mul : Binary64 → Binary64 → Binary64
  | finite s m e, finite t n f => ofScaled (s != t) (m * n) 1 (e + f)
  | finite s .., infinite t | infinite s, finite t .. | infinite s, infinite t => infinite (s != t)

def div : Binary64 → Binary64 → Binary64
  | finite s m e, finite t n f => ofScaled (s != t) m n (e - f)
  | finite s .., infinite t => zero (s != t)
  | infinite s, finite t .. | infinite s, infinite t => infinite (s != t)

def tenPow (k : Nat) : Binary64 := ofRatio false (Nat.pow 10 k) 1

/-- A significand scaled by a power of ten: both are rounded to a double first, then their product
or quotient. Exponents under `-308` divide twice, and nothing is left under `-616`. -/
def ofDecimal (negative : Bool) (significand : Nat) (exponent : Int) : Binary64 :=
  let m := ofRatio negative significand 1
  if m.isZero then m
  else if 308 < exponent then infinite negative
  else if 0 ≤ exponent then m.mul (tenPow exponent.toNat)
  else if -308 ≤ exponent then m.div (tenPow (-exponent).toNat)
  else if -616 ≤ exponent then (m.div (tenPow 308)).div (tenPow (-exponent - 308).toNat)
  else zero negative

def canonical : Binary64 → Binary64
  | finite s m e => if m = 0 then zero false else finite s m e
  | infinite s => infinite s

end Binary64
end FederatedQuery
