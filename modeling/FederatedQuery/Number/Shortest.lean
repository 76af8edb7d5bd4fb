import FederatedQuery.Number.Binary64

/-!
The fewest decimal digits that read back as the same double, and the text made of them.
-/
namespace FederatedQuery.Binary64

structure Interval where
  low : Nat
  value : Nat
  high : Nat
  den : Nat
  closed : Bool

def interval (m : Nat) (e : Int) : Interval :=
  let narrow := m = Nat.pow 2 52 ∧ -1074 < e
  let up := Nat.pow 2 (e - 2).toNat
  ⟨(4 * m - if narrow then 1 else 2) * up, 4 * m * up, (4 * m + 2) * up,
    Nat.pow 2 (2 - e).toNat, m % 2 == 0⟩

def Interval.holds (i : Interval) (n : Nat) (p : Int) : Bool :=
  let x := n * i.den * Nat.pow 10 p.toNat
  let scale := Nat.pow 10 (-p).toNat
  if i.closed then i.low * scale ≤ x && x ≤ i.high * scale
  else i.low * scale < x && x < i.high * scale

/-- The neighbour of the value on the grid of step `10 ^ p` that rounds to the double, the nearer
one if both do. -/
def Interval.onGrid (i : Interval) (p : Int) : Option Nat :=
  let num := i.value * Nat.pow 10 (-p).toNat
  let den := i.den * Nat.pow 10 p.toNat
  let below := num / den
  match i.holds below p, i.holds (below + 1) p with
  | true, true => some (roundQuotient num den)
  | true, false => some below
  | false, true => some (below + 1)
  | false, false => none

def floorLogTen (num den : Nat) (top : Int) : Nat → Int
  | 0 => top
  | n + 1 =>
    if den * Nat.pow 10 top.toNat ≤ num * Nat.pow 10 (-top).toNat then top
    else floorLogTen num den (top - 1) n

def Interval.firstHit (i : Interval) (p : Int) : Nat → Nat × Int
  | 0 => ((i.onGrid p).getD 0, p)
  | n + 1 =>
    match i.onGrid p with
    | some d => (d, p)
    | none => i.firstHit (p - 1) n

/-- Shortest digits `d` and exponent `p` with `d * 10 ^ p` reading back as `m * 2 ^ e`. -/
def shortest (m : Nat) (e : Int) : Nat × Int :=
  let i := interval m e
  let top := ((Nat.log2 i.value : Int) - Nat.log2 i.den) * 3 / 10 + 2
  i.firstHit (floorLogTen i.value i.den top 40) 17

def trimZeros (digits : List Char) : List Char :=
  match (digits.reverse.dropWhile (· == '0')).reverse with
  | [] => ['0']
  | ds => ds

def positional (digits : List Char) (lead : Int) : List Char :=
  if 0 ≤ lead then
    let whole := digits.take (lead.toNat + 1)
    let fraction := digits.drop (lead.toNat + 1)
    whole ++ List.replicate (lead.toNat + 1 - whole.length) '0' ++ '.' ::
      (if fraction.isEmpty then ['0'] else fraction)
  else '0' :: '.' :: List.replicate (-lead - 1).toNat '0' ++ digits

def scientific (digits : List Char) (lead : Int) : List Char :=
  let sign := if lead < 0 then '-' else '+'
  digits.take 1 ++ (if digits.length ≤ 1 then [] else '.' :: digits.drop 1) ++
    'e' :: sign :: Nat.toDigits 10 lead.natAbs

def text : Binary64 → String
  | infinite s => if s then "-inf" else "inf"
  | finite s m e =>
    let sign := if s then ['-'] else []
    if m = 0 then String.ofList (sign ++ ['0', '.', '0'])
    else
      let (d, p) := shortest m e
      let all := Nat.toDigits 10 d
      let lead := p + all.length - 1
      let digits := trimZeros all
      String.ofList (sign ++
        if -5 ≤ lead ∧ lead ≤ 15 then positional digits lead else scientific digits lead)

end FederatedQuery.Binary64
