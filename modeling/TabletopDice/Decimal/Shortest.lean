import TabletopDice.Decimal.Places

/-!
# Shortest decimals

The text of a double has the fewest digits that read back as the same double,
and of those the digits nearest to its value.
-/

namespace TabletopDice.Decimal

open Binary64

structure Digits where
  digits : Nat
  exp : Int

/-- The numbers that round to one double: from `low` to `high` in units of `value`'s
denominator, the ends included when the mantissa is even. -/
structure Interval where
  low : Nat
  value : Nat
  high : Nat
  den : Nat
  closed : Bool

/-- The interval of a positive finite double, in quarters of its unit. A power of two lies
nearer to its lower neighbour. -/
def interval (s : Magnitude) : Interval :=
  let m := s.mantissa
  let below := if m = Nat.pow 2 52 && s.exp ≠ -1074 then 1 else 2
  let closed := m % 2 = 0
  if 2 ≤ s.exp then
    let unit := Nat.pow 2 (s.exp - 2).toNat
    ⟨(4 * m - below) * unit, 4 * m * unit, (4 * m + 2) * unit, 1, closed⟩
  else ⟨4 * m - below, 4 * m, 4 * m + 2, Nat.pow 2 (2 - s.exp).toNat, closed⟩

def Interval.contains (i : Interval) (num den : Nat) : Bool :=
  if i.closed then i.low * den ≤ num * i.den && num * i.den ≤ i.high * den
  else i.low * den < num * i.den && num * i.den < i.high * den

/-- The better of the value's two neighbours among the multiples of `10 ^ exp`, if one reads
back. -/
def Interval.onGrid? (i : Interval) (exp : Int) : Option Digits :=
  let (top, bottom) := inUnits exp i.value i.den
  let low := top / bottom
  let reads (n : Nat) : Bool :=
    if 0 ≤ exp then i.contains (n * Nat.pow 10 exp.toNat) 1
    else i.contains n (Nat.pow 10 (-exp).toNat)
  let near := roundDiv top bottom
  let far := if near = low then low + 1 else low
  if reads near then some ⟨near, exp⟩ else if reads far then some ⟨far, exp⟩ else none

def Interval.shortestFrom (i : Interval) (exp : Int) (count : Nat) : Nat → Digits
  | 0 => ⟨0, 0⟩
  | fuel + 1 =>
    match i.onGrid? (exp + 1 - count) with
    | some d => d
    | none => i.shortestFrom exp (count + 1) fuel

def shortestDigits (s : Magnitude) : Digits :=
  let i := interval s
  i.shortestFrom (magnitude i.value i.den) 1 17

/-- Where positional text ends: numbers below `10 ^ least` or from `10 ^ most` on are written
with an exponent. -/
structure PositionalRange where
  least : Int
  most : Int

def plainNumbers : PositionalRange := ⟨-4, 16⟩

def stripZeros : List Char → List Char :=
  fun ds => (ds.reverse.dropWhile (· == '0')).reverse

/-- Writes digits positionally, always with a point, or as one digit, the rest after a point
and an exponent. -/
def Digits.text (range : PositionalRange) (d : Digits) : String :=
  let all := (Nat.repr d.digits).toList
  let exp := d.exp + all.length - 1
  let digits := stripZeros all
  if range.least ≤ exp && exp < range.most then
    if exp < 0 then
      "0." ++ String.ofList (List.replicate (-exp - 1).toNat '0' ++ digits)
    else
      let whole := exp.toNat + 1
      let padded := digits ++ List.replicate (whole + 1 - digits.length) '0'
      String.ofList (padded.take whole) ++ "." ++ String.ofList (padded.drop whole)
  else
    let rest := digits.drop 1
    String.ofList (digits.take 1) ++
      (if rest.isEmpty then "" else "." ++ String.ofList rest) ++ exponentText exp

def shortest (x : Float) : String :=
  match magnitude? x with
  | none => unboundedText x
  | some s =>
    signText x ++ if s.mantissa = 0 then "0.0" else (shortestDigits s).text plainNumbers

end TabletopDice.Decimal
