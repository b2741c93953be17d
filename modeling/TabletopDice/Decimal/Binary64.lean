/-!
# Binary fractions of 53 bits

A finite double is a sign and a magnitude, a whole number times a power of two.
Sums are taken over magnitudes without rounding, and the result is rounded once
to the nearest double, a tie to the even neighbour.
-/

namespace TabletopDice.Decimal.Binary64

structure Magnitude where
  mantissa : Nat
  exp : Int

namespace Magnitude

def zero : Magnitude := ⟨0, 0⟩

def aligned (a b : Magnitude) : Nat × Nat :=
  if a.exp ≤ b.exp then (a.mantissa, b.mantissa <<< (b.exp - a.exp).toNat)
  else (a.mantissa <<< (a.exp - b.exp).toNat, b.mantissa)

/-- Adds without rounding. A zero leaves the exponent of the other number alone. -/
def add (a b : Magnitude) : Magnitude :=
  if a.mantissa = 0 then b
  else if b.mantissa = 0 then a
  else
    let (m, n) := a.aligned b
    ⟨m + n, min a.exp b.exp⟩

def floor (m : Magnitude) : Nat :=
  if 0 ≤ m.exp then m.mantissa <<< m.exp.toNat else m.mantissa >>> (-m.exp).toNat

end Magnitude

def isNegative (x : Float) : Bool := x.toBits >>> 63 == 1

def magnitude? (x : Float) : Option Magnitude :=
  let field := (x.toBits >>> 52) % 2048
  let fraction := x.toBits % 0x10000000000000
  if field = 2047 then none
  else
    let mantissa := if field = 0 then fraction else fraction + 0x10000000000000
    some ⟨mantissa.toNat, ((max field 1).toNat : Int) - 1075⟩

/-- The quotient rounded to a whole number, a tie to the even neighbour. -/
def roundDiv (num den : Nat) : Nat :=
  let low := num / den
  let twice := 2 * (num % den)
  if twice < den || (twice = den && low % 2 = 0) then low else low + 1

/-- The nearest double, infinite from half a unit past the largest on. -/
def ofMagnitude (negative : Bool) (m : Magnitude) : Float :=
  let unit := max (m.exp + (Nat.log2 m.mantissa : Int) - 52) (-1074)
  let mantissa :=
    if unit ≤ m.exp then m.mantissa <<< (m.exp - unit).toNat
    else roundDiv m.mantissa (Nat.pow 2 (unit - m.exp).toNat)
  let bits := if mantissa < Nat.pow 2 52 then mantissa
    else (unit + 1075).toNat * Nat.pow 2 52 + (mantissa - Nat.pow 2 52)
  let sign := if negative then Nat.pow 2 63 else 0
  Float.ofBits (UInt64.ofNat (sign + min bits (2047 * Nat.pow 2 52)))

def ofInt (n : Int) : Float := ofMagnitude (n < 0) ⟨n.natAbs, 0⟩

def pow (x : Float) (n : Nat) : Float := x.pow (ofInt n)

def truncate? (x : Float) : Option Int :=
  (magnitude? x).map fun m => if isNegative x then -(m.floor : Int) else m.floor

structure Balance where
  gained : Magnitude := .zero
  owed : Magnitude := .zero

namespace Balance

def add? (b : Balance) (x : Float) : Option Balance :=
  (magnitude? x).map fun m =>
    if isNegative x then { b with owed := b.owed.add m } else { b with gained := b.gained.add m }

def settle (b : Balance) : Float :=
  let (m, n) := b.gained.aligned b.owed
  let exp := min b.gained.exp b.owed.exp
  if m < n then ofMagnitude true ⟨n - m, exp⟩ else ofMagnitude false ⟨m - n, exp⟩

end Balance

/-- The sum of all the numbers, rounded once at the end. A term that is not a number, or
infinities of both signs, leave none; an infinity stands for any sum that holds it. -/
def sum (xs : List Float) : Float :=
  match xs.foldlM Balance.add? {} with
  | some b => b.settle
  | none => xs.foldl (fun t x => if (magnitude? x).isSome then t else t + x) 0

/-! ## Sums on the way

A sum so far is held as parts, doubles whose digits do not overlap, the smallest first. Adding a
number rounds at every part and keeps what the rounding lost, so the parts stay exact; but a
rounded number may leave the range of doubles even where the sum itself does not.
-/

/-- Adds a number to each part in turn. The rounded sum goes on to the next part, and what it
lost takes the place of the part; the last rounded sum comes out beside the parts. -/
def carry (x : Float) : List Float → List Float × Float
  | [] => ([], x)
  | y :: parts =>
    let (large, small) := if x.abs < y.abs then (y, x) else (x, y)
    let rounded := large + small
    let lost := small - (rounded - large)
    let (rest, top) := carry rounded parts
    (if lost == 0 then rest else lost :: rest, top)

/-- Whether finite numbers, added to parts one after another, leave the range of doubles on the
way. A number that is not finite begins a new sum. -/
def overflowsFrom (parts : List Float) : List Float → Bool
  | [] => false
  | x :: xs =>
    let (rest, top) := carry x parts
    if top.isFinite then overflowsFrom (if top == 0 then rest else rest ++ [top]) xs
    else x.isFinite || overflowsFrom [] xs

def halfRange : Float := ofMagnitude false ⟨1, 1023⟩

/-- Whether numbers overflow as they are added up. None does when all together, signs aside,
stay within half the range. -/
def overflows (xs : List Float) : Bool :=
  !(xs.foldl (fun t x => t + x.abs) 0 < halfRange) && overflowsFrom [] xs

def infinity : Float := 1 / 0

def hasOpposed (xs : List Float) : Bool :=
  xs.any (· == infinity) && xs.any (· == -infinity)

/-! ## Signed numbers -/

structure Scaled where
  num : Int
  exp : Int

def scaled? (x : Float) : Option Scaled :=
  (magnitude? x).map fun m => ⟨if isNegative x then -(m.mantissa : Int) else m.mantissa, m.exp⟩

def Scaled.aligned (a b : Scaled) : Int × Int :=
  let least := min a.exp b.exp
  (a.num * Int.pow 2 (a.exp - least).toNat, b.num * Int.pow 2 (b.exp - least).toNat)

end TabletopDice.Decimal.Binary64
