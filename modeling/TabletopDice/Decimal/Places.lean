import TabletopDice.Decimal.Binary64

/-!
# Decimals with a set number of places

A double is written from its exact binary value, so that a tie is a real tie;
it goes to the even digit.
-/

namespace TabletopDice.Decimal

open Binary64

def quotient? (x : Float) : Option (Nat × Nat) :=
  (magnitude? x).map fun m =>
    if 0 ≤ m.exp then (m.mantissa * Nat.pow 2 m.exp.toNat, 1)
    else (m.mantissa, Nat.pow 2 (-m.exp).toNat)

def signText (x : Float) : String := if isNegative x then "-" else ""

def unboundedText (x : Float) : String :=
  if x.isNaN then "nan" else signText x ++ "inf"

def padLeft (width : Nat) (fill : Char) (s : String) : String :=
  String.ofList (List.replicate (width - s.length) fill) ++ s

def pointed (places n : Nat) : String :=
  let digits := (padLeft (places + 1) '0' (Nat.repr n)).toList
  let whole := digits.length - places
  String.ofList (digits.take whole) ++
    if places = 0 then "" else "." ++ String.ofList (digits.drop whole)

def fixed (places : Nat) (x : Float) : String :=
  match quotient? x with
  | none => unboundedText x
  | some (num, den) => signText x ++ pointed places (roundDiv (num * Nat.pow 10 places) den)

/-- How often `num` must be multiplied by ten to reach `den`, up to `fuel` times. -/
def tensBelow (den : Nat) : Nat → Nat → Nat
  | 0, _ => 0
  | fuel + 1, num => if den ≤ num then 0 else tensBelow den fuel (10 * num) + 1

/-- The exponent `e` with `10 ^ e ≤ num / den < 10 ^ (e + 1)`, for a positive quotient. No
double needs more than 324 steps down. -/
def magnitude (num den : Nat) : Int :=
  if den ≤ num then (Nat.repr (num / den)).length - 1 else -(tensBelow den 400 num : Int)

/-- `num / den` in units of `10 ^ exp`, as a quotient of whole numbers. -/
def inUnits (exp : Int) (num den : Nat) : Nat × Nat :=
  if 0 ≤ exp then (num, den * Nat.pow 10 exp.toNat) else (num * Nat.pow 10 (-exp).toNat, den)

def exponentText (e : Int) : String :=
  (if e < 0 then "e-" else "e+") ++ padLeft 2 '0' (Nat.repr e.natAbs)

def scientific (places : Nat) (x : Float) : String :=
  match quotient? x with
  | none => unboundedText x
  | some (0, _) => signText x ++ pointed places 0 ++ exponentText 0
  | some (num, den) =>
    let exp := magnitude num den
    let (top, bottom) := inUnits (exp - places) num den
    let digits := roundDiv top bottom
    if digits < Nat.pow 10 (places + 1) then
      signText x ++ pointed places digits ++ exponentText exp
    else signText x ++ pointed places (digits / 10) ++ exponentText (exp + 1)

end TabletopDice.Decimal
