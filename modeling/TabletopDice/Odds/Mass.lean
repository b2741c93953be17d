import TabletopDice.Decimal.Numeral
import TabletopDice.Decimal.Shortest

/-!
# Masses

The numbers that probabilities are made of. All odds are worked out over any
such numbers, in one order of additions and multiplications. Over doubles that
order decides how results round; over fractions the same definitions compute
without rounding.
-/

namespace TabletopDice

inductive TotalFault where
  /-- They leave the bounds of such numbers on the way. -/
  | overflow
  /-- Infinities of both signs are among them. -/
  | opposed
deriving DecidableEq, Repr

class Mass (α : Type) extends Zero α, One α, Add α, Sub α, Mul α, Div α, LE α, LT α, BEq α where
  decidableLE : DecidableLE α
  decidableLT : DecidableLT α
  pow : α → Nat → α
  /-- Whether a power leaves the bounds of such numbers; greater powers then do as well. -/
  powOverflows : α → Nat → Bool
  ofInt : Int → α
  /-- Whether a whole number is within the bounds of these numbers. -/
  holds : Int → Bool
  /-- `digits / 10 ^ places`. -/
  ofDecimal (digits places : Nat) : α
  /-- The sum of all the numbers, rounded at most once. -/
  total : List α → α
  /-- What keeps numbers from having a total; an overflow comes first. -/
  totalFault? : List α → Option TotalFault
  isFinite : α → Bool
  text : α → String
  /-- The text with a set number of digits after the point. -/
  fixed : Nat → α → String

namespace Mass

variable {α : Type} [Mass α]

instance : DecidableLE α := decidableLE
instance : DecidableLT α := decidableLT

def distance (p q : α) : α := if p ≤ q then q - p else p - q

def percent (places : Nat) (p : α) : String := fixed places (p * ofInt 100) ++ "%"

end Mass

instance : Mass Float where
  zero := 0
  one := 1
  decidableLE := inferInstance
  decidableLT := inferInstance
  pow := Decimal.Binary64.pow
  powOverflows x n := x.isFinite && !(Decimal.Binary64.pow x n).isFinite
  ofInt := Decimal.Binary64.ofInt
  holds n := (Decimal.Binary64.ofInt n).isFinite
  ofDecimal digits places := Float.ofScientific digits true places
  total := Decimal.Binary64.sum
  totalFault? ps :=
    if Decimal.Binary64.overflows ps then some .overflow
    else if Decimal.Binary64.hasOpposed ps then some .opposed
    else none
  isFinite := Float.isFinite
  text := Decimal.shortest
  fixed := Decimal.fixed

def fractionText (q : Rat) : String :=
  if q.den = 1 then Decimal.writeInt q.num
  else Decimal.writeInt q.num ++ "/" ++ Decimal.writeNat q.den

def fractionFixed (places : Nat) (q : Rat) : String :=
  (if q < 0 then "-" else "") ++
    Decimal.pointed places (Decimal.Binary64.roundDiv (q.num.natAbs * Nat.pow 10 places) q.den)

instance : Mass Rat where
  zero := 0
  one := 1
  decidableLE := inferInstance
  decidableLT := inferInstance
  pow := Rat.pow
  powOverflows _ _ := false
  ofInt n := n
  holds _ := true
  ofDecimal digits places := (digits : Rat) / Rat.pow 10 places
  total ps := ps.foldr (· + ·) 0
  totalFault? _ := none
  isFinite _ := true
  text := fractionText
  fixed := fractionFixed

end TabletopDice
