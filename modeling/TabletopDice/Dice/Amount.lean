import TabletopDice.Dice

/-!
# Amounts

What loose multipliers make of whole results: a number that stays whole until a
fraction goes into it. From then on it is a double.
-/

namespace TabletopDice

inductive Amount where
  | whole (n : Int)
  | real (x : Float)

namespace Amount

def toReal : Amount → Except Fault Float
  | .whole n =>
    let x := Decimal.Binary64.ofInt n
    if x.isFinite then .ok x else .error (.range .tooLarge)
  | .real x => .ok x

def add (a b : Amount) : Except Fault Amount :=
  match a, b with
  | .whole m, .whole n => .ok (.whole (m + n))
  | a, b => do return .real ((← a.toReal) + (← b.toReal))

def isPositive : Amount → Bool
  | .whole n => 0 < n
  | .real x => 0 < x

def isNegative : Amount → Bool
  | .whole n => n < 0
  | .real x => x < 0

def text : Amount → Wording
  | .whole n => [.number n]
  | .real x => [.words (Decimal.shortest x)]

def summand : Amount → Summand
  | .whole n => Summand.ofInt n
  | .real x => ⟨x < 0, [.words (Decimal.shortest (if x < 0 then -x else x))]⟩

def repetitionBound : Int := Int.pow 2 63

/-- A whole result times a multiplier of any kind. Text and lists would be repeated, which gives
no amount. -/
def ofProduct (multiplier : Value) (result : Int) : Except Fault Amount :=
  match multiplier with
  | .whole m => .ok (.whole (m * result))
  | .truth b => .ok (.whole (if b then result else 0))
  | .real x => do return .real (x * (← (Amount.whole result).toReal))
  | .text _ | .list _ =>
    if -repetitionBound ≤ result ∧ result < repetitionBound then .error (.kind .unworded)
    else .error (.range .repetitions)
  | _ => .error (.kind .unworded)

def ofValue : Value → Except Fault Amount
  | .whole n => .ok (.whole n)
  | .truth b => .ok (.whole (if b then 1 else 0))
  | .real x => .ok (.real x)
  | _ => .error (.kind .unworded)

end Amount

end TabletopDice
