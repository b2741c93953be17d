import TabletopDice.Dice
import TabletopDice.Odds.Keep
import TabletopDice.Odds.Die

/-!
# Odds of dice

The distributions and the bounds of bunches and of whole dice, from those of
their parts.
-/

namespace TabletopDice

namespace Bunch

variable {α : Type} [Mass α]

def odds (b : Bunch) : Except Fault (Odds α) := do
  let single ← b.die.odds
  let distribution ← match b.keep with
    | none => single.distribution.repeatSum b.count
    | some k => single.distribution.keep b.count k.count k.mode
  return { single with distribution }

def isComplete (α : Type) [Mass α] (b : Bunch) : Except Fault Bool := do
  let single : Odds α ← b.die.odds
  return single.complete

def bounds (α : Type) [Mass α] (b : Bunch) : Except Fault (Int × Int) := do
  let (low, high) ← b.die.bounds α
  return (b.counted * low, b.counted * high)

end Bunch

namespace Dice

variable {α : Type} [Mass α]

def distribution (d : Dice) : Except Fault (Distribution α) := do
  let sum ← d.terms.foldlM (fun sum t => do
    let odds ← t.bunch.odds
    (Distribution.addScaled 1 sum t.multiplier odds.distribution).mapError .limit)
    Distribution.zero
  return sum.shift d.offset

/-- Whether the odds of all bunches are exact; none is looked at after one that is not. -/
def isComplete (α : Type) [Mass α] (d : Dice) : Except Fault Bool :=
  d.terms.allM fun t => t.bunch.isComplete α

/-- The bounds of one term; a factor that is not positive exchanges them. -/
def termBounds (α : Type) [Mass α] (t : Term) : Except Fault (Int × Int) := do
  let (low, high) ← t.bunch.bounds α
  return if 0 < t.multiplier then (t.multiplier * low, t.multiplier * high)
    else (t.multiplier * high, t.multiplier * low)

def sumBounds (offset : Int) (ends : List (Int × Int)) : Int × Int :=
  (offset + (ends.map (·.1)).foldr (· + ·) 0, offset + (ends.map (·.2)).foldr (· + ·) 0)

def bounds (α : Type) [Mass α] (d : Dice) : Except Fault (Int × Int) := do
  return sumBounds d.offset (← d.terms.mapM (termBounds α))

end Dice

end TabletopDice
