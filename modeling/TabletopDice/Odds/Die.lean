import TabletopDice.Odds.Chain
import TabletopDice.Odds.Distribution

/-!
# Odds of a die

The distribution of the value of one die with its rules, and the bounds of the
value. The bounds of odds that leave out rare outcomes are widened by what the
limits of the rules allow.
-/

namespace TabletopDice

/-- A distribution, and whether it is exact: some odds leave out rare outcomes. -/
structure Odds (α : Type) [Mass α] where
  distribution : Distribution α
  complete : Bool := true

namespace RuledDie

variable {α : Type} [Mass α]

def mapMasses (d : RuledDie) (totals : List (Int × α)) : List (Int × α) :=
  (Pool.ofEntries (totals.map fun e => ((d.mapTotal e.1).value, e.2))).entries

/-- The odds of the die. Chains of rolls divide masses by the number of faces, which has to be
within their bounds. -/
def odds (d : RuledDie) : Except Fault (Odds α) := do
  if d.rerolls.isEmpty then
    let fair ← Distribution.fair d.sides
    if d.maps.isEmpty then return { distribution := fair }
    return { distribution := ← Distribution.ofEntries (d.mapMasses fair.entries) }
  else if !Mass.holds α d.sides then .error (.range .tooLarge)
  else
    let chains := Chains.ofDie d
    let totals := chains.totals.entries
    let distribution ← Distribution.ofEntries
      (if d.maps.isEmpty then totals else d.mapMasses totals)
    return { distribution, complete := chains.complete }

/-! ## Bounds -/

def mapBounds (d : RuledDie) (totals : List Int) : Int × Int :=
  match totals.map fun total => (d.mapTotal total).value with
  | [] => (0, 0)
  | first :: more => Distribution.bounds first more

def triggerBounds? (d : RuledDie) (rule : RerollRule) : Option (Int × Int) :=
  match d.faces.filter rule.applies with
  | [] => none
  | first :: more => some (Distribution.bounds first more)

def mostAdded (d : RuledDie) (rule : RerollRule) : Int :=
  match rule.effect, d.triggerBounds? rule with
  | .add, some (_, highest) => highest * rule.limit
  | _, _ => 0

def leastSubtracted? (d : RuledDie) (rule : RerollRule) : Option Int :=
  match rule.effect, d.triggerBounds? rule with
  | .subtract, some (lowest, _) => some lowest
  | _, _ => none

/-- Loose bounds of long chains, from the limits of the rules: every adding rule adds its
highest face as often as it can, and a subtraction begins with the lowest face that calls for
one. -/
def chainBounds (d : RuledDie) : Int × Int :=
  let high := d.sides + (d.rerolls.map d.mostAdded).foldr (· + ·) (0 : Int)
  let low := match d.rerolls.filterMap d.leastSubtracted? with
    | [] => 1
    | first :: more => (Distribution.bounds first more).1 - high
  if d.maps.isEmpty then (low, high)
  else d.mapBounds ((List.range (high - low + 1).toNat).map fun (i : Nat) => low + i)

/-- The lowest and the highest result of the die. Without rerolls the faces alone tell,
however many there are. -/
def bounds (α : Type) [Mass α] (d : RuledDie) : Except Fault (Int × Int) := do
  if d.rerolls.isEmpty then
    return if d.maps.isEmpty then (d.lowest, d.highest) else d.mapBounds d.faces
  let odds : Odds α ← d.odds
  let (low, high) := (odds.distribution.low, odds.distribution.high)
  if odds.complete then return (low, high)
  let (least, most) := d.chainBounds
  return (min low least, max high most)

end RuledDie

end TabletopDice
