import TabletopDice.Rule.Reroll

/-!
# Map rules

A map rule turns the total of a die into a game value, such as a count of
successes, with a label for the explanation.
-/

namespace TabletopDice

structure Mapped where
  value : Int := 0
  label : String := ""
deriving DecidableEq, Repr

structure MapRule where
  condition : Condition
  mapped : Mapped
deriving DecidableEq

namespace MapRule

def map? (rule : MapRule) (total : Int) : Option Mapped :=
  if rule.condition.holds total then some rule.mapped else none

/-- Reads the parts of a rule, the first fault in their order first. -/
def ofParts (trigger operator value label : Value) : Except Fault MapRule := do
  let condition ← Condition.ofValues trigger operator
  let value ← value.readWhole .mappedValue
  return { condition, mapped := { value, label := if label.isGiven then label.shown else "" } }

/-- Reads a rule given as a list of two to four parts; the value is zero unless given. -/
def ofValue : Value → Except Fault MapRule
  | .list [trigger, operator] => ofParts trigger operator (.whole 0) (.text "")
  | .list [trigger, operator, value] => ofParts trigger operator value (.text "")
  | .list [trigger, operator, value, label] => ofParts trigger operator value label
  | .list _ => .error (.kind .unworded)
  | v => .error (.kind (.notRule .map v))

end MapRule

end TabletopDice
