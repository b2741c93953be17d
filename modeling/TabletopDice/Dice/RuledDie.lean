import TabletopDice.Dice.Die
import TabletopDice.Notation.Spec
import TabletopDice.Roll.History

/-!
# Dice with rules

A die whose rolls may cause more rolls, and whose total may be mapped to a
game value. Of the rules that answer a roll the first one with uses left is
used. A subtracting rule answers the first roll only.
-/

namespace TabletopDice

structure RuledDie extends Die where
  rerolls : List RerollRule := []
  maps : List MapRule := []
deriving DecidableEq

def RerollRule.answers (rule : RerollRule) (face : Int) (isFirst : Bool) : Bool :=
  (rule.effect ≠ .subtract || isFirst) && rule.applies face

/-- The effect of the rule that answers a roll, and the uses left of every rule after it. -/
def useRule : List RerollRule → List Nat → (face : Int) → (isFirst : Bool) →
    Option (Effect × List Nat)
  | rule :: rules, uses :: left, face, isFirst =>
    if rule.answers face isFirst && 0 < uses then some (rule.effect, (uses - 1) :: left)
    else (useRule rules left face isFirst).map fun (effect, left) => (effect, uses :: left)
  | _, _, _, _ => none

namespace RuledDie

def uses (d : RuledDie) : List Nat := d.rerolls.map (·.limit)

/-- What the first rule that maps a total makes of it; an unmapped total counts as zero. -/
def mapTotal (d : RuledDie) (total : Int) : Mapped :=
  (d.maps.findSome? (·.map? total)).getD {}

/-- Rolls on for as long as a rule answers the last face; every roll takes one of the uses
left, so their sum is fuel enough. -/
def rollOn [Monad m] (draw : Nat → m Int) (d : RuledDie) :
    (fuel : Nat) → (left : List Nat) → (face : Int) → History → m History
  | 0, _, _, h => pure h
  | fuel + 1, left, face, h =>
    match useRule d.rerolls left face (h.steps.size = 1) with
    | none => pure h
    | some (effect, left) => do
      let face ← d.toDie.roll draw
      d.rollOn draw fuel left face (h.add face effect)

def finish (d : RuledDie) (h : History) : History :=
  if d.maps.isEmpty then h
  else h.map (d.mapTotal (h.total.getD 0))

def roll [Monad m] (draw : Nat → m Int) (d : RuledDie) : m History := do
  let face ← d.toDie.roll draw
  let h ← d.rollOn draw (d.uses.foldr (· + ·) 0) d.uses face (History.ofRoll face)
  return d.finish h

end RuledDie

namespace RerollSpec

def build (s : RerollSpec) : Except Fault RerollRule :=
  RerollRule.of (.compares s.comparison s.trigger) s.effect
    (s.limit.getD RerollRule.defaultLimit)

end RerollSpec

namespace MapSpec

def build (s : MapSpec) : MapRule where
  condition := .compares s.comparison s.trigger
  mapped := { value := s.value, label := s.label.getD "" }

end MapSpec

namespace RuledDie

def ofSpecs (sides : Int) (rerolls : List RerollSpec) (maps : List MapSpec)
    (impostor : Option Value := none) : Except Fault RuledDie := do
  let die ← Die.of sides impostor
  return { die with rerolls := ← rerolls.mapM RerollSpec.build, maps := maps.map MapSpec.build }

def ofValues (sides rerolls maps : Value) (impostor : Option Value := none) :
    Except Fault RuledDie := do
  let die ← Die.ofValue sides impostor
  let rerolls ← rulesOfValue .reroll RerollRule.ofValue rerolls
  let maps ← rulesOfValue .map MapRule.ofValue maps
  return { die with rerolls, maps }

/-- The die with rules that are read before the sides are, out of any values that hold some. -/
def ofRules (sides rerolls maps : Value) (impostor : Option Value := none) :
    Except Fault RuledDie := do
  let rerolls ← rulesOfItems RerollRule.ofValue rerolls
  let maps ← rulesOfItems MapRule.ofValue maps
  let die ← Die.ofValue sides impostor
  return { die with rerolls, maps }

end RuledDie

/-! ## Text -/

def Operator.described (o : Operator) : String :=
  "<Operator." ++ o.capitals ++ ": '" ++ o.symbol ++ "'>"

def Effect.described (e : Effect) : String :=
  "<Effect." ++ e.capitals ++ ": '" ++ e.name ++ "'>"

def Condition.described (c : Condition) : String :=
  "trigger_value=" ++ c.trigger.written ++ ", trigger_operator=" ++ c.operator.described

def RerollRule.described (r : RerollRule) : String :=
  "RerollRule(" ++ r.condition.described ++ ", effect=" ++ r.effect.described ++
    ", limit=" ++ Decimal.writeNat r.limit ++ ")"

def MapRule.described (r : MapRule) : String :=
  "MapRule(" ++ r.condition.described ++ ", mapped_value=" ++ Decimal.writeInt r.mapped.value ++
    ", mapped_label=" ++ Text.quoted r.mapped.label ++ ")"

/-- Several texts in parentheses; a comma follows one that is alone. -/
def inParentheses : List String → String
  | [s] => "(" ++ s ++ ",)"
  | ss => "(" ++ ", ".intercalate ss ++ ")"

def RuledDie.described (d : RuledDie) : String :=
  "ComplexDie(" ++ Decimal.writeNat d.sides ++
    ", rerolls=" ++ inParentheses (d.rerolls.map RerollRule.described) ++
    ", maps=" ++ inParentheses (d.maps.map MapRule.described) ++ ")"

end TabletopDice
