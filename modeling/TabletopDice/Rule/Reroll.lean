import TabletopDice.Fault
import TabletopDice.Rule.Effect

/-!
# Reroll rules

A reroll rule watches the last roll of a die. When its condition holds of the
roll the die is rolled again, and the effect joins the new roll to the total,
up to a limited number of uses. A subtracting rule is used at most once.
-/

namespace TabletopDice

@[ext]
structure RerollRule where
  condition : Condition
  effect : Effect
  limit : Nat
  not_basic : effect ≠ .basic
  limit_pos : 0 < limit
  subtract_once : effect = .subtract → limit = 1

instance : DecidableEq RerollRule := fun _ _ => decidable_of_iff _ RerollRule.ext_iff.symm

namespace RerollRule

/-- The uses of a rule that names no limit of its own, more than any game at a table asks
for. -/
def defaultLimit : Nat := 1000

def applies (rule : RerollRule) (face : Int) : Bool :=
  rule.condition.holds face

def checkEffect (effect : Effect) : Except Fault {e : Effect // e ≠ .basic} :=
  if h : effect = .basic then .error (.build .basicReroll) else .ok ⟨effect, h⟩

def checkLimit (limit : Int) : Except Fault {n : Nat // 0 < n} :=
  if h : 0 < limit.toNat then .ok ⟨limit.toNat, h⟩ else .error (.build (.limitTooLow limit))

/-- The rule with checked parts; a subtracting rule gets the limit one. -/
def ofChecked (condition : Condition) (effect : {e : Effect // e ≠ .basic})
    (limit : {n : Nat // 0 < n}) : RerollRule :=
  if h : effect.1 = .subtract then
    { condition, effect := effect.1, limit := 1, not_basic := effect.2
      limit_pos := Nat.one_pos, subtract_once := fun _ => rfl }
  else
    { condition, effect := effect.1, limit := limit.1, not_basic := effect.2
      limit_pos := limit.2, subtract_once := fun e => absurd e h }

def of (condition : Condition) (effect : Effect) (limit : Int) : Except Fault RerollRule := do
  let effect ← checkEffect effect
  let limit ← checkLimit limit
  return ofChecked condition effect limit

end RerollRule

def Condition.ofValues (trigger operator : Value) : Except Fault Condition :=
  match Operator.ofValue? operator with
  | none => .error (.build (.unknownOperator operator))
  | some o =>
    match Condition.of? o trigger with
    | some c => .ok c
    | none => .error (.build (.triggerMismatch trigger o))

def Effect.ofValue (v : Value) : Except Fault Effect :=
  match Effect.ofValue? v with
  | some e => .ok e
  | none => .error (.build (.unknownEffect v))

def KeepMode.ofValue (v : Value) : Except Fault KeepMode :=
  match KeepMode.ofValue? v with
  | some mode => .ok mode
  | none => .error (.build (.unknownKeepMode v))

namespace RerollRule

def ofParts (trigger operator effect limit : Value) : Except Fault RerollRule := do
  let condition ← Condition.ofValues trigger operator
  let effect ← checkEffect (← Effect.ofValue effect)
  let limit ← if limit.isAbsent then .ok (defaultLimit : Int) else limit.readWhole .rerollLimit
  return ofChecked condition effect (← checkLimit limit)

/-- Reads a rule given as a list of three or four parts. -/
def ofValue : Value → Except Fault RerollRule
  | .list [trigger, operator, effect] => ofParts trigger operator effect .absent
  | .list [trigger, operator, effect, limit] => ofParts trigger operator effect limit
  | .list _ => .error (.kind .unworded)
  | v => .error (.kind (.notRule .reroll v))

end RerollRule

def rulesOfValue (kind : RuleKind) (rule : Value → Except Fault ρ) : Value → Except Fault (List ρ)
  | .absent => .ok []
  | .list vs => vs.mapM rule
  | v => .error (.kind (.notRuleList kind v))

/-- Reads the rules that a value goes through; an empty value has none. -/
def rulesOfItems (rule : Value → Except Fault ρ) (v : Value) : Except Fault (List ρ) := do
  if v.isGiven then (← v.items).mapM rule else return []

end TabletopDice
