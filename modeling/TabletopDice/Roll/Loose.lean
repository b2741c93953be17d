import TabletopDice.Roll.History

/-!
# Histories from loose values

A history that is told its rolls, their reasons and the mapping of its total
without any check. A roll is read before it joins the total. What the total is
mapped to is kept as it was given, and read only where it has to be a number.
-/

namespace TabletopDice

/-- Reads a whole number out of a number or a text; a fraction loses its part after the
point. -/
def Value.toWhole : Value → Except Fault Int
  | .whole n => .ok n
  | .truth b => .ok (if b then 1 else 0)
  | .real x =>
    match Decimal.Binary64.truncate? x with
    | some n => .ok n
    | none => .error (if x.isNaN then .value .unworded else .range .infinite)
  | .text s =>
    match Decimal.readInt? s.toList with
    | some n => .ok n
    | none => .error (.value .unworded)
  | _ => .error (.kind .unworded)

def Wording.ofValue : Value → Wording
  | .whole n => [.number n]
  | v => [.words v.shown]

structure LooseMapped where
  value : Value
  label : Value := .text ""

structure LooseHistory where
  rolled : History := {}
  mapped : Option LooseMapped := none

namespace LooseHistory

/-- Adds a roll for a reason, which undoes any mapping of the total before it. -/
def add (h : LooseHistory) (roll reason : Value) : Except Fault LooseHistory := do
  return { rolled := h.rolled.add (← roll.toWhole) (← Effect.ofValue reason) }

/-- Begins a history with a roll, unless none is given; the reason is read only for a roll. -/
def ofValues (roll reason : Value) : Except Fault LooseHistory :=
  if roll.isAbsent then .ok {} else add {} roll reason

def map (h : LooseHistory) (mapped : LooseMapped) : LooseHistory :=
  { h with mapped := some mapped }

def value (h : LooseHistory) : Value :=
  match h.mapped, h.rolled.total with
  | some m, _ => m.value
  | none, some total => .whole total
  | none, none => .absent

def label (h : LooseHistory) : Value :=
  match h.mapped with
  | some m => m.label
  | none => .text ""

/-- The number that counts. An empty value counts as zero. -/
def toWhole (h : LooseHistory) : Except Fault Int :=
  if h.value.isGiven then h.value.toWhole else .ok 0

def isBelow (h : LooseHistory) (bound : Value) : Except Fault Bool :=
  match bound with
  | .whole _ | .truth _ | .real _ => do
    let n ← h.toWhole
    return n < (← bound.toWhole)
  | _ => .error (.kind .unworded)

def labelSuffix (h : LooseHistory) : Wording :=
  if h.label.isGiven then .words " " :: Wording.ofValue h.label else []

def explain (h : LooseHistory) : Wording := h.rolled.breakdown ++ h.labelSuffix

def explainTotal (h : LooseHistory) : Wording :=
  Wording.ofNumber? h.rolled.total ++ h.labelSuffix

def described (h : LooseHistory) : Wording :=
  [.words "DieResult(rolls=["] ++
    Wording.join ", " (h.rolled.rolls.map fun n => [.number n]) ++
    [.words "], total="] ++ Wording.ofNumber? h.rolled.total ++
    [.words ", value="] ++ Wording.ofValue h.value ++ [.words ")"]

end LooseHistory

end TabletopDice
