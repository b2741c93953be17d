import TabletopDice.Dice.RuledDie

/-!
# Bunches of dice

Identical dice that are rolled together and summed. With a keep setting only
the best or the worst of them count.
-/

namespace TabletopDice

@[ext]
structure Keep where
  mode : KeepMode
  count : Nat
  count_pos : 0 < count

instance : DecidableEq Keep := fun _ _ => decidable_of_iff _ Keep.ext_iff.symm

@[ext]
structure Bunch where
  count : Nat
  count_pos : 0 < count
  die : RuledDie
  keep : Option Keep := none

instance : DecidableEq Bunch := fun _ _ => decidable_of_iff _ Bunch.ext_iff.symm

structure BunchRoll where
  details : List History
  kept : List History
  discarded : List History
deriving DecidableEq, Repr

def BunchRoll.result (r : BunchRoll) : Int := (r.kept.map History.value).foldr (· + ·) 0

namespace Keep

def of (mode : KeepMode) (count : Int) : Except Fault Keep :=
  if h : 0 < count.toNat then .ok ⟨mode, count.toNat, h⟩ else .error (.build .keepsNone)

/-- Reads a keep setting; without a mode there is none, and one die is kept unless a number is
given. -/
def ofValues (mode count : Value) : Except Fault (Option Keep) := do
  if mode.isAbsent then return none
  let mode ← KeepMode.ofValue mode
  let count ← if count.isAbsent then .ok 1 else count.readWhole .keepNumber
  return some (← of mode count)

/-- Divides values into those kept and those discarded, both in increasing order. Values that
are equal stay in their order. -/
def divide (k : Keep) (value : β → Int) (xs : List β) : List β × List β :=
  let ordered := xs.mergeSort fun a b => value a ≤ value b
  match k.mode with
  | .best => (ordered.drop (xs.length - k.count), ordered.take (xs.length - k.count))
  | .worst => (ordered.take k.count, ordered.drop k.count)

end Keep

namespace Bunch

def label (b : Bunch) : String :=
  Decimal.writeNat b.count ++ "d" ++ Decimal.writeNat b.die.sides

def described (b : Bunch) : String := "Bunch(" ++ Text.quoted b.label ++ ")"

def counted (b : Bunch) : Nat :=
  match b.keep with
  | none => b.count
  | some k => min k.count b.count

def choose (b : Bunch) (details : List History) : BunchRoll :=
  match b.keep with
  | none => ⟨details, details, []⟩
  | some k =>
    if b.count ≤ k.count then ⟨details, details, []⟩
    else
      let (kept, discarded) := k.divide History.value details
      ⟨details, kept, discarded⟩

def roll [Monad m] (draw : Nat → m Int) (b : Bunch) : m BunchRoll := do
  return b.choose (← (List.replicate b.count b.die).mapM (RuledDie.roll draw))

def hasMaps (b : Bunch) : Bool := !b.die.maps.isEmpty

/-- Totals of dice, then the dice kept, then the sum unless it says nothing new. -/
def explain (b : Bunch) (r : BunchRoll) : Wording :=
  let details := r.details.map History.explain
  let sum : Wording := [.words " = ", .number r.result]
  match b.keep with
  | none =>
    if b.hasMaps then
      Wording.join ", " details ++ [.words ". Successes: ", .number r.result]
    else Wording.join " + " details ++ if b.count > 1 then sum else []
  | some k =>
    let kept := Wording.join (if b.hasMaps then ", " else " + ") (r.kept.map History.explainTotal)
    Wording.join ", " details ++ .words ". Keep: " :: kept ++
      if b.hasMaps then [.words ". Successes: ", .number r.result]
      else if k.count > 1 then sum else []

def explainLabelled (b : Bunch) (r : BunchRoll) : Wording :=
  .words (b.label ++ ": ") :: b.explain r

end Bunch

/-! ## Construction -/

structure BunchArgs where
  count : Value
  sides : Value
  rerolls : Value := .absent
  maps : Value := .absent
  keepMode : Value := .absent
  keepNumber : Value := .absent

namespace Bunch

def checkCount (count : Int) : Except Fault {n : Nat // 0 < n} :=
  if h : 0 < count.toNat then .ok ⟨count.toNat, h⟩ else .error (.build (.tooFewDice count))

def ofSpec (s : BunchSpec) (impostor : Option Value := none) : Except Fault Bunch := do
  let ⟨count, count_pos⟩ ← checkCount s.ndice
  let die ← RuledDie.ofSpecs s.sides (s.rerolls.getD []) (s.maps.getD []) impostor
  let keep ← s.keepMode.mapM fun mode => Keep.of mode (s.keepNumber.getD 1)
  return { count, count_pos, die, keep }

def ofArgs (a : BunchArgs) (impostor : Option Value := none) : Except Fault Bunch := do
  let ⟨count, count_pos⟩ ← checkCount (← a.count.readWhole .diceCount)
  let die ← RuledDie.ofValues a.sides a.rerolls a.maps impostor
  let keep ← Keep.ofValues a.keepMode a.keepNumber
  return { count, count_pos, die, keep }

end Bunch

end TabletopDice
