import TabletopDice.Dice.Bunch
import TabletopDice.Notation.Parse

/-!
# Dice

Bunches of dice, each with a multiplier, and a fixed offset: what a line of
dice notation stands for.
-/

namespace TabletopDice

structure Term where
  multiplier : Int := 1
  bunch : Bunch
deriving DecidableEq

structure Dice where
  terms : List Term
  offset : Int := 0
deriving DecidableEq

structure DiceRoll where
  bunches : List BunchRoll
  result : Int
deriving DecidableEq, Repr

structure Summand where
  isNegative : Bool
  size : Wording

def Summand.ofInt (n : Int) : Summand := ⟨n < 0, [.number n.natAbs]⟩

namespace Dice

def scaledResults (d : Dice) (rolls : List BunchRoll) : List Int :=
  (d.terms.zip rolls).map fun (t, r) => t.multiplier * r.result

def total (d : Dice) (bunches : List BunchRoll) : DiceRoll :=
  ⟨bunches, d.offset + (d.scaledResults bunches).foldr (· + ·) 0⟩

def roll [Monad m] (draw : Nat → m Int) (d : Dice) : m DiceRoll := do
  return d.total (← d.terms.mapM fun t => t.bunch.roll draw)

/-- The summands with their signs as they are added up, then the total. -/
def sumText (total : Wording) : List Summand → Wording
  | [] => []
  | first :: more =>
    (if first.isNegative then .words "-" :: first.size else first.size) ++
      more.flatMap (fun s => .words (if s.isNegative then " - " else " + ") :: s.size) ++
      .words " = " :: total

/-- The bunches one after another, then how their results add up, where that says anything
new. -/
def explain (d : Dice) (r : DiceRoll) : Wording :=
  match d.terms with
  | [] => [.number d.offset]
  | first :: _ =>
    let parts := (d.terms.zip r.bunches).map fun (t, br) =>
      t.bunch.explainLabelled br
    let summands := d.scaledResults r.bunches ++ if d.offset = 0 then [] else [d.offset]
    let sum := if summands.length > 1 || first.multiplier < 0
      then [sumText [.number r.result] (summands.map Summand.ofInt)] else []
    Wording.join ". " (parts ++ sum)

def described (d : Dice) : Wording :=
  [.words ("Dice([" ++ ", ".intercalate (d.terms.map fun t => t.bunch.described) ++
    "], offset="), .number d.offset, .words ")"]

def ofSpec (s : RollSpec) (impostor : Option Value := none) : Except Fault Dice := do
  let terms ← s.bunches.mapM fun b => do return ⟨b.multiplier, ← Bunch.ofSpec b impostor⟩
  return { terms, offset := s.offset }

/-- The dice that a text in dice notation stands for, such as `3d8+5`. -/
def create (text : String) (impostor : Option Value := none) : Except Fault Dice := do
  ofSpec (← (Notation.parse text).mapError .grammar) impostor

end Dice

end TabletopDice
