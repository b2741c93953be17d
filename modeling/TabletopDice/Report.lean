import TabletopDice.Odds.Dice

/-!
# Reports

What a player is shown: a roll with its explanation on one line, or the odds
with one line for each result.
-/

namespace TabletopDice

inductive Style where
  | plain | ansi
deriving DecidableEq, Repr

namespace Style

def bold : Style → Wording → Wording
  | .plain, w => w
  | .ansi, w => .words "\x1b[1m" :: w ++ [.words "\x1b[22m"]

/-- The arrow from an explanation to its result. The one for terminals is wide and gets one
more blank. -/
def arrow : Style → String
  | .plain => "<="
  | .ansi => "⬅ "

end Style

namespace Report

def line (style : Style) (result explanation : Wording) : Wording :=
  style.bold result ++ .words (" " ++ style.arrow ++ " ") :: explanation

def roll (style : Style) (d : Dice) : Option DiceRoll → Wording
  | some r => line style [.number r.result] (d.explain r)
  | none => line style [.words "None"] [.words "None"]

def oddsLine {α : Type} [Mass α] (e : Int × α) : Except Fault String := do
  let result ← Wording.write [.number e.1]
  return Decimal.padLeft 6 ' ' result ++ ": " ++ Decimal.padLeft 8 ' ' (Mass.percent 4 e.2)

/-- The odds of dice, worked out over doubles unless another kind of masses is asked for. -/
def odds (style : Style) (d : Dice) (α : Type := Float) [Mass α] : Except Fault String := do
  let distribution : Distribution α ← d.distribution
  let lines ← distribution.entries.mapM oddsLine
  let mean := Mass.fixed 4 (← distribution.mean)
  let expected := "Expected: " ++ (style.bold [.words mean]).text
  let note := if ← d.isComplete α then []
    else ["Rare outcomes of open-ended rerolls are approximated."]
  return "\n".intercalate (lines ++ expected :: note)

end Report

end TabletopDice
