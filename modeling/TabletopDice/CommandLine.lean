import TabletopDice.Session

/-!
# The command line

What the arguments of the program ask for: a roll, odds, or a session. A fault
that comes from what the player wrote becomes the message the program exits
with.
-/

namespace TabletopDice.CommandLine

open Session

variable {m : Type → Type} [Monad m]

inductive Request where
  | evaluate (text : String)
  | odds (text : String)
  | session

def oddsFlag : String := "--odds"

/-- The arguments are one text with blanks between them; without a text there is a session. -/
def request (args : List String) : Request :=
  let text := String.ofList
    (Text.trim (" ".intercalate (args.filter (· != oddsFlag))).toList)
  if text = "" then .session
  else if args.contains oddsFlag then .odds text
  else .evaluate text

structure Outcome where
  printed : List String := []
  exit : Option String := none
  fault : Option Fault := none

def Outcome.of : Except Fault String → Outcome
  | .ok s => { printed := [s] }
  | .error f =>
    match faultLine f with
    | some s => { exit := some s }
    | none => { fault := some f }

def outcome (draw : Nat → m Int) (args input : List String) : m Outcome :=
  match request args with
  | .evaluate text => return Outcome.of (← evaluate draw .plain text)
  | .odds text => pure (Outcome.of (reportOdds .plain text))
  | .session => do
    let t ← run Float draw input
    return { printed := t.lines, fault := t.fault }

end TabletopDice.CommandLine
