import TabletopDice.Report

/-!
# Sessions

A session answers one line of input after another. A line is rolled, or its
odds are shown when it starts with a question mark, worked out over masses of
one kind. A fault that comes from what the player wrote is told and the session
goes on; any other fault ends it.
-/

namespace TabletopDice.Session

variable {m : Type → Type} [Monad m]

def evaluate (draw : Nat → m Int) (style : Style) (text : String) : m (Except Fault String) :=
  match Dice.create text with
  | .error f => pure (.error f)
  | .ok d => do
    let r ← d.roll draw
    return (Report.roll style d (some r)).write

def reportOdds (style : Style) (text : String) (α : Type := Float) [Mass α] : Except Fault String := do
  Report.odds style (← Dice.create text) α

def faultLine (f : Fault) : Option String :=
  if f.isReported then f.message.map ("Error: " ++ ·) else none

inductive Reply where
  | quit
  | nothing
  | line (s : String)
  | failure (f : Fault)

def Reply.of : Except Fault String → Reply
  | .ok s => .line s
  | .error f =>
    match faultLine f with
    | some s => .line s
    | none => .failure f

def normalize (line : String) : List Char := Text.lower (Text.trim line.toList)

def isWithin (word : List Char) : List Char → Bool
  | [] => word.isEmpty
  | c :: cs => word.isPrefixOf (c :: cs) || isWithin word cs

/-- Answers one line. The word exit anywhere in a line ends the session. -/
def reply (α : Type) [Mass α] (draw : Nat → m Int) (line : String) : m Reply :=
  let cs := normalize line
  if isWithin "exit".toList cs then pure .quit
  else
    match cs with
    | [] => pure .nothing
    | '?' :: rest => pure (Reply.of (reportOdds .ansi (String.ofList rest) α))
    | cs => return Reply.of (← evaluate draw .ansi (String.ofList cs))

structure Transcript where
  lines : List String := []
  fault : Option Fault := none

def run (α : Type) [Mass α] (draw : Nat → m Int) : List String → m Transcript
  | [] => pure {}
  | line :: rest => do
    match ← reply α draw line with
    | .quit => pure {}
    | .nothing => run α draw rest
    | .failure f => pure { fault := some f }
    | .line s => do
      let t ← run α draw rest
      return { t with lines := s :: t.lines }

end TabletopDice.Session
