import TabletopDice.CommandLine

/-!
# The program

Rolls with random draws what the arguments say, or answers lines of standard
input until one of them ends the session.
-/

namespace TabletopDice.Program

def randomDraw (faces : Nat) : IO Int :=
  return (← IO.rand 0 (faces - 1) : Nat)

def breakOff (f : Fault) : IO UInt32 := do
  IO.eprintln (f.message.getD "the result cannot be shown")
  return 1

partial def answerLines (input : IO.FS.Stream) : IO UInt32 := do
  let line ← input.getLine
  if line.isEmpty then return 0
  match ← Session.reply Float randomDraw line with
  | .quit => return 0
  | .nothing => answerLines input
  | .line s => do
    IO.println s
    answerLines input
  | .failure f => breakOff f

def run (args : List String) : IO UInt32 := do
  match CommandLine.request args with
  | .session => answerLines (← IO.getStdin)
  | _ =>
    let outcome ← CommandLine.outcome randomDraw args []
    outcome.printed.forM IO.println
    match outcome.exit, outcome.fault with
    | some message, _ => do
      IO.eprintln message
      return 1
    | none, some f => breakOff f
    | none, none => return 0

end TabletopDice.Program

def main (args : List String) : IO UInt32 := TabletopDice.Program.run args
