/-!
# Sources of draws

A draw answers a number of faces with the face to take, counted from zero.
Anything that rolls takes its draws from the monad it runs in; the sources here
can be repeated. A source that cycles through given numbers answers with a
number outside the faces when it is told to leave its numbers as they are.
-/

namespace TabletopDice

inductive Source where
  /-- The lowest face each time. -/
  | lowest
  | middle
  | highest
  /-- Pseudo-random numbers that follow from the state. -/
  | congruential (state : Int)
  /-- Given numbers over and over, the ones still to come this time first, each wrapped into
  the faces. -/
  | wrapped (coming given : List Int)
  | unwrapped (coming given : List Int)
deriving DecidableEq, Repr

namespace Source

def ofSeed (seed : Int) : Source := .congruential seed
def cycle (given : List Int) : Source := .wrapped given given
def cycleUnwrapped (given : List Int) : Source := .unwrapped given given

def next (coming given : List Int) : Int × List Int :=
  match coming, given with
  | n :: rest, _ => (n, rest)
  | [], n :: rest => (n, rest)
  | [], [] => (0, [])

def draw (faces : Nat) : Source → Int × Source
  | .lowest => (0, .lowest)
  | .middle => (((faces / 2 : Nat) : Int), .middle)
  | .highest => ((faces : Int) - 1, .highest)
  | .congruential state =>
    let state := (state * 1103515245 + 12345) % Int.pow 2 31
    (state / Int.pow 2 8 % faces, .congruential state)
  | .wrapped coming given =>
    let (n, rest) := next coming given
    (n % faces, .wrapped rest given)
  | .unwrapped coming given =>
    let (n, rest) := next coming given
    (n, .unwrapped rest given)

def step (faces : Nat) : StateM Source Int := modifyGet (draw faces)

end Source

end TabletopDice
