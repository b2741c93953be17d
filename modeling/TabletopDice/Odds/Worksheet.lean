import TabletopDice.Odds.Loose

/-!
# Worksheets

Distributions under names, each with the computation that its masses come from
and the tails that it was asked for. A mass that is not a number equals nothing
but itself: such masses are equal only when one was taken over from the other,
as it is by a shift, and never when both were computed.
-/

namespace TabletopDice

/-- A distribution, the number of the computation that its masses come from, and what is known of
its tails. Masses of one origin are the same masses. -/
structure Traced where
  distribution : Distribution Float
  origin : Nat
  tails : Distribution.Tails Float := {}

namespace Traced

def same (a b : Traced) : Bool :=
  a.distribution.low == b.distribution.low &&
    (a.origin == b.origin || a.distribution.masses == b.distribution.masses)

def ask (t : Traced) (q : Distribution.Query) (target : Value) : Except Fault (Float × Traced) := do
  let (p, tails) ← t.distribution.consult q (← target.readWhole .target) t.tails
  return (p, { t with tails })

end Traced

/-- What an entry is computed with: a distribution, or whatever was passed in place of one. -/
inductive Operand where
  | entry (t : Traced)
  | other (v : Value)

namespace Operand

def distribution? : Operand → Option (Distribution Float)
  | .entry t => some t.distribution
  | .other _ => none

def isListable : Operand → Bool
  | .entry _ => true
  | .other v => Distribution.isListable v

def same : Operand → Operand → Bool
  | .entry a, .entry b => a.same b
  | .other v, .other w => v.same w
  | _, _ => false

end Operand

structure Worksheet where
  entries : List (String × Traced) := []
  computed : Nat := 0

namespace Worksheet

def find? (w : Worksheet) (name : String) : Option Traced := w.entries.lookup name

/-- Whether a sum of `n` results is a single one, which is taken over as it is. -/
def isSingle (n : Value) : Bool := n.whole? == some 1

/-- Enters a distribution under a name. Its masses are new unless they were taken over. -/
def enter (w : Worksheet) (name : String) (d : Distribution Float) (source : Option Traced) :
    Worksheet where
  entries := (name, { distribution := d, origin := (source.map (·.origin)).getD w.computed }) ::
    w.entries.filter fun e => e.1 != name
  computed := w.computed + 1

def ask (w : Worksheet) (name : String) (t : Traced) (q : Distribution.Query) (target : Value) :
    Worksheet × Except Fault Float :=
  match t.ask q target with
  | .ok (p, t) => ({ w with entries := (name, t) :: w.entries.filter fun e => e.1 != name }, .ok p)
  | .error e => (w, .error e)

end Worksheet

end TabletopDice
