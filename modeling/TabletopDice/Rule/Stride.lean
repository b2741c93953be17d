/-!
# Strides of whole numbers

A stride runs from its start towards its stop, which it leaves out, in steps of
one size, upwards or downwards.
-/

namespace TabletopDice

structure Stride where
  start : Int
  stop : Int
  step : Int
deriving DecidableEq, Repr

namespace Stride

def contains (r : Stride) (n : Int) : Bool :=
  if 0 < r.step then r.start ≤ n && n < r.stop && (n - r.start) % r.step == 0
  else if r.step < 0 then r.stop < n && n ≤ r.start && (r.start - n) % r.step == 0
  else false

def size (r : Stride) : Nat :=
  if 0 < r.step then ((r.stop - r.start + r.step - 1) / r.step).toNat
  else if r.step < 0 then ((r.start - r.stop - r.step - 1) / (-r.step)).toNat
  else 0

def toList (r : Stride) : List Int :=
  (List.range r.size).map fun (i : Nat) => r.start + i * r.step

def same (r s : Stride) : Bool :=
  r.size == s.size && (r.size == 0 || (r.start == s.start && (r.size == 1 || r.step == s.step)))

end Stride

end TabletopDice
