import TabletopDice.Odds.Distribution

/-!
# Sums of independent results

The distribution of a weighted sum of two independent results, and of the sum
of several results of one distribution.
-/

namespace TabletopDice.Distribution

variable {α : Type} [Mass α]

/-- The least and the greatest of `m * x + n * y` over the results of both. -/
def corners (m : Int) (a : Distribution α) (n : Int) (b : Distribution α) : Int × Int :=
  bounds (m * a.low + n * b.low)
    [m * a.low + n * b.high, m * a.high + n * b.low, m * a.high + n * b.high]

@[specialize]
def addPairs (m : Int) (as : List (Int × α)) (n : Int) (bs : List (Int × α)) (t : Table α) :
    Table α :=
  as.foldl (fun t (x, p) =>
    if p == 0 then t
    else bs.foldl (fun t (y, q) => t.add (m * x + n * y) (p * q)) t) t

def addScaled (m : Int) (a : Distribution α) (n : Int) (b : Distribution α) :
    Except LimitFault (Distribution α) :=
  let (low, high) := corners m a n b
  if maxOutcomes < high - low + 1 then .error .tooManyOutcomes
  else .ok (ofTable (addPairs m a.cells n b.cells (Table.empty low (high - low + 1).toNat)))

def add (a b : Distribution α) : Except LimitFault (Distribution α) := addScaled 1 a 1 b

/-- Goes through the binary digits of `n`, the last first. Each one that is set adds the
current power of two to the sum so far, and the power doubles as long as digits are left. -/
def addPowers (sum : Option (Distribution α)) (power : Distribution α) (n : Nat) :
    Except LimitFault (Distribution α) := do
  let sum ← if n % 2 = 1 then
      match sum with
      | none => .ok (some power)
      | some sum => (add sum power).map some
    else .ok sum
  if _h : n < 2 then .ok (sum.getD power)
  else addPowers sum (← add power power) (n / 2)
termination_by n

def repeatSum (d : Distribution α) (n : Int) : Except Fault (Distribution α) :=
  if n < 1 then .error (.value .repeatsNone)
  else if maxOutcomes < n * d.width then .error (.limit .tooManyOutcomes)
  else (addPowers none d n.toNat).mapError .limit

end TabletopDice.Distribution
