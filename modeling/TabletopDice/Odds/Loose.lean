import TabletopDice.Dice.Loose
import TabletopDice.Odds.Dice
import TabletopDice.Odds.Tails

/-!
# Distributions from loose values

The operations on distributions over doubles, for arguments that have not been
checked. An argument that is no distribution at all is passed as `none`. The
odds of dice with loose multipliers come last.
-/

namespace TabletopDice

def Value.readReal : Value → Except Fault Float
  | .real x => .ok x
  | .truth b => .ok (if b then 1 else 0)
  | .whole n => if Mass.holds Float n then .ok (Mass.ofInt n) else .error (.range .tooLarge)
  | _ => .error (.kind .unworded)

namespace Distribution

/-- Reads one mass. Truth values are no masses. -/
def readMass : Value → Except Fault Float
  | .real x => (checkMass x).mapError .value
  | .whole n =>
    if 0 ≤ n ∧ n ≤ 1 then .ok (Mass.ofInt n)
    else .error (.value (.massOutOfRange (Decimal.writeInt n)))
  | v => .error (.kind (.notMass v))

def ofValues (masses low : Value) : Except Fault (Distribution Float) := do
  let .list vs := masses | .error (.kind (.notMasses masses))
  if vs.isEmpty then .error (.value .noResults)
  let ps ← vs.mapM readMass
  (checkTotal ps).mapError .value
  return ofCells (← low.readWhole .offset) ps

def fairOfValue (sides : Value) : Except Fault (Distribution Float) := do
  fair (← sides.readWhole .sides)

def isListable : Value → Bool
  | .list _ | .record _ => false
  | _ => true

/-- Lists a mass for a result. A later mass replaces an earlier one, in its place. -/
def listMass (result mass : Value) : List (Value × Value) → List (Value × Value)
  | [] => [(result, mass)]
  | (r, p) :: rest =>
    if r.same result then (r, mass) :: rest else (r, p) :: listMass result mass rest

/-- Reads masses listed for single results. The results are checked first, as they are
listed, then the masses, from the lowest result to the highest. -/
def ofListing (pairs : List (Value × Value)) : Except Fault (Distribution Float) := do
  if pairs.any fun e => !isListable e.1 then .error (.kind .unworded)
  let listing := pairs.foldl (fun listed e => listMass e.1 e.2 listed) []
  let results ← listing.mapM fun e => e.1.readWhole .result
  match results with
  | [] => .error (.value .noResults)
  | first :: more =>
    let (low, high) := bounds first more
    if maxOutcomes < high - low + 1 then .error (.limit .resultsTooWide)
    let ordered := (results.zip (listing.map (·.2))).mergeSort fun a b => a.1 ≤ b.1
    ofEntries (← ordered.mapM fun e => do return (e.1, ← readMass e.2))

def ask (d : Distribution Float) (q : Query) (target : Value) : Except Fault Float := do
  d.answer q (← target.readWhole .target)

def givenAtLeastOfValue (d : Distribution Float) (target : Value) :
    Except Fault (Distribution Float) := do
  d.givenAtLeast (← target.readWhole .target)

def givenAtMostOfValue (d : Distribution Float) (target : Value) :
    Except Fault (Distribution Float) := do
  d.givenAtMost (← target.readWhole .target)

def shiftOfValue (d : Distribution Float) (delta : Value) : Except Fault (Distribution Float) := do
  return d.shift (← delta.readWhole .shift)

/-- Both distributions are looked at before the multipliers are. -/
def addScaledOfValues (m : Value) (a : Option (Distribution Float)) (n : Value)
    (b : Option (Distribution Float)) : Except Fault (Distribution Float) := do
  match a, b with
  | some a, some b =>
    let m ← m.readWhole .multiplier
    let n ← n.readWhole .multiplier
    (addScaled m a n b).mapError .limit
  | _, _ => .error (.kind .notSummand)

def repeatSumOfValue (d : Distribution Float) (n : Value) : Except Fault (Distribution Float) := do
  d.repeatSum (← n.readWhole .repeatCount)

def keepOfValues (d : Distribution Float) (n k mode : Value) :
    Except Fault (Distribution Float) := do
  let n ← n.readWhole .repeatCount
  let k ← k.readWhole .keepCount
  d.keep n k (← KeepMode.ofValue mode)

def closeTolerance : Float := Mass.ofDecimal 1 12

def isCloseOfValue (a : Distribution Float) (b : Option (Distribution Float))
    (tolerance : Option Value) : Except Fault Bool := do
  let some b := b | .error (.kind .notComparable)
  let tolerance ← match tolerance with
    | none => .ok closeTolerance
    | some v => v.readReal
  if tolerance < 0 then .error (.value .unworded)
  return a.isClose b tolerance

end Distribution

namespace LooseDice

/-- For odds a multiplier has to be a whole number, which a truth value is not. -/
def distribution (d : LooseDice) : Except Fault (Distribution Float) := do
  let sum ← d.terms.foldlM (fun sum t => do
    let odds ← t.bunch.odds
    let m ← t.multiplier.readWhole .multiplier
    (Distribution.addScaled 1 sum m odds.distribution).mapError .limit)
    Distribution.zero
  return sum.shift d.offset

def isComplete (d : LooseDice) : Except Fault Bool :=
  d.terms.allM fun t => t.bunch.isComplete Float

/-- One end of the range of results. A multiplier that is not positive takes the far end of its
bunch. -/
def bound (d : LooseDice) (near far : Int × Int → Int) : Except Fault Amount := do
  let sum ← d.terms.foldlM (fun sum t => do
    let m ← Amount.ofValue t.multiplier
    let ends ← t.bunch.bounds Float
    sum.add (← Amount.ofProduct t.multiplier (if m.isPositive then near ends else far ends)))
    (Amount.whole 0)
  (Amount.whole d.offset).add sum

def lowest (d : LooseDice) : Except Fault Amount := d.bound (·.1) (·.2)

def highest (d : LooseDice) : Except Fault Amount := d.bound (·.2) (·.1)

end LooseDice

end TabletopDice
