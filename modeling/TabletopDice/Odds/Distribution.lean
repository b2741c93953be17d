import TabletopDice.Wording
import TabletopDice.Odds.Table

/-!
# Distributions

How likely each whole number is as a result. A distribution is its lowest
result and the masses from there on. Zeros at both ends are trimmed, so that
two distributions with the same masses have the same form.
-/

namespace TabletopDice

def maxOutcomes : Nat := 1000000

def maxFairSides : Nat := 100000

def TotalFault.fault : TotalFault → Fault
  | .overflow => .range .partialSum
  | .opposed => .value .opposedInfinities

namespace Mass

variable {α : Type} [Mass α]

def dropZeros : List α → List α
  | p :: q :: rest => if p == 0 then dropZeros (q :: rest) else p :: q :: rest
  | ps => ps

def StartsNonzero : List α → Prop
  | p :: _ :: _ => (p == 0) = false
  | _ => True

theorem dropZeros_startsNonzero : (ps : List α) → StartsNonzero (dropZeros ps)
  | [] => trivial
  | [_] => trivial
  | p :: q :: rest => by
    unfold dropZeros
    split
    · exact dropZeros_startsNonzero (q :: rest)
    · simpa [StartsNonzero] using ‹¬(p == 0) = true›

theorem dropZeros_suffix : (ps : List α) → dropZeros ps <:+ ps
  | [] => List.suffix_rfl
  | [_] => List.suffix_rfl
  | p :: q :: rest => by
    unfold dropZeros
    split
    · exact (dropZeros_suffix (q :: rest)).trans (List.suffix_cons p _)
    · exact List.suffix_rfl

theorem dropZeros_ne_nil : {ps : List α} → ps ≠ [] → dropZeros ps ≠ []
  | [], h => absurd rfl h
  | [p], _ => List.cons_ne_nil p []
  | p :: q :: rest, _ => by
    unfold dropZeros
    split
    · exact dropZeros_ne_nil (List.cons_ne_nil q rest)
    · exact List.cons_ne_nil _ _

theorem StartsNonzero.initial {ps qs : List α} (h : ps <+: qs) (hq : StartsNonzero qs) :
    StartsNonzero ps := by
  obtain ⟨rest, rfl⟩ := h
  match ps with
  | [] => trivial
  | [_] => trivial
  | _ :: _ :: _ => exact hq

def dropZerosRight (ps : List α) : List α := (dropZeros ps.reverse).reverse

theorem dropZerosRight_initial (ps : List α) : dropZerosRight ps <+: ps := by
  simpa [dropZerosRight] using List.reverse_prefix.2 (dropZeros_suffix ps.reverse)

/-- No zero stands at an end of the list, unless it stands alone. -/
structure Trimmed (ps : List α) : Prop where
  ne_nil : ps ≠ []
  left : StartsNonzero ps
  right : StartsNonzero ps.reverse

theorem trimmed_dropZeros {ps : List α} (h : ps ≠ []) : Trimmed (dropZerosRight (dropZeros ps)) where
  ne_nil := by
    simpa [dropZerosRight] using dropZeros_ne_nil (List.reverse_ne_nil_iff.2 (dropZeros_ne_nil h))
  left := (dropZeros_startsNonzero ps).initial (dropZerosRight_initial _)
  right := by simpa [dropZerosRight] using dropZeros_startsNonzero (dropZeros ps).reverse

end Mass

open Mass (Trimmed)

structure Distribution (α : Type) [Mass α] where
  low : Int
  masses : List α
  trimmed : Trimmed masses

namespace Distribution

variable {α : Type} [Mass α]

/-- Trims masses that start at `low`; no masses at all count as one zero. -/
def ofCells (low : Int) : List α → Distribution α
  | [] => ⟨low, [0], ⟨List.cons_ne_nil _ _, trivial, trivial⟩⟩
  | p :: ps =>
    let rest := Mass.dropZeros (p :: ps)
    { low := low + ((ps.length + 1 : Nat) - rest.length)
      masses := Mass.dropZerosRight rest
      trimmed := Mass.trimmed_dropZeros (List.cons_ne_nil p ps) }

def ofTable (t : Table α) : Distribution α := ofCells t.low t.cells.toList

def zero : Distribution α := ofCells 0 [1]

instance : Inhabited (Distribution α) := ⟨zero⟩

instance : BEq (Distribution α) where
  beq a b := a.low == b.low && a.masses == b.masses

def width (d : Distribution α) : Nat := d.masses.length

def high (d : Distribution α) : Int := d.low + d.width - 1

def mass (d : Distribution α) (result : Int) : α :=
  if result < d.low then 0 else d.masses[(result - d.low).toNat]?.getD 0

def cells (d : Distribution α) : List (Int × α) :=
  d.masses.mapIdx fun i p => (d.low + i, p)

def entries (d : Distribution α) : List (Int × α) :=
  d.cells.filter fun e => 0 < e.2

/-! ## Checked construction -/

/-- Each mass is checked in turn, then the total. -/
def checkMass (p : α) : Except ValueFault α :=
  if 0 ≤ p ∧ p ≤ 1 then .ok p else .error (.massOutOfRange (Mass.text p))

/-- How far the total of given masses may be from one. -/
def tolerance : α := Mass.ofDecimal 1 6

def checkTotal (ps : List α) : Except ValueFault Unit :=
  if tolerance < Mass.distance (Mass.total ps) 1 then .error .totalNotOne else .ok ()

def ofMasses (low : Int) (ps : List α) : Except ValueFault (Distribution α) := do
  if ps.isEmpty then .error .noResults
  let ps ← ps.mapM checkMass
  checkTotal ps
  return ofCells low ps

def bounds (first : Int) (more : List Int) : Int × Int :=
  more.foldl (fun ends n => (min ends.1 n, max ends.2 n)) (first, first)

/-- The distribution with the masses listed for single results, each listed once. -/
def ofEntries : List (Int × α) → Except Fault (Distribution α)
  | [] => .error (.value .noResults)
  | (result, p) :: more => do
    let (low, high) := bounds result (more.map (·.1))
    if maxOutcomes < high - low + 1 then .error (.limit .resultsTooWide)
    let blank := Table.empty low (high - low + 1).toNat
    let filled := ((result, p) :: more).foldl (fun t e => t.put e.1 e.2) blank
    (ofMasses low filled.cells.toList).mapError .value

def fair (sides : Int) : Except Fault (Distribution α) :=
  if sides < 1 then .error (.build (.noFairDie sides))
  else if maxFairSides < sides then .error (.limit (.tooManySides maxFairSides sides))
  else .ok (ofCells 1 (List.replicate sides.toNat (1 / Mass.ofInt sides)))

/-! ## Tails -/

def massesFrom (d : Distribution α) (target : Int) : List α :=
  d.masses.drop (target - d.low).toNat

def massesTo (d : Distribution α) (target : Int) : List α :=
  d.masses.take (target - d.low + 1).toNat

def atLeast (d : Distribution α) (target : Int) : α :=
  if target ≤ d.low then 1
  else if d.high < target then 0
  else Mass.total (d.massesFrom target)

def above (d : Distribution α) (target : Int) : α := d.atLeast (target + 1)

def atMost (d : Distribution α) (target : Int) : α :=
  if d.high ≤ target then 1
  else if target < d.low then 0
  else Mass.total (d.massesTo target)

def below (d : Distribution α) (target : Int) : α := d.atMost (target - 1)

def checkSummable (ps : List α) : Except Fault Unit :=
  match Mass.totalFault? ps with
  | none => .ok ()
  | some f => .error f.fault

/-- Refuses a tail whose masses have no total. The masses of a tail that holds every result are
not added up. -/
def checkAtLeast (d : Distribution α) (target : Int) : Except Fault Unit :=
  if target ≤ d.low then .ok () else checkSummable (d.massesFrom target)

def checkAbove (d : Distribution α) (target : Int) : Except Fault Unit :=
  d.checkAtLeast (target + 1)

def checkAtMost (d : Distribution α) (target : Int) : Except Fault Unit :=
  if d.high ≤ target then .ok () else checkSummable (d.massesTo target)

def checkBelow (d : Distribution α) (target : Int) : Except Fault Unit :=
  d.checkAtMost (target - 1)

def givenAtLeast (d : Distribution α) (target : Int) : Except Fault (Distribution α) := do
  let target := max target d.low
  d.checkAtLeast target
  let p := d.atLeast target
  if 0 < p then
    let scale := 1 / p
    return ofCells target ((d.massesFrom target).map (· * scale))
  else .error (.value (.nothingAtLeast target))

def givenAtMost (d : Distribution α) (target : Int) : Except Fault (Distribution α) := do
  let target := min target d.high
  d.checkAtMost target
  let p := d.atMost target
  if 0 < p then
    let scale := 1 / p
    return ofCells d.low ((d.massesTo target).map (· * scale))
  else .error (.value (.nothingAtMost target))

/-! ## Comparison, mean and text -/

def shift (d : Distribution α) (delta : Int) : Distribution α :=
  { d with low := d.low + delta }

/-- The mean result. The results are weighed and added up in increasing order, as far as these
numbers hold them; there is none when a result is too large for that. -/
def mean (d : Distribution α) : Except Fault α :=
  let held := d.entries.takeWhile fun e => Mass.holds α e.1
  let terms := held.map fun e => Mass.ofInt e.1 * e.2
  match Mass.totalFault? terms, held.length == d.entries.length with
  | some .overflow, _ => .error TotalFault.overflow.fault
  | _, false => .error (.range .tooLarge)
  | some .opposed, true => .error TotalFault.opposed.fault
  | none, true => .ok (Mass.total terms)

def window (d : Distribution α) (first : Int) (count : Nat) : List α :=
  let before := min (d.low - first).toNat count
  let inside := (d.masses.drop (first - d.low).toNat).take (count - before)
  List.replicate before 0 ++ inside ++ List.replicate (count - before - inside.length) 0

/-- Whether two masses are equal or at most the tolerance apart, which an infinite one never
is. -/
def near (tolerance p q : α) : Bool :=
  p == q || (Mass.isFinite p && Mass.isFinite q && Mass.distance p q ≤ tolerance)

/-- Whether no two masses of one result are further apart than the tolerance. Results beyond
both distributions have no mass in either. -/
def isClose (a b : Distribution α) (tolerance : α) : Bool :=
  (a.masses.zip (b.window a.low a.width)).all (fun e => near tolerance e.1 e.2) &&
    (b.masses.zip (a.window b.low b.width)).all (fun e => near tolerance e.2 e.1)

def described (d : Distribution α) : Wording :=
  [.words ("Probabilities([" ++ ", ".intercalate (d.masses.map Mass.text) ++ "], "),
    .number d.low, .words ")"]

end Distribution

end TabletopDice
