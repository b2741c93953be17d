import TabletopDice.Odds.Sum
import TabletopDice.Rule.Effect

/-!
# The best or worst of several results

For every value of the least preferred result that is kept, the results divide
into those preferred to it, those equal to it and those rejected. Each split is
weighted by its probability and the number of its arrangements, and the
preferred results add the sum of their conditional distribution.
-/

namespace TabletopDice

namespace Arrangements

def factorial : Nat → Nat
  | 0 => 1
  | n + 1 => (n + 1) * factorial n

/-- The number of orders of items in groups of identical items: `[2, 1]` has three. -/
def count (groups : List Nat) : Nat :=
  groups.foldl (fun n g => n / factorial g) (factorial (groups.foldr (· + ·) 0))

/-- The greatest number whose factorial a platform with words of 64 bits has. -/
def wordLimit : Nat := Nat.pow 2 63 - 1

def factorialOfInt (limit : Nat) (n : Int) : Except Fault Nat :=
  if n < 0 then .error (.value .unworded)
  else if limit < n then .error (.range .factorial)
  else .ok (factorial n.toNat)

/-- What is left of `n` once the orders within one group are divided by. Counts below two are
skipped. -/
def divideBy (limit n : Nat) (c : Int) : Except Fault Nat :=
  if 1 < c then return n / (← factorialOfInt limit c) else return n

/-- The same for counts that may be negative, as long as their sum is not. The factorials are
those of a platform, up to its limit. -/
def countSigned (limit : Nat) (counts : List Int) : Except Fault Nat := do
  counts.foldlM (divideBy limit) (← factorialOfInt limit (counts.foldr (· + ·) 0))

def countOfValues (counts : List Value) (limit : Nat := wordLimit) : Except Fault Nat := do
  countSigned limit (← counts.mapM fun
    | .whole n => .ok n
    | .truth b => .ok (if b then 1 else 0)
    | _ => .error (.kind .unworded))

end Arrangements

/-- The most results whose arrangements are counted; the orders of one more overflow a
double. -/
def maxArranged : Nat := 170

namespace Distribution

variable {α : Type} [Mass α]

def tails (d : Distribution α) (q : Int) : KeepMode → α × α
  | .best => (d.below q, d.above q)
  | .worst => (d.above q, d.below q)

def preferred? (d : Distribution α) (q : Int) : KeepMode → Except Fault (Option (Distribution α))
  | .best => do
    d.checkAbove q
    if 0 < d.above q then (d.givenAtLeast (q + 1)).map some else return none
  | .worst => do
    d.checkBelow q
    if 0 < d.below q then (d.givenAtMost (q - 1)).map some else return none

/-- The distributions of the sum of `k` kept results, by how many of them are preferred to
`q`; the others are `q`. -/
def keptSums (d : Distribution α) (k : Nat) (q : Int) (mode : KeepMode) :
    Except Fault (List (Distribution α)) := do
  let tied := ofCells (q * k) [1]
  match ← d.preferred? q mode with
  | none => return [tied]
  | some preferred =>
    let mixed ← (List.range (k - 1)).mapM fun i => do
      let sum ← preferred.repeatSum (i + 1 : Nat)
      return sum.shift (q * (k - (i + 1) : Nat))
    return tied :: mixed

/-- Adds every split of the results that are not kept into rejected ones and ones equal to
the last kept. -/
def addSplits (discards tiedKept preferred : Nat) (pKept pTied pRejected : α)
    (kept : Distribution α) (t : Table α) : Table α :=
  let entries := kept.entries
  (List.range (discards + 1)).foldl (fun t rejected =>
    let tiedDiscarded := discards - rejected
    let pSplit := pKept * Mass.pow pTied tiedDiscarded * Mass.pow pRejected rejected
    if 0 < pSplit then
      let orders := Arrangements.count [rejected, tiedKept + tiedDiscarded, preferred]
      let weight := pSplit * Mass.ofInt orders
      entries.foldl (fun t (result, p) => t.add result (p * weight)) t
    else t) t

/-- Whether a power that splits are weighed by is out of bounds. Powers of the masses of results
that are not kept count only beside kept results that have mass. -/
def powersOverflow (discards k : Nat) (pTied pRejected pPreferred : α) : Bool :=
  Mass.powOverflows pPreferred (k - 1) || Mass.powOverflows pTied k ||
    ((Mass.powOverflows pTied discards || Mass.powOverflows pRejected discards) &&
      (List.range k).any fun preferred =>
        0 < Mass.pow pPreferred preferred * Mass.pow pTied (k - preferred))

/-- Adds the cases in which `q` is the last value kept. -/
def addLastKept (d : Distribution α) (n k : Nat) (mode : KeepMode) (t : Table α)
    (q : Int) (pTied : α) : Except Fault (Table α) := do
  let sums ← d.keptSums k q mode
  d.checkBelow q
  d.checkAbove q
  let (pRejected, pPreferred) := d.tails q mode
  if powersOverflow (n - k) k pTied pRejected pPreferred then .error (.range .power)
  return (List.range k).foldl (fun t preferred =>
    let tiedKept := k - preferred
    let pKept := Mass.pow pPreferred preferred * Mass.pow pTied tiedKept
    if 0 < pKept then
      match sums[preferred]? with
      | some kept => addSplits (n - k) tiedKept preferred pKept pTied pRejected kept t
      | none => t
    else t) t

def keep (d : Distribution α) (n k : Int) (mode : KeepMode) : Except Fault (Distribution α) := do
  if n < 1 then .error (.value .repeatsNone)
  else if k < 1 then .error (.value .keepsNone)
  else if maxArranged < n then .error (.limit .tooManyArrangements)
  else if n ≤ k then d.repeatSum n
  else
    let blank := Table.empty (d.low * k) ((d.width - 1) * k.toNat + 1)
    let filled ← d.entries.foldlM
      (fun t (q, pTied) => d.addLastKept n.toNat k.toNat mode t q pTied) blank
    return ofTable filled

end Distribution

end TabletopDice
