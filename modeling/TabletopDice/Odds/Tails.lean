import TabletopDice.Odds.Distribution

/-!
# Questions about a distribution

How likely one result is, and how likely all results on one side of it are. A
tail is added up at most once: what it came to is kept beside the distribution,
and is the answer from then on.
-/

namespace TabletopDice.Distribution

variable {α : Type} [Mass α]

inductive Query where
  | mass | above | atLeast | below | atMost
deriving DecidableEq, Repr

def answer (d : Distribution α) (q : Query) (target : Int) : Except Fault α :=
  match q with
  | .mass => .ok (d.mass target)
  | .above => (d.checkAbove target).map fun _ => d.above target
  | .atLeast => (d.checkAtLeast target).map fun _ => d.atLeast target
  | .below => (d.checkBelow target).map fun _ => d.below target
  | .atMost => (d.checkAtMost target).map fun _ => d.atMost target

/-- The tails that were added up so far, under the result that they start or end at. -/
structure Tails (α : Type) where
  atLeast : List (Int × α) := []
  atMost : List (Int × α) := []

def recallAtLeast (d : Distribution α) (target : Int) (known : Tails α) :
    Except Fault (α × Tails α) :=
  if target ≤ d.low then .ok (1, known)
  else if d.high < target then .ok (0, known)
  else
    match known.atLeast.lookup target with
    | some p => .ok (p, known)
    | none =>
      (checkSummable (d.massesFrom target)).map fun _ =>
        let p := Mass.total (d.massesFrom target)
        (p, { known with atLeast := (target, p) :: known.atLeast })

def recallAtMost (d : Distribution α) (target : Int) (known : Tails α) :
    Except Fault (α × Tails α) :=
  if d.high ≤ target then .ok (1, known)
  else if target < d.low then .ok (0, known)
  else
    match known.atMost.lookup target with
    | some p => .ok (p, known)
    | none =>
      (checkSummable (d.massesTo target)).map fun _ =>
        let p := Mass.total (d.massesTo target)
        (p, { known with atMost := (target, p) :: known.atMost })

def consult (d : Distribution α) (q : Query) (target : Int) (known : Tails α) :
    Except Fault (α × Tails α) :=
  match q with
  | .mass => .ok (d.mass target, known)
  | .above => d.recallAtLeast (target + 1) known
  | .atLeast => d.recallAtLeast target known
  | .below => d.recallAtMost (target - 1) known
  | .atMost => d.recallAtMost target known

end TabletopDice.Distribution
