import TabletopDice.Rule.Effect

/-!
# Running totals

How one roll after another joins the total of a die. Once a later roll has been
subtracted, additions subtract as well.
-/

namespace TabletopDice

/-- The total so far, if any roll has been made, and whether additions now subtract. -/
structure Running where
  total : Option Int := none
  subtracting : Bool := false
deriving DecidableEq, Repr, Hashable

namespace Running

def applied (s : Running) (reason : Effect) : Effect :=
  if s.subtracting && reason = .add then .subtract else reason

/-- The total once a roll has joined it. The first roll is the total, whatever its reason. -/
def joined (s : Running) (roll : Int) (reason : Effect) : Int :=
  match s.total, s.applied reason with
  | none, _ | _, .basic | _, .replace => roll
  | some total, .add => total + roll
  | some total, .subtract => total - roll
  | some total, .useBest => max total roll
  | some total, .useWorst => min total roll

def join (s : Running) (roll : Int) (reason : Effect) : Running where
  total := some (s.joined roll reason)
  subtracting := s.subtracting || (s.total.isSome && s.applied reason = .subtract)

end Running

end TabletopDice
