import TabletopDice.Fault

/-!
# Plain dice

A die with faces numbered from one, each as likely as another.
-/

namespace TabletopDice

structure Die where
  sides : Nat
  sides_pos : 0 < sides
deriving DecidableEq

namespace Die

/-- Only a source of draws will do as one; `impostor` is what was given in place of one. -/
def checkSource (impostor : Option Value) : Except Fault Unit :=
  match impostor with
  | some v => .error (.kind (.notSource v))
  | none => .ok ()

def of (sides : Int) (impostor : Option Value := none) : Except Fault Die :=
  if h : 0 < sides.toNat then do
    checkSource impostor
    return ⟨sides.toNat, h⟩
  else .error (.build (.tooFewSides sides))

def ofValue (sides : Value) (impostor : Option Value := none) : Except Fault Die := do
  of (← sides.readWhole .sides) impostor

def faces (d : Die) : List Int := (List.range d.sides).map fun i => ((i + 1 : Nat) : Int)

def lowest (_ : Die) : Int := 1

def highest (d : Die) : Int := d.sides

/-- Rolls the die: a draw counts the faces from zero. -/
def roll [Monad m] (draw : Nat → m Int) (d : Die) : m Int :=
  return (← draw d.sides) + 1

def described (d : Die) : String := "Die(" ++ Decimal.writeNat d.sides ++ ")"

end Die

end TabletopDice
