import TabletopDice.Notation.Token

/-!
# Described dice

What dice notation describes: bunches of dice with their rules as written, and
a fixed offset. Nothing is checked yet beyond the notation itself.
-/

namespace TabletopDice

structure RerollSpec where
  trigger : Int
  comparison : Comparison
  effect : Effect
  limit : Option Int
deriving DecidableEq, Repr

structure MapSpec where
  trigger : Int
  comparison : Comparison
  value : Int
  label : Option String
deriving DecidableEq, Repr

inductive Change where
  /-- One more roll is added whenever the highest face comes up. -/
  | explode
  | reroll (rule : RerollSpec)
  | map (rule : MapSpec)
  | keep (mode : KeepMode) (count : Int)
deriving DecidableEq, Repr

/-- A modifier rN rolls once more on N or less, mN counts N or more as one success, kN keeps
the best N. -/
def Modifier.change : Modifier → Change
  | .explode => .explode
  | .rerollAtMost n => .reroll ⟨n, .ge, .replace, some 1⟩
  | .reroll c n effect limit => .reroll ⟨n, c, effect, limit.map Int.ofNat⟩
  | .successAtLeast n => .map ⟨n, .le, 1, none⟩
  | .map c n mapped label => .map ⟨n, c, mapped, label⟩
  | .keepBest n => .keep .best n
  | .keep n mode => .keep mode n

structure BunchSpec where
  ndice : Int
  sides : Int
  multiplier : Int := 1
  rerolls : Option (List RerollSpec) := none
  maps : Option (List MapSpec) := none
  keepMode : Option KeepMode := none
  keepNumber : Option Int := none
deriving DecidableEq, Repr

structure RollSpec where
  bunches : List BunchSpec := []
  offset : Int := 0
deriving DecidableEq, Repr

namespace BunchSpec

def addReroll (b : BunchSpec) (rule : RerollSpec) : BunchSpec :=
  { b with rerolls := some (b.rerolls.getD [] ++ [rule]) }

def addMap (b : BunchSpec) (rule : MapSpec) : BunchSpec :=
  { b with maps := some (b.maps.getD [] ++ [rule]) }

/-- A bunch keeps dice in one way only. -/
def setKeep (b : BunchSpec) (mode : KeepMode) (count : Int) : Except GrammarFault BunchSpec :=
  if b.keepMode.isSome then .error .secondKeep
  else .ok { b with keepMode := some mode, keepNumber := some count }

def modify (b : BunchSpec) (m : Modifier) : Except GrammarFault BunchSpec :=
  match m.change with
  | .explode => .ok (b.addReroll ⟨b.sides, .eq, .add, none⟩)
  | .reroll rule => .ok (b.addReroll rule)
  | .map rule => .ok (b.addMap rule)
  | .keep mode count => b.setKeep mode count

def apply (b : BunchSpec) : Token → Except Fault BunchSpec
  | .modifier m => (b.modify m).mapError .grammar
  | t => .error (.value (.notModifier t.described))

end BunchSpec

end TabletopDice
