import TabletopDice.Fault
import TabletopDice.Rule.Effect

/-!
# Tokens of dice notation

Each token has one canonical text, in which comparisons stand as the tags of
the operators that the rules use.
-/

namespace TabletopDice

inductive Sign where
  | plus | minus
deriving DecidableEq, Repr

def Sign.factor : Sign → Int
  | .plus => 1
  | .minus => -1

inductive Modifier where
  | explode
  | rerollAtMost (threshold : Nat)
  | keepBest (count : Nat)
  | successAtLeast (threshold : Nat)
  | reroll (c : Comparison) (value : Nat) (effect : Effect) (limit : Option Nat)
  | map (c : Comparison) (value : Nat) (mapped : Int) (label : Option String)
  | keep (count : Nat) (mode : KeepMode)
deriving DecidableEq, Repr

inductive Token where
  | sign (s : Sign)
  | constant (value : Nat)
  | dice (count sides : Nat)
  | modifier (m : Modifier)
deriving DecidableEq, Repr

namespace Modifier

def className : Modifier → String
  | .explode => "Explode"
  | .rerollAtMost _ => "RerollAtMost"
  | .keepBest _ => "KeepBest"
  | .successAtLeast _ => "SuccessAtLeast"
  | .reroll .. => "Reroll"
  | .map .. => "Map"
  | .keep .. => "Keep"

def afterComma : Option String → String
  | none => ""
  | some s => "," ++ s

def text : Modifier → String
  | .explode => "x"
  | .rerollAtMost n => "r" ++ Decimal.writeNat n
  | .keepBest n => "k" ++ Decimal.writeNat n
  | .successAtLeast n => "m" ++ Decimal.writeNat n
  | .reroll c n effect limit =>
    "r:" ++ c.tag ++ Decimal.writeNat n ++ "," ++ effect.name ++
      afterComma (limit.map Decimal.writeNat) ++ "."
  | .map c n mapped label =>
    "m:" ++ c.tag ++ Decimal.writeNat n ++ "," ++ Decimal.writeInt mapped ++
      afterComma label ++ "."
  | .keep n mode => "k:" ++ Decimal.writeNat n ++ "," ++ mode.name ++ "."

end Modifier

namespace Token

def className : Token → String
  | .sign _ => "Token"
  | .constant _ => "Constant"
  | .dice .. => "Dice"
  | .modifier m => m.className

def text : Token → String
  | .sign .plus => "+"
  | .sign .minus => "-"
  | .constant n => Decimal.writeNat n
  | .dice count sides => Decimal.writeNat count ++ "d" ++ Decimal.writeNat sides
  | .modifier m => m.text

def described (t : Token) : String :=
  t.className ++ "(" ++ Text.quoted t.text ++ ")"

/-- Tokens are taken for the same by their class and their canonical text. A token is never
the same as a text, not even as its own. -/
def same (t : Token) : Token ⊕ String → Bool
  | .inl other => t.className == other.className && t.text == other.text
  | .inr _ => false

end Token

end TabletopDice
