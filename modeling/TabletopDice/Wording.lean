import TabletopDice.Fault

/-!
# Wordings

Text with whole numbers in it, before it is written out. A wording can be
written unless one of its numbers is too long to be written.
-/

namespace TabletopDice

inductive Piece where
  | words (s : String)
  | number (n : Int)
deriving DecidableEq, Repr

abbrev Wording := List Piece

namespace Piece

def text : Piece → String
  | .words s => s
  | .number n => Decimal.writeInt n

def Writable : Piece → Prop
  | .words _ => True
  | .number n => Decimal.Writable n

instance : (p : Piece) → Decidable p.Writable
  | .words _ => inferInstanceAs (Decidable True)
  | .number n => inferInstanceAs (Decidable (Decimal.Writable n))

end Piece

namespace Wording

def Writable (w : Wording) : Prop := ∀ p ∈ w, p.Writable

instance (w : Wording) : Decidable w.Writable :=
  inferInstanceAs (Decidable (∀ p ∈ w, p.Writable))

def text (w : Wording) : String := String.join (w.map Piece.text)

def write (w : Wording) : Except Fault String :=
  if w.Writable then .ok w.text else .error (.value .unworded)

def join (separator : String) (ws : List Wording) : Wording :=
  List.intercalate [.words separator] ws

def ofNumber? : Option Int → Wording
  | some n => [.number n]
  | none => [.words "None"]

end Wording

end TabletopDice
