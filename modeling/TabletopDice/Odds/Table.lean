import TabletopDice.Odds.Mass

/-!
# Tables of masses

Masses of consecutive results, gathered one contribution at a time.
-/

namespace TabletopDice

structure Table (α : Type) where
  low : Int
  cells : Array α

namespace Table

variable {α : Type} [Mass α]

def empty (low : Int) (width : Nat) : Table α := ⟨low, Array.replicate width 0⟩

/-- Changes the mass of one result; a result outside the table is left out. -/
@[inline] def change (t : Table α) (result : Int) (f : α → α) : Table α :=
  if result < t.low then t else ⟨t.low, t.cells.modify (result - t.low).toNat f⟩

@[inline] def add (t : Table α) (result : Int) (p : α) : Table α := t.change result (· + p)

@[inline] def put (t : Table α) (result : Int) (p : α) : Table α := t.change result fun _ => p

def mass (t : Table α) (result : Int) : α :=
  if result < t.low then 0 else t.cells[(result - t.low).toNat]?.getD 0

end Table

end TabletopDice
