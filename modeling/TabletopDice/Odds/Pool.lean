import Std.Data.HashMap
import TabletopDice.Odds.Mass

/-!
# Pools of masses

Masses by key, gathered one contribution at a time. The keys stay in the order
in which they were first met, so that sums over a pool have one order too.
-/

namespace TabletopDice

structure Pool (κ α : Type) [BEq κ] [Hashable κ] where
  order : Array κ := #[]
  masses : Std.HashMap κ α := ∅

namespace Pool

variable {κ α : Type} [BEq κ] [Hashable κ] [Mass α]

def mass (pool : Pool κ α) (k : κ) : α := pool.masses.getD k 0

@[specialize]
def add (pool : Pool κ α) (k : κ) (p : α) : Pool κ α :=
  match pool with
  | ⟨order, masses⟩ =>
    if masses.contains k then ⟨order, masses.modify k (· + p)⟩
    else ⟨order.push k, masses.insert k (0 + p)⟩

/-- All keys with their masses, in the order in which they were first met. -/
def entries (pool : Pool κ α) : List (κ × α) :=
  pool.order.toList.map fun k => (k, pool.mass k)

def isEmpty (pool : Pool κ α) : Bool := pool.order.isEmpty

def ofEntries (entries : List (κ × α)) : Pool κ α :=
  entries.foldl (fun pool e => pool.add e.1 e.2) {}

end Pool

end TabletopDice
