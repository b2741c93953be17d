import TabletopDice.Dice.RuledDie
import TabletopDice.Odds.Pool

/-!
# Chains of rolls

The odds of a die whose rolls cause more rolls, worked out one roll at a time.
A branch is what has been rolled so far, as far as it matters for what follows;
branches that are alike are pooled. Chains that stay open for too long, or have
become too unlikely, are cut where they are, and then the odds are incomplete.
-/

namespace TabletopDice

def maxChainRolls : Nat := 20

/-- A chain waiting for its next roll and the effect that this will have. -/
structure Branch where
  running : Running := {}
  left : List Nat
  effect : Effect := .basic
deriving DecidableEq, Hashable

structure Chains (α : Type) [Mass α] where
  totals : Pool Int α := {}
  branches : Pool Branch α := {}
  complete : Bool := true

namespace Chains

variable {α : Type} [Mass α]

/-- The least mass of a single face for which a chain is followed. -/
def floor : α := Mass.ofDecimal 1 16

def finish (c : Chains α) (total : Int) (p : α) : Chains α :=
  { c with totals := c.totals.add total p }

def cut (c : Chains α) (total : Int) (p : α) : Chains α :=
  { c.finish total p with complete := false }

def follow (c : Chains α) (b : Branch) (p : α) : Chains α :=
  { c with branches := c.branches.add b p }

def rollFace (d : RuledDie) (mayFollow : Bool) (b : Branch) (p : α) (c : Chains α) (face : Int) :
    Chains α :=
  let total := b.running.joined face b.effect
  match useRule d.rerolls b.left face b.running.total.isNone with
  | none => c.finish total p
  | some (effect, left) =>
    if mayFollow then c.follow ⟨b.running.join face b.effect, left, effect⟩ p
    else c.cut total p

/-- Rolls the die once more in every open branch. -/
def rollAll (d : RuledDie) (isLast : Bool) (c : Chains α) : Chains α :=
  let faces := d.faces
  c.branches.entries.foldl (fun c (b, p) =>
    let each := p / Mass.ofInt d.sides
    let mayFollow := !isLast && !(each < floor)
    faces.foldl (rollFace d mayFollow b each) c) { c with branches := {} }

/-- Rolls until no branch is open, at most `more` times and one last time after that. -/
def rollOn (d : RuledDie) : (more : Nat) → Chains α → Chains α
  | 0, c => c.rollAll d true
  | more + 1, c =>
    let c := c.rollAll d false
    if c.branches.isEmpty then c else rollOn d more c

def ofDie (d : RuledDie) : Chains α :=
  rollOn d (maxChainRolls - 1) { branches := Pool.add {} { left := d.uses } 1 }

end Chains

end TabletopDice
