import Mathlib.Data.List.InsertIdx
import TabletopDice.Proofs.Roll.Alike

/-!
# Rules that answer nothing

A rule that applies to no face of a die is never used. Put among the other rules
it has uses left all the time, and the die rolls as it does without the rule.
-/

namespace TabletopDice

section
variable {rules : List RerollRule} {rule : RerollRule} {i : Nat} {face : Int}

/-- With one more rule at a place among them, and its uses at that place, rules are used as they
are without it, as long as it does not apply. -/
theorem useRule_insertIdx (hi : i ≤ rules.length) (left : List Nat) (uses : Nat) (isFirst : Bool)
    (h : rule.applies face = false) :
    useRule (rules.insertIdx i rule) (left.insertIdx i uses) face isFirst =
      (useRule rules left face isFirst).map fun (effect, left) => (effect, left.insertIdx i uses) := by
  have hidle : (rule.answers face isFirst && decide (0 < uses)) = false := by
    simp [RerollRule.answers, h]
  induction i generalizing rules left with
  | zero =>
    rw [List.insertIdx_zero, List.insertIdx_zero, useRule_cons, hidle, if_neg Bool.false_ne_true]
    rfl
  | succ i ih =>
    cases rules with
    | nil => cases hi
    | cons r rules =>
      cases left with
      | nil => rfl
      | cons x left =>
        rw [List.insertIdx_succ_cons, List.insertIdx_succ_cons, useRule_cons, useRule_cons]
        split
        · rfl
        · rw [ih (Nat.le_of_succ_le_succ hi) left, Option.map_map, Option.map_map]
          rfl

end

namespace RuledDie

-- ---------------------------------------------------------------------------
-- Idle rules
-- ---------------------------------------------------------------------------

def insertRule (d : RuledDie) (i : Nat) (rule : RerollRule) : RuledDie :=
  { d with rerolls := d.rerolls.insertIdx i rule }

def IsIdle (d : RuledDie) (rule : RerollRule) : Prop := ∀ face ∈ d.faces, rule.applies face = false

section
variable {d : RuledDie} {i : Nat} {rule : RerollRule}

theorem uses_insertRule (d : RuledDie) (i : Nat) (rule : RerollRule) :
    (d.insertRule i rule).uses = d.uses.insertIdx i rule.limit := List.map_insertIdx ..

theorem useRule_insertRule (hi : i ≤ d.rerolls.length) (hidle : d.IsIdle rule) (left : List Nat)
    {face : Int} (hface : face ∈ d.faces) (isFirst : Bool) :
    useRule (d.insertRule i rule).rerolls (left.insertIdx i rule.limit) face isFirst =
      (useRule d.rerolls left face isFirst).map (Prod.map id (·.insertIdx i rule.limit)) :=
  useRule_insertIdx hi left rule.limit isFirst (hidle face hface)

/-- Beside an idle rule the others are used as they are without it. -/
theorem usedAlike_insertRule (hi : i ≤ d.rerolls.length) (hidle : d.IsIdle rule) :
    UsedAlike (·.insertIdx i rule.limit) (fun _ => True) d (d.insertRule i rule) where
  die := rfl
  injective := List.insertIdx_injective i rule.limit
  uses := uses_insertRule d i rule
  fits := trivial
  use left _ _ hface := useRule_insertRule hi hidle left hface
  keeps _ _ _ _ _ _ _ := trivial
  isEmpty_maps := rfl
  mapTotal := rfl

/-- An idle rule changes nothing of a roll, nor which draws it takes. -/
theorem roll_insertRule (hi : i ≤ d.rerolls.length) (hidle : d.IsIdle rule) {xs : Nat → Int}
    (hxs : InRange d.sides xs) : (d.insertRule i rule).roll drawNext xs = d.roll drawNext xs :=
  (usedAlike_insertRule hi hidle).roll hxs

end

end RuledDie

end TabletopDice
