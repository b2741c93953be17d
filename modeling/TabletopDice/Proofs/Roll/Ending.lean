import Mathlib.Data.List.Monad
import TabletopDice.Proofs.Roll.Branch

/-!
# How rolls can end

The totals that a branch can end at, whatever the faces that come up. A roll
that takes its draws from a stream ends at one of them, and each of them is
where the roll of some stream ends. So what holds of the value of every roll
can be told from the endings, of which there are finitely many.
-/

namespace TabletopDice

def InRange (faces : Nat) (xs : Nat → Int) : Prop := ∀ i, 0 ≤ xs i ∧ xs i < faces

theorem inRange_of_mem_faces {d : Die} {face : Int} (h : face ∈ d.faces) :
    0 ≤ face - 1 ∧ face - 1 < d.sides := by
  obtain ⟨hlow, hhigh⟩ := Die.mem_faces.mp h
  exact ⟨by omega, by omega⟩

def drawNext (_ : Nat) : StateM (Nat → Int) Int := fun xs => (xs 0, fun i => xs (i + 1))

def prepend (x : Int) (xs : Nat → Int) : Nat → Int
  | 0 => x
  | i + 1 => xs i

def drawAny (faces : Nat) : List Int := (List.range faces).map fun (i : Nat) => (i : Int)

namespace Branch

inductive Ends (d : RuledDie) : Branch → Int → Prop
  | done {b : Branch} {face : Int} (hface : face ∈ d.faces) (h : b.after d face = none) :
      Ends d b (b.total face)
  | more {b b' : Branch} {face t : Int} (hface : face ∈ d.faces) (h : b.after d face = some b')
      (ht : Ends d b' t) : Ends d b t

variable {d : RuledDie} {b : Branch}

-- ---------------------------------------------------------------------------
-- Streams
-- ---------------------------------------------------------------------------

theorem mem_faces_drawNext {die : Die} {xs : Nat → Int} (h : InRange die.sides xs) :
    xs 0 + 1 ∈ die.faces := by
  obtain ⟨hlow, hhigh⟩ := h 0
  exact Die.mem_faces.mpr ⟨by omega, by omega⟩

def settleFrom (d : RuledDie) (b : Branch) (xs : Nat → Int) : Int :=
  (b.settle drawNext d b.left.sum xs).1

theorem settleFrom_eq (xs : Nat → Int) :
    b.settleFrom d xs = match b.after d (xs 0 + 1) with
      | none => b.total (xs 0 + 1)
      | some b' => (b'.settle drawNext d b.left.sum fun i => xs (i + 1)).1 := by
  rw [settleFrom, ← settle_of_le drawNext d (Nat.le_succ _)]
  show ((match b.after d (xs 0 + 1) with
    | none => (pure (b.total (xs 0 + 1)) : StateM (Nat → Int) Int)
    | some b' => b'.settle drawNext d b.left.sum) fun i => xs (i + 1)).1 = _
  cases b.after d (xs 0 + 1) with
  | none => rfl
  | some b' => rfl

theorem settleFrom_of_none {xs : Nat → Int} (h : b.after d (xs 0 + 1) = none) :
    b.settleFrom d xs = b.total (xs 0 + 1) := by
  rw [settleFrom_eq, h]

theorem settleFrom_of_some {b' : Branch} {xs : Nat → Int} (h : b.after d (xs 0 + 1) = some b') :
    b.settleFrom d xs = b'.settleFrom d fun i => xs (i + 1) := by
  have hb' := after_sum h
  rw [settleFrom_eq, h, settleFrom]
  dsimp only
  rw [settle_of_le drawNext d (by omega)]

theorem ends_settleFrom {xs : Nat → Int} (h : InRange d.sides xs) : b.Ends d (b.settleFrom d xs) := by
  induction b using after_induction (d := d) generalizing xs with
  | _ b ih =>
    have hface := mem_faces_drawNext h
    cases ha : b.after d (xs 0 + 1) with
    | none =>
      rw [settleFrom_of_none ha]
      exact .done hface ha
    | some b' =>
      rw [settleFrom_of_some ha]
      exact .more hface ha (ih _ b' ha fun i => h (i + 1))

theorem Ends.exists_settleFrom {t : Int} (h : b.Ends d t) :
    ∃ xs, InRange d.sides xs ∧ b.settleFrom d xs = t := by
  induction h with
  | @done b face hface ha =>
    have hdraw : face - 1 + 1 = face := by omega
    refine ⟨fun _ => face - 1, fun _ => inRange_of_mem_faces hface, ?_⟩
    rw [settleFrom_of_none (by rw [hdraw]; exact ha), hdraw]
  | @more b b' face t hface ha _ ih =>
    obtain ⟨xs, hxs, ht⟩ := ih
    refine ⟨prepend (face - 1) xs, ?_, ?_⟩
    · intro i
      cases i with
      | zero => exact inRange_of_mem_faces hface
      | succ i => exact hxs i
    · have hdraw : face - 1 + 1 = face := by omega
      rw [settleFrom_of_some ((congrArg (b.after d) hdraw).trans ha)]
      exact ht

-- ---------------------------------------------------------------------------
-- All endings
-- ---------------------------------------------------------------------------

theorem mem_roll_drawAny {die : Die} {face : Int} : face ∈ die.roll drawAny ↔ face ∈ die.faces := by
  simp [Die.roll, Die.faces, drawAny, eq_comm]

/-- Rolling on with every draw there is at once lists the endings. -/
theorem mem_settle_drawAny {t : Int} : t ∈ b.settle drawAny d b.left.sum ↔ b.Ends d t := by
  induction b using after_induction (d := d) with
  | _ b ih =>
    rw [← settle_of_le drawAny d (Nat.le_succ _), settle]
    simp only [List.bind_eq_flatMap, List.mem_flatMap, mem_roll_drawAny]
    constructor
    · rintro ⟨face, hface, ht⟩
      cases ha : b.after d face with
      | none =>
        rw [ha] at ht
        obtain rfl := List.mem_singleton.mp ht
        exact .done hface ha
      | some b' =>
        have hb' := after_sum ha
        simp only [ha] at ht
        rw [settle_of_le drawAny d (by omega), ih face b' ha] at ht
        exact .more hface ha ht
    · rintro (⟨hface, ha⟩ | ⟨hface, ha, ht⟩)
      · exact ⟨_, hface, by simp [ha]⟩
      · have hb' := after_sum ha
        refine ⟨_, hface, ?_⟩
        simp only [ha]
        rw [settle_of_le drawAny d (by omega), ih _ _ ha]
        exact ht

end Branch

namespace RuledDie

open Branch (start)

def rollFrom (d : RuledDie) (xs : Nat → Int) : History := (d.roll drawNext xs).1

def endings (d : RuledDie) : List Int := (start d).settle drawAny d (start d).left.sum

theorem value_rollFrom (d : RuledDie) (xs : Nat → Int) :
    (d.rollFrom xs).value = d.valueOf ((start d).settleFrom d xs) :=
  congrArg Prod.fst (congrFun (value_roll drawNext d) xs)

/-- What holds of the value of every roll can be told from the endings. -/
theorem forall_rollFrom_iff (d : RuledDie) (P : Int → Prop) :
    (∀ xs, InRange d.sides xs → P (d.rollFrom xs).value) ↔ ∀ t ∈ d.endings, P (d.valueOf t) := by
  simp only [endings, Branch.mem_settle_drawAny]
  constructor
  · rintro h t ht
    obtain ⟨xs, hxs, rfl⟩ := ht.exists_settleFrom
    rw [← value_rollFrom]
    exact h xs hxs
  · intro h xs hxs
    rw [value_rollFrom]
    exact h _ (Branch.ends_settleFrom hxs)

/-- Whatever stream the draws come from, the value of the roll is within given bounds. -/
def RollsWithin (d : RuledDie) (low high : Int) : Prop :=
  ∀ xs, InRange d.sides xs → low ≤ (d.rollFrom xs).value ∧ (d.rollFrom xs).value ≤ high

theorem rollsWithin_iff {d : RuledDie} {low high : Int} :
    d.RollsWithin low high ↔ ∀ t ∈ d.endings, low ≤ d.valueOf t ∧ d.valueOf t ≤ high :=
  d.forall_rollFrom_iff fun v => low ≤ v ∧ v ≤ high

end RuledDie

end TabletopDice
