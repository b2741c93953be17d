import TabletopDice.Proofs.Roll.Ending

/-!
# Dice that use their rules alike

The uses left of the rules are what a die remembers of its rules while it is
rolled. Two dice may keep them in different places. As long as every face uses
the same rule of both, and the places stay as they are, the same draws make the
same roll.
-/

namespace TabletopDice.RuledDie

-- ---------------------------------------------------------------------------
-- Fuel
-- ---------------------------------------------------------------------------

section
variable {m : Type → Type} [Monad m]

theorem rollOn_succ (draw : Nat → m Int) (d : RuledDie) (fuel : Nat) (left : List Nat) (face : Int)
    (h : History) : d.rollOn draw (fuel + 1) left face h =
      match useRule d.rerolls left face (h.steps.size = 1) with
      | none => pure h
      | some (effect, left) =>
        d.toDie.roll draw >>= fun face => d.rollOn draw fuel left face (h.add face effect) := rfl

/-- No more fuel is needed than there are uses left. -/
theorem rollOn_of_le (draw : Nat → m Int) (d : RuledDie) {fuel : Nat} {left : List Nat} (h : left.sum ≤ fuel)
    (face : Int) (history : History) :
    d.rollOn draw fuel left face history = d.rollOn draw left.sum left face history := by
  induction fuel generalizing left face history with
  | zero => rw [Nat.le_zero.mp h]
  | succ fuel ih =>
    rw [rollOn_succ]
    cases hrule : useRule d.rerolls left face (history.steps.size = 1) with
    | none =>
      cases left.sum with
      | zero => rfl
      | succ n => rw [rollOn_succ, hrule]
    | some next =>
      obtain ⟨effect, left'⟩ := next
      have hsum := useRule_sum hrule
      rw [← hsum, rollOn_succ, hrule]
      dsimp only
      congr 1
      funext face'
      exact ih (by omega) face' _

theorem rollOn_eq (draw : Nat → m Int) (d : RuledDie) (left : List Nat) (face : Int) (h : History) :
    d.rollOn draw left.sum left face h =
      match useRule d.rerolls left face (h.steps.size = 1) with
      | none => pure h
      | some (effect, left) =>
        d.toDie.roll draw >>= fun face => d.rollOn draw left.sum left face (h.add face effect) := by
  rw [← rollOn_of_le draw d (Nat.le_succ left.sum), rollOn_succ]
  cases hrule : useRule d.rerolls left face (h.steps.size = 1) with
  | none => rfl
  | some next =>
    obtain ⟨effect, left'⟩ := next
    have hsum := useRule_sum hrule
    dsimp only
    congr 1
    funext face'
    exact rollOn_of_le draw d (by omega) face' _

end

-- ---------------------------------------------------------------------------
-- Rules used alike
-- ---------------------------------------------------------------------------

/-- A face uses the same rule of two dice, whose uses left are the same in other places. That much has
to be so only of the uses that fit, which they do from the beginning and after every use. -/
structure UsedAlike (place : List Nat → List Nat) (Fits : List Nat → Prop) (d d' : RuledDie) : Prop where
  die : d'.toDie = d.toDie
  injective : Function.Injective place
  uses : d'.uses = place d.uses
  fits : Fits d.uses
  use : ∀ left, Fits left → ∀ face ∈ d.faces, ∀ isFirst,
    useRule d'.rerolls (place left) face isFirst =
      (useRule d.rerolls left face isFirst).map (Prod.map id place)
  keeps : ∀ left, Fits left → ∀ face isFirst effect left',
    useRule d.rerolls left face isFirst = some (effect, left') → Fits left'
  isEmpty_maps : d'.maps.isEmpty = d.maps.isEmpty
  mapTotal : d'.mapTotal = d.mapTotal

namespace UsedAlike

variable {place : List Nat → List Nat} {Fits : List Nat → Prop} {d d' : RuledDie}

theorem finish (h : UsedAlike place Fits d d') (history : History) : d'.finish history = d.finish history := by
  rw [RuledDie.finish, RuledDie.finish, h.isEmpty_maps, h.mapTotal]

theorem rollOn (h : UsedAlike place Fits d d') {left : List Nat} (hleft : Fits left) {face : Int}
    (hface : face ∈ d.faces) (history : History) {xs : Nat → Int} (hxs : InRange d.sides xs) :
    d'.rollOn drawNext (place left).sum (place left) face history xs =
      d.rollOn drawNext left.sum left face history xs := by
  induction hn : left.sum using Nat.strongRecOn generalizing left face history xs with
  | _ n ih =>
    rw [← hn, rollOn_eq, rollOn_eq, h.use left hleft face hface, h.die]
    cases hrule : useRule d.rerolls left face (history.steps.size = 1) with
    | none => rfl
    | some next =>
      obtain ⟨effect, left'⟩ := next
      have hsum := useRule_sum hrule
      have hfits := h.keeps left hleft face _ effect left' hrule
      exact ih left'.sum (by omega) hfits (Branch.mem_faces_drawNext hxs) _ (fun j => hxs (j + 1)) rfl

/-- The rolls are the same, and so are the draws that they leave. -/
theorem roll (h : UsedAlike place Fits d d') {xs : Nat → Int} (hxs : InRange d.sides xs) :
    d'.roll drawNext xs = d.roll drawNext xs := by
  have hfuel : ∀ left : List Nat, left.foldr (· + ·) 0 = left.sum := fun left => List.sum_eq_foldr.symm
  have hon := h.rollOn h.fits (Branch.mem_faces_drawNext hxs) (History.ofRoll (xs 0 + 1)) fun j => hxs (j + 1)
  rw [← h.uses, ← hfuel, ← hfuel] at hon
  have hfinish : d'.finish = d.finish := funext h.finish
  rw [RuledDie.roll, RuledDie.roll, h.die, hfinish]
  exact congrArg (fun e : History × (Nat → Int) => (d.finish e.1, e.2)) hon

end UsedAlike

end TabletopDice.RuledDie
