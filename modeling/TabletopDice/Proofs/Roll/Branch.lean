import TabletopDice.Proofs.Law
import TabletopDice.Odds.Chain

/-!
# Rolling a branch on

A roll of a die seen as what becomes of its first branch. A branch holds all
that the rest of a roll depends on, so rolling one on from wherever it stands
gives the total that the whole roll gives. The mean value of a branch is what
it is worth; it is the mean of its values over one more roll.
-/

namespace TabletopDice

theorem useRule_cons (rule : RerollRule) (rules : List RerollRule) (uses : Nat) (left : List Nat)
    (face : Int) (isFirst : Bool) :
    useRule (rule :: rules) (uses :: left) face isFirst =
      if rule.answers face isFirst && 0 < uses then some (rule.effect, (uses - 1) :: left)
      else (useRule rules left face isFirst).map fun (effect, left) => (effect, uses :: left) := rfl

/-- The rule that is used answers the face and has one use less afterwards. -/
theorem useRule_some {rules : List RerollRule} {left left' : List Nat} {face : Int} {first : Bool}
    {effect : Effect} (h : useRule rules left face first = some (effect, left')) :
    ∃ before rule after used uses unused, rules = before ++ rule :: after ∧
      left = used ++ (uses + 1) :: unused ∧ left' = used ++ uses :: unused ∧
      used.length = before.length ∧ rule.effect = effect ∧ rule.answers face first := by
  induction rules generalizing left left' with
  | nil => cases left <;> cases h
  | cons rule rules ih =>
    cases left with
    | nil => cases h
    | cons uses left =>
      unfold useRule at h
      split at h
      · rename_i hrule
        simp only [Option.some.injEq, Prod.mk.injEq, Bool.and_eq_true, decide_eq_true_eq] at h hrule
        obtain ⟨rfl, rfl⟩ := h
        exact ⟨[], rule, rules, [], uses - 1, left, rfl, by simp; omega, rfl, rfl, rfl, hrule.1⟩
      · obtain ⟨⟨e, l⟩, hl, he⟩ := Option.map_eq_some_iff.mp h
        obtain ⟨rfl, rfl⟩ := Prod.mk.inj he
        obtain ⟨before, rule', after, used, uses', unused, rfl, rfl, rfl, hlen, heffect, hanswers⟩ :=
          ih hl
        exact ⟨rule :: before, rule', after, uses :: used, uses', unused, rfl, rfl, rfl,
          congrArg (· + 1) hlen, heffect, hanswers⟩

theorem useRule_sum {rules : List RerollRule} {left left' : List Nat} {face : Int} {first : Bool}
    {effect : Effect} (h : useRule rules left face first = some (effect, left')) :
    left'.sum + 1 = left.sum := by
  obtain ⟨_, _, _, used, uses, unused, -, rfl, rfl, -⟩ := useRule_some h
  simp only [List.sum_append, List.sum_cons]
  omega

theorem useRule_length {rules : List RerollRule} {left left' : List Nat} {face : Int} {first : Bool}
    {effect : Effect} (h : useRule rules left face first = some (effect, left')) :
    left'.length = left.length := by
  obtain ⟨_, _, _, used, uses, unused, -, rfl, rfl, -⟩ := useRule_some h
  rw [List.length_append, List.length_append, List.length_cons, List.length_cons]

namespace Branch

def total (b : Branch) (face : Int) : Int := b.running.joined face b.effect

def after (d : RuledDie) (b : Branch) (face : Int) : Option Branch :=
  (useRule d.rerolls b.left face b.running.total.isNone).map fun (effect, left) =>
    ⟨b.running.join face b.effect, left, effect⟩

def start (d : RuledDie) : Branch := { left := d.uses }

theorem after_start_of_isEmpty {d : RuledDie} (h : d.rerolls.isEmpty) (face : Int) :
    (start d).after d face = none := by
  rw [after, List.isEmpty_iff.mp h]
  rfl

theorem after_sum {d : RuledDie} {b b' : Branch} {face : Int} (h : b.after d face = some b') :
    b'.left.sum + 1 = b.left.sum := by
  obtain ⟨⟨effect, left⟩, hrule, rfl⟩ := Option.map_eq_some_iff.mp h
  exact useRule_sum hrule

theorem after_eq_none {d : RuledDie} {b : Branch} (h : b.left.sum = 0) (face : Int) : b.after d face = none := by
  cases ha : b.after d face with
  | none => rfl
  | some b' =>
    have := after_sum ha
    omega

/-- What holds of a branch once it holds of every branch after it holds of all. -/
theorem after_induction {d : RuledDie} {P : Branch → Prop}
    (h : ∀ b, (∀ face b', b.after d face = some b' → P b') → P b) (b : Branch) : P b := by
  induction hn : b.left.sum using Nat.strongRecOn generalizing b with
  | _ n ih =>
    refine h b fun face b' hb' => ?_
    have hsum := after_sum hb'
    exact ih b'.left.sum (by omega) b' rfl

section
variable {m : Type → Type} [Monad m]

/-- Rolls a branch on for as long as a rule answers, and gives the total in the end. -/
def settle (draw : Nat → m Int) (d : RuledDie) : (fuel : Nat) → Branch → m Int
  | 0, b => return b.total (← d.toDie.roll draw)
  | fuel + 1, b => do
    let face ← d.toDie.roll draw
    match b.after d face with
    | none => return b.total face
    | some b' => settle draw d fuel b'

theorem settle_of_le (draw : Nat → m Int) (d : RuledDie) {fuel : Nat} {b : Branch}
    (h : b.left.sum ≤ fuel) : b.settle draw d fuel = b.settle draw d b.left.sum := by
  induction fuel generalizing b with
  | zero => rw [Nat.le_zero.mp h]
  | succ fuel ih =>
    cases hsum : b.left.sum with
    | zero =>
      simp only [settle, after_eq_none hsum]
    | succ uses =>
      simp only [settle]
      congr 1
      funext face
      cases ha : b.after d face with
      | none => rfl
      | some b' =>
        have hb' := after_sum ha
        show b'.settle draw d fuel = b'.settle draw d uses
        rw [ih (by omega), show b'.left.sum = uses by omega]

end

end Branch

namespace RuledDie

def valueOf (d : RuledDie) (total : Int) : Int :=
  if d.maps.isEmpty then total else (d.mapTotal total).value

theorem value_finish (d : RuledDie) {h : History} (hmapped : h.mapped = none) {total : Int}
    (htotal : h.total = some total) : (d.finish h).value = d.valueOf total := by
  unfold finish valueOf
  split
  · simp [History.value, History.value?, hmapped, htotal]
  · simp [History.value, History.value?, History.map, htotal]

section
variable {m : Type → Type} [Monad m] [LawfulMonad m]

theorem rollOn_eq_settle (draw : Nat → m Int) (d : RuledDie) (fuel : Nat) {h : History} {b : Branch}
    (hrunning : h.running = b.running) (hfirst : h.steps.size = 0 ↔ b.running.total = none) :
    (do let face ← d.toDie.roll draw
        let h' ← d.rollOn draw fuel b.left face (h.add face b.effect)
        return (d.finish h').value) =
      d.valueOf <$> b.settle draw d fuel := by
  have hend : ∀ face, (d.finish (h.add face b.effect)).value = d.valueOf (b.total face) :=
    fun face => value_finish d rfl (by rw [Branch.total, ← hrunning]; rfl)
  induction fuel generalizing h b with
  | zero => simp [rollOn, Branch.settle, hend]
  | succ fuel ih =>
    simp only [Branch.settle, map_bind]
    congr 1
    funext face
    have hsize : decide ((h.add face b.effect).steps.size = 1) = b.running.total.isNone := by
      rw [Bool.eq_iff_iff, Option.isNone_iff_eq_none, ← hfirst]
      simp [History.add]
    simp only [rollOn, hsize, Branch.after]
    cases hrule : useRule d.rerolls b.left face b.running.total.isNone with
    | none => simp [hend]
    | some next =>
      obtain ⟨effect, left⟩ := next
      simp only [bind_assoc, Option.map_some]
      exact ih (b := ⟨b.running.join face b.effect, left, effect⟩)
        (by rw [← hrunning]; rfl) (by simp [History.add, Running.join])
        fun face' => value_finish d rfl (by rw [Branch.total, ← hrunning]; rfl)

/-- The value of a roll is the value of the total that its first branch settles at. -/
theorem value_roll (draw : Nat → m Int) (d : RuledDie) :
    History.value <$> d.roll draw =
      d.valueOf <$> (Branch.start d).settle draw d (Branch.start d).left.sum := by
  rw [← rollOn_eq_settle draw d _ (h := {}) rfl (by simp [Branch.start])]
  simp only [roll, map_bind, map_pure]
  rfl

end

end RuledDie

namespace Branch

/-- The mean of a function of the total that a branch settles at. -/
def worth (d : RuledDie) (f : Int → Rat) (b : Branch) : Rat :=
  (b.settle Law.uniform d b.left.sum).mean f

def worthAfter (d : RuledDie) (f : Int → Rat) (b : Branch) (face : Int) : Rat :=
  match b.after d face with
  | none => f (b.total face)
  | some b' => b'.worth d f

theorem worth_eq (d : RuledDie) (f : Int → Rat) (b : Branch) :
    b.worth d f = (d.toDie.roll Law.uniform).mean (b.worthAfter d f) := by
  rw [worth, ← settle_of_le _ d (Nat.le_succ b.left.sum), settle, Law.mean_bind]
  congr 1
  funext face
  unfold worthAfter
  cases ha : b.after d face with
  | none => exact Law.mean_pure _ _
  | some b' =>
    have hb' := after_sum ha
    show (b'.settle Law.uniform d b.left.sum).mean f = b'.worth d f
    rw [settle_of_le _ d (by omega)]
    rfl

theorem worth_const (d : RuledDie) (c : Rat) (b : Branch) : b.worth d (fun _ => c) = c := by
  induction b using after_induction (d := d) with
  | _ b ih =>
    have hface : b.worthAfter d (fun _ => c) = fun _ => c := funext fun face => by
      unfold worthAfter
      cases ha : b.after d face with
      | none => rfl
      | some b' => exact ih face b' ha
    rw [worth_eq, hface, Law.mean_roll_const]

theorem worth_mono (d : RuledDie) {f g : Int → Rat} (h : ∀ t, f t ≤ g t) (b : Branch) :
    b.worth d f ≤ b.worth d g := by
  induction b using after_induction (d := d) with
  | _ b ih =>
    rw [worth_eq, worth_eq]
    refine (Law.nonneg_roll d.toDie).mean_mono fun o _ => ?_
    unfold worthAfter
    cases ha : b.after d o.1 with
    | none => exact h _
    | some b' => exact ih o.1 b' ha

end Branch

end TabletopDice
