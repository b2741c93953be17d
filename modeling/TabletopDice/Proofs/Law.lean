import Mathlib.Algebra.BigOperators.Ring.Finset
import Mathlib.Algebra.BigOperators.Ring.List
import Mathlib.Algebra.Order.BigOperators.Group.List
import Mathlib.Algebra.Order.Ring.Rat
import Mathlib.Data.Set.Basic
import Mathlib.Tactic.Ring
import Mathlib.Tactic.Linarith
import Mathlib.Tactic.FieldSimp
import TabletopDice.Dice.Die
import TabletopDice.Odds.Mass

/-!
# Laws of random computations

A law lists the outcomes of a computation that draws at random, each with its
weight. Run in this monad with uniform draws, a roll is read as its
distribution: one draw after another multiplies their weights. Means over a
law, and the probabilities that are means of indicators, are all that the odds
are compared with. The weights of a law need not add up to one.
-/

namespace TabletopDice

/-- Outcomes with their weights; one outcome may be listed more than once. -/
structure Law (β : Type) where
  outcomes : List (β × Rat)

namespace Law

variable {β γ : Type}

instance : Monad Law where
  pure b := ⟨[(b, 1)]⟩
  bind l f := ⟨l.outcomes.flatMap fun o => (f o.1).outcomes.map fun p => (p.1, o.2 * p.2)⟩

def uniform (faces : Nat) : Law Int :=
  ⟨(List.range faces).map fun (i : Nat) => ((i : Int), 1 / (faces : Rat))⟩

def mean (l : Law β) (f : β → Rat) : Rat := (l.outcomes.map fun o => o.2 * f o.1).sum

def indicator (s : Set β) [DecidablePred (· ∈ s)] (b : β) : Rat := if b ∈ s then 1 else 0

def prob (l : Law β) (s : Set β) [DecidablePred (· ∈ s)] : Rat := l.mean (indicator s)

-- ---------------------------------------------------------------------------
-- The monad
-- ---------------------------------------------------------------------------

theorem pure_def (b : β) : (pure b : Law β) = ⟨[(b, 1)]⟩ := rfl

theorem bind_def (l : Law β) (f : β → Law γ) :
    l >>= f = ⟨l.outcomes.flatMap fun o => (f o.1).outcomes.map fun p => (p.1, o.2 * p.2)⟩ := rfl

instance : LawfulMonad Law := LawfulMonad.mk' Law
  (fun l => by
    show l >>= pure ∘ id = l
    simp [bind_def, pure_def, List.flatMap_singleton'])
  (fun b f => by simp [bind_def, pure_def])
  (fun l f g => by
    simp only [bind_def, mk.injEq, List.flatMap_assoc]
    refine List.flatMap_congr fun o _ => ?_
    simp only [List.flatMap_map, List.map_flatMap, List.map_map]
    refine List.flatMap_congr fun p _ => ?_
    simp [Function.comp_def, mul_assoc])

-- ---------------------------------------------------------------------------
-- Means
-- ---------------------------------------------------------------------------

@[simp] theorem mean_mk_nil (f : β → Rat) : mean ⟨[]⟩ f = 0 := rfl

@[simp] theorem mean_mk_cons (o : β × Rat) (os : List (β × Rat)) (f : β → Rat) :
    mean ⟨o :: os⟩ f = o.2 * f o.1 + mean ⟨os⟩ f := rfl

@[simp] theorem mean_mk_append (os ps : List (β × Rat)) (f : β → Rat) :
    mean ⟨os ++ ps⟩ f = mean ⟨os⟩ f + mean ⟨ps⟩ f := by
  simp [mean]

@[simp] theorem mean_pure (b : β) (f : β → Rat) : (pure b : Law β).mean f = f b := by
  simp [pure_def]

@[simp] theorem mean_bind (l : Law β) (k : β → Law γ) (f : γ → Rat) :
    (l >>= k).mean f = l.mean fun b => (k b).mean f := by
  obtain ⟨os⟩ := l
  induction os with
  | nil => rfl
  | cons o os ih =>
    have hscaled : mean ⟨(k o.1).outcomes.map fun p => (p.1, o.2 * p.2)⟩ f = o.2 * (k o.1).mean f := by
      simp only [mean, List.map_map, Function.comp_def, mul_assoc, List.sum_map_mul_left]
    rw [bind_def] at ih ⊢
    simp only [List.flatMap_cons, mean_mk_append, mean_mk_cons, hscaled, ih]

@[simp] theorem mean_map (l : Law β) (g : β → γ) (f : γ → Rat) :
    (g <$> l).mean f = l.mean fun b => f (g b) := by
  rw [← bind_pure_comp, mean_bind]
  simp

theorem mean_congr {l : Law β} {f g : β → Rat} (h : ∀ o ∈ l.outcomes, f o.1 = g o.1) :
    l.mean f = l.mean g := by
  unfold mean
  exact congrArg List.sum (List.map_congr_left fun o ho => by rw [h o ho])

theorem mean_add (l : Law β) (f g : β → Rat) :
    (l.mean fun b => f b + g b) = l.mean f + l.mean g := by
  simp only [mean, mul_add, List.sum_map_add]

theorem mean_sub (l : Law β) (f g : β → Rat) :
    (l.mean fun b => f b - g b) = l.mean f - l.mean g := by
  have h := l.mean_add (fun b => f b - g b) g
  simp only [sub_add_cancel] at h
  linarith

theorem mean_mul_left (l : Law β) (c : Rat) (f : β → Rat) :
    (l.mean fun b => c * f b) = c * l.mean f := by
  simp only [mean, mul_left_comm _ c, List.sum_map_mul_left]

theorem mean_mul_right (l : Law β) (c : Rat) (f : β → Rat) :
    (l.mean fun b => f b * c) = l.mean f * c := by
  simp only [mul_comm _ c, mean_mul_left]

theorem mean_const (l : Law β) (c : Rat) : (l.mean fun _ => c) = (l.mean fun _ => 1) * c := by
  rw [← mean_mul_right]
  simp only [one_mul]

theorem mean_finset_sum {ι : Type} (l : Law β) (s : Finset ι) (f : ι → β → Rat) :
    (l.mean fun b => ∑ i ∈ s, f i b) = ∑ i ∈ s, l.mean (f i) := by
  obtain ⟨os⟩ := l
  induction os with
  | nil => simp
  | cons o os ih => simp only [mean_mk_cons, ih, Finset.mul_sum, Finset.sum_add_distrib]

theorem mean_eq_zero {l : Law β} {f : β → Rat} (h : ∀ o ∈ l.outcomes, f o.1 = 0) :
    l.mean f = 0 := by
  rw [mean_congr (g := fun _ => 0) h]
  simp [mean]

theorem mean_list_sum {ι : Type} (l : Law β) (is : List ι) (f : ι → β → Rat) :
    (l.mean fun b => (is.map fun i => f i b).sum) = (is.map fun i => l.mean (f i)).sum := by
  induction is with
  | nil => exact mean_eq_zero fun _ _ => rfl
  | cons i is ih => simp only [List.map_cons, List.sum_cons, mean_add, ih]

theorem mean_comm (l : Law β) (m : Law γ) (f : β → γ → Rat) :
    (l.mean fun b => m.mean (f b)) = m.mean fun c => l.mean fun b => f b c := by
  obtain ⟨os⟩ := l
  induction os with
  | nil => simp [mean]
  | cons o os ih => simp only [mean_mk_cons, ih, mean_add, mean_mul_left]

-- ---------------------------------------------------------------------------
-- Classes of outcomes
-- ---------------------------------------------------------------------------

def only (l : Law β) (P : β → Bool) : Law β := ⟨l.outcomes.filter fun o => P o.1⟩

theorem mem_only {l : Law β} {P : β → Bool} {o : β × Rat} :
    o ∈ (l.only P).outcomes ↔ o ∈ l.outcomes ∧ P o.1 := by
  simp [only]

theorem only_only (l : Law β) (P Q : β → Bool) :
    (l.only P).only Q = l.only fun b => P b && Q b := by
  simp only [only, List.filter_filter, Bool.and_comm]

theorem mean_only (l : Law β) (P : β → Bool) (f : β → Rat) :
    (l.only P).mean f = l.mean fun b => if P b then f b else 0 := by
  obtain ⟨os⟩ := l
  induction os with
  | nil => rfl
  | cons o os ih =>
    simp only [only] at ih ⊢
    cases h : P o.1 <;> simp [h, ih]

theorem mean_only_of_forall {l : Law β} {P : β → Bool} (h : ∀ o ∈ l.outcomes, P o.1)
    (f : β → Rat) : (l.only P).mean f = l.mean f := by
  rw [mean_only]
  exact mean_congr fun o ho => if_pos (h o ho)

theorem mean_only_of_forall_not {l : Law β} {P : β → Bool} (h : ∀ o ∈ l.outcomes, P o.1 = false)
    (f : β → Rat) : (l.only P).mean f = 0 := by
  rw [mean_only]
  exact mean_eq_zero fun o ho => by simp [h o ho]

theorem prob_only [DecidableEq β] (l : Law β) (P : β → Bool) (b : β) :
    (l.only P).prob {b} = if P b then l.prob {b} else 0 := by
  rw [prob, mean_only]
  split
  · rename_i hb
    refine mean_congr fun o _ => ?_
    by_cases ho : o.1 = b
    · rw [ho, if_pos hb]
    · simp [indicator, ho]
  · rename_i hb
    refine mean_eq_zero fun o _ => ?_
    by_cases ho : o.1 = b
    · rw [ho, if_neg hb]
    · simp [indicator, ho]

theorem mean_eq_only_add (l : Law β) (P : β → Bool) (f : β → Rat) :
    l.mean f = (l.only P).mean f + (l.only (!P ·)).mean f := by
  simp only [mean_only, ← mean_add]
  refine mean_congr fun o _ => ?_
  cases P o.1 <;> simp

-- ---------------------------------------------------------------------------
-- Weights that are not negative
-- ---------------------------------------------------------------------------

def Nonneg (l : Law β) : Prop := ∀ o ∈ l.outcomes, 0 ≤ o.2

theorem Nonneg.mean_mono {l : Law β} (h : l.Nonneg) {f g : β → Rat}
    (hfg : ∀ o ∈ l.outcomes, f o.1 ≤ g o.1) : l.mean f ≤ l.mean g :=
  List.sum_le_sum fun o ho => mul_le_mul_of_nonneg_left (hfg o ho) (h o ho)

theorem Nonneg.mean_nonneg {l : Law β} (h : l.Nonneg) {f : β → Rat} (hf : ∀ b, 0 ≤ f b) :
    0 ≤ l.mean f :=
  List.sum_nonneg (by
    intro x hx
    obtain ⟨o, ho, rfl⟩ := List.mem_map.mp hx
    exact mul_nonneg (h o ho) (hf o.1))

theorem Nonneg.mean_eq_zero {l : Law β} (h : l.Nonneg) (hl : (l.mean fun _ => 1) = 0)
    (f : β → Rat) : l.mean f = 0 := by
  obtain ⟨os⟩ := l
  induction os with
  | nil => rfl
  | cons o os ih =>
    have hos : Nonneg ⟨os⟩ := fun p hp => h p (List.mem_cons_of_mem o hp)
    have hrest := hos.mean_nonneg fun _ => zero_le_one
    have ho := h o List.mem_cons_self
    rw [mean_mk_cons, mul_one] at hl
    rw [mean_mk_cons, ih hos (by linarith), show o.2 = 0 by linarith]
    ring

theorem Nonneg.only {l : Law β} (h : l.Nonneg) (P : β → Bool) : (l.only P).Nonneg :=
  fun o ho => h o (mem_only.mp ho).1

/-- Means are no further apart than what is averaged is, outcome by outcome. -/
theorem Nonneg.abs_mean_sub_le {l : Law β} (h : l.Nonneg) {f g u : β → Rat}
    (hfg : ∀ o ∈ l.outcomes, |f o.1 - g o.1| ≤ u o.1) : |l.mean f - l.mean g| ≤ l.mean u := by
  rw [← mean_sub]
  refine abs_le.mpr ⟨?_, h.mean_mono fun o ho => (abs_le.mp (hfg o ho)).2⟩
  rw [← neg_one_mul, ← mean_mul_left]
  refine h.mean_mono fun o ho => ?_
  rw [neg_one_mul]
  exact (abs_le.mp (hfg o ho)).1

theorem mean_filter_pos {l : Law β} (h : l.Nonneg) (f : β → Rat) :
    mean ⟨l.outcomes.filter fun o => 0 < o.2⟩ f = l.mean f := by
  obtain ⟨os⟩ := l
  induction os with
  | nil => rfl
  | cons o os ih =>
    have hos := ih fun p hp => h p (List.mem_cons_of_mem o hp)
    by_cases ho : 0 < o.2
    · simp [ho, hos]
    · have hzero : o.2 = 0 := le_antisymm (not_lt.mp ho) (h o List.mem_cons_self)
      simp [hzero, hos]

theorem indicator_nonneg (s : Set β) [DecidablePred (· ∈ s)] (b : β) : 0 ≤ indicator s b := by
  unfold indicator
  split <;> norm_num

theorem indicator_le_one (s : Set β) [DecidablePred (· ∈ s)] (b : β) : indicator s b ≤ 1 := by
  unfold indicator
  split <;> norm_num

-- ---------------------------------------------------------------------------
-- Uniform draws
-- ---------------------------------------------------------------------------

theorem mean_uniform (faces : Nat) (f : Int → Rat) :
    (uniform faces).mean f = ((List.range faces).map fun (i : Nat) => f i).sum / faces := by
  simp only [mean, uniform, List.map_map, Function.comp_def, List.sum_map_mul_left]
  ring

theorem mean_roll (d : Die) (f : Int → Rat) :
    (d.roll uniform).mean f = (d.faces.map f).sum / d.sides := by
  simp only [Die.roll, mean_bind, mean_pure, mean_uniform, Die.faces, List.map_map]
  simp [Function.comp_def]

theorem mean_roll_const (d : Die) (c : Rat) : ((d.roll uniform).mean fun _ => c) = c := by
  have hsides : (d.sides : Rat) ≠ 0 := Nat.cast_ne_zero.mpr d.sides_pos.ne'
  rw [mean_roll]
  simp only [Die.faces, List.map_map, Function.comp_def, List.map_const', List.sum_replicate,
    List.length_range, nsmul_eq_mul]
  field_simp

theorem mem_roll {d : Die} {o : Int × Rat} (h : o ∈ (d.roll uniform).outcomes) :
    o.1 ∈ d.faces ∧ 0 ≤ o.2 := by
  simp only [Die.roll, bind_def, pure_def, uniform, List.mem_flatMap, List.mem_map] at h
  obtain ⟨_, ⟨i, hi, rfl⟩, p, hp, rfl⟩ := h
  obtain rfl := List.mem_singleton.mp hp
  exact ⟨List.mem_map.mpr ⟨i, hi, by simp⟩, by simp⟩

theorem nonneg_roll (d : Die) : (d.roll uniform).Nonneg := fun _ ho => (mem_roll ho).2

end Law

-- ---------------------------------------------------------------------------
-- Faces
-- ---------------------------------------------------------------------------

namespace Die

@[simp] theorem length_faces (d : Die) : d.faces.length = d.sides := by
  simp [faces]

theorem mem_faces {d : Die} {face : Int} : face ∈ d.faces ↔ 1 ≤ face ∧ face ≤ d.sides := by
  simp only [faces, List.mem_map, List.mem_range]
  constructor
  · rintro ⟨i, hi, rfl⟩
    constructor <;> omega
  · rintro ⟨hlow, hhigh⟩
    exact ⟨(face - 1).toNat, by omega, by omega⟩

theorem sides_mem_faces (d : Die) : (d.sides : Int) ∈ d.faces := by
  have hpos := d.sides_pos
  exact mem_faces.mpr ⟨by omega, le_rfl⟩

end Die

end TabletopDice
