import Mathlib.Algebra.Order.Archimedean.Basic
import Mathlib.Algebra.Order.Ring.Pow
import Mathlib.Data.Int.Log
import Mathlib.Data.Rat.Floor
import Mathlib.Tactic.FieldSimp
import Mathlib.Tactic.GCongr
import Mathlib.Tactic.Linarith
import Mathlib.Tactic.NormNum
import Mathlib.Tactic.Positivity
import Mathlib.Tactic.Ring
import TabletopDice.Decimal.Binary64
import TabletopDice.Proofs.Odds.Pool

/-!
# Rounded masses

Fractions of 53 binary digits, where every sum, product and quotient goes to the
nearest such fraction. Each rounding is off by one part in `2 ^ 53` at most, so
what was rounded a number of times is known up to that many parts. A pool of
rounded masses holds what was added to it up to one rounding for each addition.
-/

namespace TabletopDice

open Decimal.Binary64 (roundDiv)

-- ---------------------------------------------------------------------------
-- Rounding
-- ---------------------------------------------------------------------------

theorem abs_roundDiv_sub_le (num : Nat) {den : Nat} (h : 0 < den) :
    |(roundDiv num den : Rat) - num / den| ≤ 1 / 2 := by
  have hden : (0 : Rat) < den := Nat.cast_pos.mpr h
  have hmod : (num % den : Nat) ≤ (den : Rat) := by exact_mod_cast (Nat.mod_lt num h).le
  have hsplit : (num : Rat) / den = (num / den : Nat) + (num % den : Nat) / den := by
    have hnum : (num : Rat) = den * (num / den : Nat) + (num % den : Nat) := by
      exact_mod_cast (Nat.div_add_mod num den).symm
    rw [div_eq_iff hden.ne', add_mul, div_mul_cancel₀ _ hden.ne', mul_comm]
    exact hnum
  rw [hsplit, abs_le]
  unfold roundDiv
  dsimp only
  split
  · -- The remainder is half of the denominator at most.
    have hhalf : (num % den : Nat) / (den : Rat) ≤ 1 / 2 := by
      have hle : 2 * (num % den) ≤ den := by
        simp only [Bool.or_eq_true, Bool.and_eq_true, decide_eq_true_eq] at *
        omega
      rw [div_le_iff₀ hden]
      have : (2 : Rat) * (num % den : Nat) ≤ den := by exact_mod_cast hle
      linarith
    have hpos : (0 : Rat) ≤ (num % den : Nat) / (den : Rat) := by positivity
    constructor <;> linarith
  · have hhalf : 1 / 2 ≤ (num % den : Nat) / (den : Rat) := by
      have hle : den ≤ 2 * (num % den) := by
        simp only [Bool.or_eq_true, Bool.and_eq_true, decide_eq_true_eq] at *
        omega
      rw [le_div_iff₀ hden]
      have : (den : Rat) ≤ 2 * (num % den : Nat) := by exact_mod_cast hle
      linarith
    have hone : (num % den : Nat) / (den : Rat) ≤ 1 := (div_le_one hden).mpr hmod
    push_cast
    constructor <;> linarith

structure Rounded where
  value : Rat
deriving DecidableEq

namespace Rounded

def spacing (q : Rat) : Rat := 2 ^ (Int.log 2 |q| - 52)

/-- The nearest fraction of 53 digits, a tie to the even neighbour. -/
def nearest (q : Rat) : Rat :=
  let steps := |q| / spacing q
  let size := roundDiv steps.num.natAbs steps.den * spacing q
  if q < 0 then -size else size

def of (q : Rat) : Rounded := ⟨nearest q⟩

def roundoff : Rat := 1 / 2 ^ 53

theorem roundoff_pos : 0 < roundoff := by norm_num [roundoff]

theorem roundoff_lt_one : roundoff < 1 := by norm_num [roundoff]

theorem spacing_pos (q : Rat) : 0 < spacing q := zpow_pos two_pos _

theorem spacing_le {q : Rat} (hq : q ≠ 0) : spacing q ≤ 2 * roundoff * |q| := by
  have hlog : (2 : Rat) ^ Int.log 2 |q| ≤ |q| := by
    exact_mod_cast Int.zpow_log_le_self one_lt_two (abs_pos.mpr hq)
  calc spacing q = (2 : Rat) ^ Int.log 2 |q| / 2 ^ (52 : Int) := zpow_sub₀ two_ne_zero _ _
    _ ≤ |q| / 2 ^ (52 : Int) := by gcongr
    _ = 2 * roundoff * |q| := by
      norm_num [roundoff]
      ring

theorem abs_nearest_sub_le (q : Rat) : |nearest q - q| ≤ roundoff * |q| := by
  rcases eq_or_ne q 0 with rfl | hq
  · decide +kernel
  have hspacing := spacing_pos q
  set steps := |q| / spacing q with hsteps
  have hsize : |q| = steps * spacing q := (div_mul_cancel₀ _ hspacing.ne').symm
  have hnum : (steps.num.natAbs : Rat) / steps.den = steps := by
    have hnonneg : 0 ≤ steps.num := Rat.num_nonneg.mpr (by positivity)
    conv_rhs => rw [← Rat.num_div_den steps, ← Int.natAbs_of_nonneg hnonneg]
    rw [Int.cast_natCast]
  have hround := abs_roundDiv_sub_le steps.num.natAbs steps.den_pos
  rw [hnum] at hround
  have hdist : |nearest q - q| = |roundDiv steps.num.natAbs steps.den * spacing q - abs q| := by
    simp only [nearest, ← hsteps]
    split
    · rename_i hneg
      rw [abs_of_neg hneg, ← abs_neg]
      congr 1
      ring
    · rename_i hnonneg
      rw [abs_of_nonneg (not_lt.mp hnonneg)]
  rw [hsize, ← sub_mul, abs_mul, abs_of_pos hspacing] at hdist
  calc |nearest q - q| ≤ 1 / 2 * spacing q := hdist ▸ by gcongr
    _ ≤ 1 / 2 * (2 * roundoff * |q|) := by
      have := spacing_le hq
      gcongr
    _ = roundoff * |q| := by ring

instance : Mass Rounded where
  zero := ⟨0⟩
  one := ⟨1⟩
  add p q := of (p.value + q.value)
  sub p q := of (p.value - q.value)
  mul p q := of (p.value * q.value)
  div p q := of (p.value / q.value)
  le p q := p.value ≤ q.value
  lt p q := p.value < q.value
  beq p q := p.value == q.value
  decidableLE p q := inferInstanceAs (Decidable (p.value ≤ q.value))
  decidableLT p q := inferInstanceAs (Decidable (p.value < q.value))
  pow p n := of (p.value ^ n)
  powOverflows _ _ := false
  ofInt n := of n
  holds _ := true
  ofDecimal digits places := of (digits / 10 ^ places)
  total ps := of (ps.map value).sum
  totalFault? _ := none
  isFinite _ := true
  text p := fractionText p.value
  fixed places p := fractionFixed places p.value

@[simp] theorem value_zero : (0 : Rounded).value = 0 := rfl

@[simp] theorem value_one : (1 : Rounded).value = 1 := rfl

@[simp] theorem value_add (p q : Rounded) : (p + q).value = nearest (p.value + q.value) := rfl

@[simp] theorem value_sub (p q : Rounded) : (p - q).value = nearest (p.value - q.value) := rfl

@[simp] theorem value_div (p q : Rounded) : (p / q).value = nearest (p.value / q.value) := rfl

@[simp] theorem value_ofInt (n : Int) : (Mass.ofInt n : Rounded).value = nearest n := rfl

@[simp] theorem value_total (ps : List Rounded) :
    (Mass.total ps).value = nearest (ps.map value).sum := rfl

theorem lt_iff {p q : Rounded} : p < q ↔ p.value < q.value := Iff.rfl

theorem zero_mem_unit : (0 : Rounded) ≤ 0 ∧ (0 : Rounded) ≤ 1 :=
  ⟨le_refl (0 : Rat), zero_le_one (α := Rat)⟩

instance : LawfulBEq Rounded where
  rfl {p} := beq_self_eq_true p.value
  eq_of_beq {p q} h := by
    obtain ⟨x⟩ := p
    obtain ⟨y⟩ := q
    exact congrArg mk (eq_of_beq (a := x) (b := y) h)

-- ---------------------------------------------------------------------------
-- Some roundings apart
-- ---------------------------------------------------------------------------

/-- Either of two numbers is the other one up to so many roundings. -/
structure Within (n : Nat) (x y : Rat) : Prop where
  le_right : (1 - roundoff) ^ n * x ≤ y
  le_left : (1 - roundoff) ^ n * y ≤ x

theorem keep_pos : 0 < 1 - roundoff := sub_pos.mpr roundoff_lt_one

theorem keep_pow_le_one (n : Nat) : (1 - roundoff) ^ n ≤ 1 :=
  pow_le_one₀ keep_pos.le (sub_le_self 1 roundoff_pos.le)

theorem within_nearest {q : Rat} (h : 0 ≤ q) : Within 1 q (nearest q) := by
  obtain ⟨hlow, hhigh⟩ := abs_le.mp (abs_nearest_sub_le q)
  rw [abs_of_nonneg h] at hlow hhigh
  have hu := roundoff_pos
  refine ⟨by linarith, ?_⟩
  calc (1 - roundoff) ^ 1 * nearest q ≤ (1 - roundoff) * ((1 + roundoff) * q) := by
        rw [pow_one]
        exact mul_le_mul_of_nonneg_left (by linarith) keep_pos.le
    _ = q - roundoff ^ 2 * q := by ring
    _ ≤ q := sub_le_self q (by positivity)

theorem nearest_nonneg {q : Rat} (h : 0 ≤ q) : 0 ≤ nearest q :=
  (mul_nonneg (pow_nonneg keep_pos.le 1) h).trans (within_nearest h).le_right

theorem nearest_pos {q : Rat} (h : 0 < q) : 0 < nearest q :=
  (mul_pos (pow_pos keep_pos 1) h).trans_le (within_nearest h.le).le_right

theorem nearest_le (q : Rat) : nearest q ≤ 2 * |q| := by
  have hround := (abs_le.mp (abs_nearest_sub_le q)).2
  have hone := mul_le_of_le_one_left (abs_nonneg q) roundoff_lt_one.le
  have hself := le_abs_self q
  linarith

/-- So many roundings leave one within a quarter of a millionth. -/
def maxRoundings : Nat := 2 ^ 31

namespace Within

variable {m n : Nat} {x y z r : Rat}

theorem refl (h : 0 ≤ x) : Within n x x :=
  ⟨mul_le_of_le_one_left h (keep_pow_le_one n), mul_le_of_le_one_left h (keep_pow_le_one n)⟩

theorem trans (h : Within m x y) (h' : Within n y z) : Within (m + n) x z := by
  have hm := (pow_pos keep_pos m).le
  have hn := (pow_pos keep_pos n).le
  constructor
  · rw [pow_add, mul_comm (_ ^ m), mul_assoc]
    exact (mul_le_mul_of_nonneg_left h.le_right hn).trans h'.le_right
  · rw [pow_add, mul_assoc]
    exact (mul_le_mul_of_nonneg_left h'.le_left hm).trans h.le_left

theorem add_right (h : Within n x y) (hr : 0 ≤ r) : Within n (x + r) (y + r) := by
  have hkeep := mul_le_of_le_one_left hr (keep_pow_le_one n)
  constructor
  · rw [mul_add]
    exact add_le_add h.le_right hkeep
  · rw [mul_add]
    exact add_le_add h.le_left hkeep

theorem mul_left (h : Within n x y) (hr : 0 ≤ r) : Within n (r * x) (r * y) := by
  constructor
  · rw [mul_left_comm]
    exact mul_le_mul_of_nonneg_left h.le_right hr
  · rw [mul_left_comm]
    exact mul_le_mul_of_nonneg_left h.le_left hr

theorem div_left (h : Within n x y) (hx : 0 < x) (hy : 0 < y) (hr : 0 ≤ r) :
    Within n (r / x) (r / y) := by
  have hinv : Within n (1 / x) (1 / y) := by
    constructor
    · rw [mul_one_div, div_le_div_iff₀ hx hy, one_mul]
      exact h.le_left
    · rw [mul_one_div, div_le_div_iff₀ hy hx, one_mul]
      exact h.le_right
  simpa only [mul_one_div] using hinv.mul_left hr

theorem nonneg (h : Within n x y) (hx : 0 ≤ x) : 0 ≤ y :=
  (mul_nonneg (pow_pos keep_pos n).le hx).trans h.le_right

theorem mono (h : Within m x y) (hx : 0 ≤ x) (hmn : m ≤ n) : Within n x y := by
  obtain ⟨k, rfl⟩ := Nat.exists_eq_add_of_le hmn
  exact h.trans (refl (h.nonneg hx))

/-- So many roundings take as many parts away at most. -/
theorem sub_le (h : Within n x y) (hx : 0 ≤ x) :
    (1 - n * roundoff) * x ≤ y ∧ (1 - n * roundoff) * y ≤ x := by
  have hbernoulli : 1 - n * roundoff ≤ (1 - roundoff) ^ n := by
    have hone := roundoff_lt_one
    have hpow := one_add_mul_le_pow (a := -roundoff) (by linarith) n
    rwa [mul_neg, ← sub_eq_add_neg, ← sub_eq_add_neg] at hpow
  exact ⟨(mul_le_mul_of_nonneg_right hbernoulli hx).trans h.le_right,
    (mul_le_mul_of_nonneg_right hbernoulli (h.nonneg hx)).trans h.le_left⟩

theorem abs_sub_one_le (h : Within n 1 x) (hn : n ≤ maxRoundings + 1) : |x - 1| ≤ 1 / 4000000 := by
  obtain ⟨hlow, hhigh⟩ := h.sub_le zero_le_one
  have hx := h.nonneg zero_le_one
  have hparts : n * roundoff ≤ (maxRoundings + 1 : Nat) * roundoff :=
    mul_le_mul_of_nonneg_right (Nat.cast_le.mpr hn) roundoff_pos.le
  have hmost : ((maxRoundings + 1 : Nat) : Rat) * roundoff ≤ 1 / 4100000 := by decide +kernel
  have hpart : n * roundoff * x ≤ 1 / 4100000 * x :=
    mul_le_mul_of_nonneg_right (hparts.trans hmost) hx
  rw [abs_le]
  constructor <;> linarith

end Within

/-- Steps that each add so much, up to a number of roundings, add up. -/
theorem within_foldl {β γ : Type} {step : β → γ → β} (Q : β → Prop) (k : Nat) (xs : List γ)
    {g : β → Rat} {w : γ → Rat} {b : β} (h0 : Q b) (hQ : ∀ b, ∀ x ∈ xs, Q b → Q (step b x))
    (hw : ∀ x ∈ xs, 0 ≤ w x) (hg0 : ∀ b, Q b → 0 ≤ g b)
    (hg : ∀ b, ∀ x ∈ xs, Q b → Within k (g b + w x) (g (step b x))) :
    Within (k * xs.length) (g b + (xs.map w).sum) (g (xs.foldl step b)) := by
  induction xs generalizing b with
  | nil => simpa using Within.refl (hg0 b h0)
  | cons x xs ih =>
    rw [List.forall_mem_cons] at hw
    have hx := List.mem_cons_self (a := x) (l := xs)
    have hrest : 0 ≤ (xs.map w).sum := List.sum_nonneg (by simpa using hw.2)
    have hfirst := (hg b x hx h0).add_right hrest
    have hmore := ih (hQ b x hx h0) (fun b y hy => hQ b y (List.mem_cons_of_mem x hy)) hw.2
      fun b y hy => hg b y (List.mem_cons_of_mem x hy)
    rw [List.map_cons, List.sum_cons, ← add_assoc, List.length_cons, Nat.mul_succ, Nat.add_comm]
    exact hfirst.trans hmore

end Rounded

end TabletopDice
