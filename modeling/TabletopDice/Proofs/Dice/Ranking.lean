import Mathlib.Algebra.BigOperators.Group.List.Basic
import Mathlib.Algebra.Order.BigOperators.Group.List
import Mathlib.Tactic.Ring
import TabletopDice.Dice.Bunch

/-!
# Ranked results

Results in the order of preference of a keep mode. The first `k` of them are
the results preferred to the last one that is kept, and as many equal to it as
are missing. Which result is the last one kept can be told from how many are
preferred to it and how many are equal to it.
-/

namespace TabletopDice

namespace KeepMode

def prefers : KeepMode → Int → Int → Bool
  | .best, x, q => q < x
  | .worst, x, q => x < q

theorem prefers_self (mode : KeepMode) (q : Int) : mode.prefers q q = false := by
  cases mode <;> simp [prefers]

theorem prefers_asymm {mode : KeepMode} {x q : Int} (h : mode.prefers x q) :
    mode.prefers q x = false := by
  cases mode with
  | best => simp only [prefers, decide_eq_true_eq, decide_eq_false_iff_not] at h ⊢; omega
  | worst => simp only [prefers, decide_eq_true_eq, decide_eq_false_iff_not] at h ⊢; omega

theorem prefers_trans {mode : KeepMode} {x y q : Int} (hxy : mode.prefers y x = false)
    (hyq : mode.prefers y q) : mode.prefers x q := by
  cases mode with
  | best => simp only [prefers, decide_eq_true_eq, decide_eq_false_iff_not] at hxy hyq ⊢; omega
  | worst => simp only [prefers, decide_eq_true_eq, decide_eq_false_iff_not] at hxy hyq ⊢; omega

theorem prefers_of_le {mode : KeepMode} {x y q : Int} (hqx : mode.prefers q x)
    (hxy : mode.prefers y x = false) : mode.prefers q y := by
  cases mode with
  | best => simp only [prefers, decide_eq_true_eq, decide_eq_false_iff_not] at hqx hxy ⊢; omega
  | worst => simp only [prefers, decide_eq_true_eq, decide_eq_false_iff_not] at hqx hxy ⊢; omega

theorem prefers_of_ne {mode : KeepMode} {x q : Int} (hne : x ≠ q) (h : mode.prefers x q = false) :
    mode.prefers q x := by
  cases mode with
  | best => simp only [prefers, decide_eq_true_eq, decide_eq_false_iff_not] at h ⊢; omega
  | worst => simp only [prefers, decide_eq_true_eq, decide_eq_false_iff_not] at h ⊢; omega

def rank (mode : KeepMode) (xs : List Int) : List Int :=
  xs.mergeSort fun x y => !mode.prefers y x

def keptSum (mode : KeepMode) (k : Nat) (xs : List Int) : Int := ((mode.rank xs).take k).sum

theorem rank_perm (mode : KeepMode) (xs : List Int) : (mode.rank xs).Perm xs :=
  List.mergeSort_perm xs _

@[simp] theorem length_rank (mode : KeepMode) (xs : List Int) :
    (mode.rank xs).length = xs.length := (mode.rank_perm xs).length_eq

theorem rank_ordered (mode : KeepMode) (xs : List Int) :
    (mode.rank xs).Pairwise fun x y => mode.prefers y x = false := by
  refine (List.pairwise_mergeSort ?_ ?_ xs).imp fun h => by simpa using h
  · intro x y z hxy hyz
    cases mode <;> simp only [prefers, Bool.not_eq_true', decide_eq_false_iff_not] at * <;> omega
  · intro x y
    cases mode <;> simp only [prefers, Bool.or_eq_true, Bool.not_eq_true', decide_eq_false_iff_not]
      <;> omega

theorem eq_rank {mode : KeepMode} {xs ys : List Int} (hperm : ys.Perm xs)
    (h : ys.Pairwise fun x y => mode.prefers y x = false) : ys = mode.rank xs := by
  refine (hperm.trans (mode.rank_perm xs).symm).eq_of_pairwise ?_ h (mode.rank_ordered xs)
  intro x y _ _ hyx hxy
  by_contra hne
  rw [prefers_of_ne hne hxy] at hyx
  cases hyx

-- ---------------------------------------------------------------------------
-- Divisions of ranked results
-- ---------------------------------------------------------------------------

theorem filter_append_of_ordered {mode : KeepMode} {P : Int → Bool}
    (hP : ∀ x y, mode.prefers y x = false → P y → P x) {ys : List Int}
    (h : ys.Pairwise fun x y => mode.prefers y x = false) :
    ys.filter P ++ ys.filter (!P ·) = ys := by
  induction ys with
  | nil => rfl
  | cons y ys ih =>
    obtain ⟨hy, hys⟩ := List.pairwise_cons.mp h
    cases hPy : P y with
    | true => simp [hPy, ih hys]
    | false =>
      have hnone : ∀ z ∈ ys, P z = false := fun z hz => by
        cases hPz : P z with
        | false => rfl
        | true => exact absurd (hP y z (hy z hz) hPz) (by simp [hPy])
      have hnil : ys.filter P = [] := List.filter_eq_nil_iff.mpr fun z hz => by simp [hnone z hz]
      have hall : ys.filter (!P ·) = ys := List.filter_eq_self.mpr fun z hz => by simp [hnone z hz]
      simp [hPy, hnil, hall]

def above (mode : KeepMode) (q : Int) (xs : List Int) : List Int := xs.filter (mode.prefers · q)

theorem above_append_of_ordered {mode : KeepMode} (q : Int) {ys : List Int}
    (h : ys.Pairwise fun x y => mode.prefers y x = false) :
    mode.above q ys ++ List.replicate (ys.count q) q ++ ys.filter (mode.prefers q ·) = ys := by
  have hrejected := filter_append_of_ordered (P := fun x => !mode.prefers q x) (fun x y hxy hy => by
    cases hx : mode.prefers q x with
    | false => rfl
    | true => simp [prefers_of_le hx hxy] at hy) h
  have hkept := filter_append_of_ordered (P := (mode.prefers · q))
    (fun x y hxy hy => prefers_trans hxy hy) (h.filter fun x => !mode.prefers q x)
  have habove : ∀ x, (mode.prefers x q && !mode.prefers q x) = mode.prefers x q := fun x => by
    cases hx : mode.prefers x q with
    | false => rfl
    | true => simp [prefers_asymm hx]
  have htied : ∀ x, (!mode.prefers x q && !mode.prefers q x) = (x == q) := fun x => by
    rcases eq_or_ne x q with rfl | hne
    · simp [prefers_self]
    · cases hx : mode.prefers x q with
      | false => simp [hne, prefers_of_ne hne hx]
      | true => simp [hne]
  simp only [List.filter_filter, habove, htied, List.filter_beq, Bool.not_not] at hkept hrejected
  rw [above, hkept, hrejected]

-- ---------------------------------------------------------------------------
-- The last result that is kept
-- ---------------------------------------------------------------------------

/-- Of the `k` results that are kept the last one is `q`. -/
def IsLast (mode : KeepMode) (k : Nat) (q : Int) (xs : List Int) : Prop :=
  (mode.above q xs).length < k ∧ k ≤ (mode.above q xs).length + xs.count q

instance (mode : KeepMode) (k : Nat) (q : Int) (xs : List Int) :
    Decidable (mode.IsLast k q xs) := inferInstanceAs (Decidable (_ ∧ _))

theorem above_perm (mode : KeepMode) (q : Int) (xs : List Int) :
    (mode.above q (mode.rank xs)).Perm (mode.above q xs) := (mode.rank_perm xs).filter _

theorem isLast_rank {mode : KeepMode} {k : Nat} {q : Int} {xs : List Int} :
    mode.IsLast k q (mode.rank xs) ↔ mode.IsLast k q xs := by
  unfold IsLast
  rw [(mode.above_perm q xs).length_eq, (mode.rank_perm xs).count_eq]

/-- The kept results are those preferred to the last one, and the last one as often as they are
too few. -/
theorem IsLast.keptSum {mode : KeepMode} {k : Nat} {q : Int} {xs : List Int}
    (h : mode.IsLast k q xs) :
    mode.keptSum k xs = (mode.above q xs).sum + q * (k - (mode.above q xs).length : Nat) := by
  obtain ⟨hlt, hle⟩ := isLast_rank.mpr h
  have hperm := mode.above_perm q xs
  have hrank := above_append_of_ordered q (mode.rank_ordered xs)
  rw [KeepMode.keptSum, ← hrank, List.append_assoc, List.take_append, List.take_append,
    List.take_of_length_le hlt.le, List.take_replicate, List.length_replicate,
    Nat.sub_eq_zero_of_le (n := k - (mode.above q (mode.rank xs)).length) (by omega),
    List.take_zero, List.append_nil, List.sum_append, List.sum_replicate, Nat.min_eq_left (by omega),
    hperm.sum_eq, hperm.length_eq, nsmul_eq_mul, mul_comm]

theorem exists_isLast (mode : KeepMode) {k : Nat} (hk : 0 < k) {xs : List Int}
    (hle : k ≤ xs.length) : ∃ q ∈ xs, mode.IsLast k q xs := by
  have hlt : k - 1 < (mode.rank xs).length := by rw [length_rank]; omega
  refine ⟨(mode.rank xs)[k - 1], (mode.rank_perm xs).mem_iff.mp (List.getElem_mem hlt), ?_⟩
  have hq := List.getElem?_eq_getElem hlt
  generalize (mode.rank xs)[k - 1] = q at hq
  have hrank := above_append_of_ordered q (mode.rank_ordered xs)
  rw [← isLast_rank]
  by_contra hnot
  have hself := mode.prefers_self q
  rw [← hrank, List.append_assoc] at hq
  rcases not_and_or.mp hnot with habove | hrest
  · rw [List.getElem?_append_left (by omega)] at hq
    have := (List.mem_filter.mp (List.mem_of_getElem? hq)).2
    simp [hself] at this
  · rw [List.getElem?_append_right (by omega), List.getElem?_append_right (by simp; omega)] at hq
    have := (List.mem_filter.mp (List.mem_of_getElem? hq)).2
    simp [hself] at this

theorem above_add_count_le {mode : KeepMode} {q q' : Int} (h : mode.prefers q q')
    (xs : List Int) : (mode.above q xs).length + xs.count q ≤ (mode.above q' xs).length := by
  induction xs with
  | nil => simp [above]
  | cons x xs ih =>
    simp only [above] at ih
    rcases eq_or_ne x q with rfl | hne
    · simp only [above, List.filter_cons, prefers_self, h, List.count_cons_self, if_true,
        Bool.false_eq_true, if_false, List.length_cons]
      omega
    · simp only [above, List.filter_cons, List.count_cons_of_ne hne]
      cases hx : mode.prefers x q with
      | false =>
        simp only [Bool.false_eq_true, if_false]
        split
        · rw [List.length_cons]
          omega
        · exact ih
      | true =>
        have hx' : mode.prefers x q' = true := prefers_trans (prefers_asymm hx) h
        simp only [hx', if_true, List.length_cons]
        omega

theorem IsLast.eq {mode : KeepMode} {k : Nat} {q q' : Int} {xs : List Int}
    (h : mode.IsLast k q xs) (h' : mode.IsLast k q' xs) : q = q' := by
  by_contra hne
  cases hq : mode.prefers q q' with
  | true =>
    have := above_add_count_le hq xs
    have := h.2
    have := h'.1
    omega
  | false =>
    have := above_add_count_le (prefers_of_ne hne hq) xs
    have := h.1
    have := h'.2
    omega

end KeepMode

-- ---------------------------------------------------------------------------
-- Kept dice
-- ---------------------------------------------------------------------------

theorem KeepMode.rank_best (xs : List Int) : best.rank xs = (worst.rank xs).reverse :=
  (eq_rank ((List.reverse_perm _).trans (worst.rank_perm xs))
    (List.pairwise_reverse.mpr (worst.rank_ordered xs))).symm

theorem Keep.sum_divide {β : Type} (keep : Keep) (value : β → Int) (xs : List β) :
    ((keep.divide value xs).1.map value).sum = keep.mode.keptSum keep.count (xs.map value) := by
  have hordered : (xs.mergeSort fun a b => value a ≤ value b).map value =
      KeepMode.worst.rank (xs.map value) :=
    List.map_mergeSort fun a _ b _ => by simp only [KeepMode.prefers, ← decide_not, not_lt]
  obtain ⟨mode, k, hk⟩ := keep
  unfold divide KeepMode.keptSum
  cases mode with
  | best =>
    simp only [List.map_drop, hordered]
    rw [KeepMode.rank_best, List.take_reverse, List.sum_reverse, KeepMode.length_rank,
      List.length_map]
  | worst => simp only [List.map_take, hordered]

end TabletopDice
