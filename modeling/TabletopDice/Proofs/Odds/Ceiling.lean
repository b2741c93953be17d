import TabletopDice.Proofs.Odds.Recipe

/-!
# The ceiling of results

Distributions are worked out for so many results at most. Sums and listings are
measured before they are made. A kept sum is not: it is made wherever the
results that are preferred to the last one kept can be summed, and these may
lie much closer together than all results do. So a kept sum can have more
results than the ceiling allows, and it is the only operation that can.
-/

namespace TabletopDice

/-- Steps that each keep the cells of a table keep them together. -/
theorem Table.size_foldl {α γ : Type} {step : Table α → γ → Table α}
    (h : ∀ t x, (step t x).cells.size = t.cells.size) (xs : List γ) (t : Table α) :
    (xs.foldl step t).cells.size = t.cells.size :=
  List.foldlRecOn (motive := fun t' : Table α => t'.cells.size = t.cells.size) xs _ rfl
    fun t' ht' x _ => (h t' x).trans ht'

namespace Distribution

section
variable {α : Type} [Mass α] {a b d e : Distribution α} {m n : Int}

-- ---------------------------------------------------------------------------
-- Trimmed cells
-- ---------------------------------------------------------------------------

theorem width_ofCells_le (low : Int) (ps : List α) : (ofCells low ps).width ≤ max 1 ps.length := by
  rcases eq_or_ne ps [] with rfl | h
  · exact le_max_left ..
  · obtain ⟨before, after, hps, -⟩ := ofCells_split low h
    have hlen := congrArg List.length hps
    simp only [List.length_append] at hlen
    unfold width
    omega

theorem width_ofTable_le {t : Table α} {most : Nat} (h : t.cells.size ≤ most) (hmost : 0 < most) :
    (ofTable t).width ≤ most := by
  have hle := width_ofCells_le t.low t.cells.toList
  rw [Array.length_toList] at hle
  exact hle.trans (max_le hmost h)

theorem width_eq (d : Distribution α) : (d.width : Int) = d.high - d.low + 1 := by
  unfold high
  omega

@[simp] theorem width_shift (d : Distribution α) (delta : Int) : (d.shift delta).width = d.width := rfl

theorem width_fair {sides : Int} (h : fair sides = .ok d) : d.width ≤ maxOutcomes := by
  simp only [fair, unless_ok, Except.ok.injEq] at h
  obtain ⟨-, hsides, rfl⟩ := h
  have hfew : maxFairSides ≤ maxOutcomes := by decide
  have hle := width_ofCells_le 1 (List.replicate sides.toNat (1 / (Mass.ofInt sides : α)))
  rw [List.length_replicate] at hle
  have : 1 ≤ maxOutcomes := by decide
  omega

theorem width_ofEntries {es : List (Int × α)} (h : ofEntries es = .ok d) : d.width ≤ maxOutcomes := by
  cases es with
  | nil => cases h
  | cons first more =>
    simp only [ofEntries, error_bind, unless_ok, mapError_ok, ofMasses_eq_ok] at h
    obtain ⟨hspan, -, rfl⟩ := h
    have hsize := size_putAll (first :: more) (Table.empty (bounds first.1 (more.map (·.1))).1
      ((bounds first.1 (more.map (·.1))).2 - (bounds first.1 (more.map (·.1))).1 + 1).toNat)
    rw [Table.size_empty] at hsize
    refine (width_ofCells_le _ _).trans (max_le (by decide) ?_)
    rw [Array.length_toList]
    refine hsize.trans_le ?_
    omega

theorem width_givenAtLeast_le {t : Int} (h : d.givenAtLeast t = .ok e) : e.width ≤ d.width := by
  simp only [givenAtLeast, bind_ok] at h
  obtain ⟨_, -, h⟩ := h
  split at h
  · obtain rfl := pure_ok.mp h
    refine (width_ofCells_le _ _).trans (max_le d.width_pos ?_)
    rw [List.length_map, massesFrom, List.length_drop]
    exact Nat.sub_le ..
  · cases h

theorem width_givenAtMost_le {t : Int} (h : d.givenAtMost t = .ok e) : e.width ≤ d.width := by
  simp only [givenAtMost, bind_ok] at h
  obtain ⟨_, -, h⟩ := h
  split at h
  · obtain rfl := pure_ok.mp h
    refine (width_ofCells_le _ _).trans (max_le d.width_pos ?_)
    rw [List.length_map, massesTo, List.length_take]
    exact Nat.min_le_right ..
  · cases h

-- ---------------------------------------------------------------------------
-- Sums
-- ---------------------------------------------------------------------------

theorem size_addPairs (m : Int) (as : List (Int × α)) (n : Int) (bs : List (Int × α)) (t : Table α) :
    (addPairs m as n bs t).cells.size = t.cells.size := by
  refine Table.size_foldl (fun t e => ?_) as t
  dsimp only
  split
  · rfl
  · exact Table.size_foldl (fun t e' => Table.size_change ..) bs t

theorem corners_le_corners (m : Int) (a : Distribution α) (n : Int) (b : Distribution α) :
    (corners m a n b).1 ≤ (corners m a n b).2 := by
  have hends := bounds_le (m * a.low + n * b.low)
    [m * a.low + n * b.high, m * a.high + n * b.low, m * a.high + n * b.high]
    (n := m * a.low + n * b.low) (by simp)
  exact hends.1.trans hends.2

theorem addScaled_ok (h : addScaled m a n b = .ok d) :
    (corners m a n b).2 - (corners m a n b).1 + 1 ≤ maxOutcomes ∧
      (d.width : Int) ≤ (corners m a n b).2 - (corners m a n b).1 + 1 := by
  have hcorners := corners_le_corners m a n b
  simp only [addScaled, unless_ok, Except.ok.injEq, not_lt] at h
  obtain ⟨hspan, rfl⟩ := h
  have hsize := size_addPairs m a.cells n b.cells (Table.empty (corners m a n b).1
    ((corners m a n b).2 - (corners m a n b).1 + 1).toNat)
  rw [Table.size_empty] at hsize
  have hwidth := width_ofTable_le hsize.le (by omega)
  exact ⟨hspan, by omega⟩

theorem width_addScaled (h : addScaled m a n b = .ok d) : d.width ≤ maxOutcomes := by
  have := addScaled_ok h
  omega

theorem corners_one (a b : Distribution α) : corners 1 a 1 b = (a.low + b.low, a.high + b.high) := by
  have ha := a.width_eq
  have hb := b.width_eq
  have ha' := a.width_pos
  have hb' := b.width_pos
  simp only [corners, bounds, one_mul, List.foldl_cons, List.foldl_nil, Prod.mk.injEq]
  omega

/-- Two distributions that are not too wide together have a sum. -/
theorem exists_add (h : a.width + b.width ≤ maxOutcomes + 1) :
    ∃ d, add a b = .ok d ∧ d.width ≤ a.width + b.width - 1 := by
  have ha := a.width_eq
  have hb := b.width_eq
  have hspan : ¬ maxOutcomes < a.high + b.high - (a.low + b.low) + 1 := by omega
  have hsum : ∃ d, add a b = .ok d := by
    simp only [add, addScaled, corners_one, hspan, if_false]
    exact ⟨_, rfl⟩
  obtain ⟨d, hd⟩ := hsum
  have hwidth := (addScaled_ok hd).2
  rw [corners_one] at hwidth
  exact ⟨d, hd, by omega⟩

-- ---------------------------------------------------------------------------
-- Repeated sums
-- ---------------------------------------------------------------------------

def partWidth : Option (Distribution α) → Nat
  | none => 0
  | some d => d.width

theorem exists_addDigit (sum : Option (Distribution α)) (power : Distribution α) (n : Nat)
    (h : partWidth sum + n % 2 * power.width ≤ maxOutcomes) :
    ∃ sum', addDigit sum power n = .ok sum' ∧
      partWidth sum' ≤ partWidth sum + n % 2 * power.width := by
  unfold addDigit
  split
  · rename_i hodd
    rw [hodd, one_mul] at h ⊢
    cases sum with
    | none => exact ⟨some power, rfl, by simp [partWidth]⟩
    | some s =>
      obtain ⟨d, hd, hwidth⟩ := exists_add (a := s) (b := power) (by
        simp only [partWidth] at h
        omega)
      refine ⟨some d, map_ok.mpr ⟨d, hd, rfl⟩, ?_⟩
      simp only [partWidth]
      omega
  · exact ⟨sum, rfl, Nat.le_add_right ..⟩

/-- The powers and the sums so far stay within what all results together come to. -/
theorem exists_addPowers (sum : Option (Distribution α)) (power : Distribution α) {n : Nat}
    (hn : 0 < n) (h : partWidth sum + n * power.width ≤ maxOutcomes) :
    ∃ d, addPowers sum power n = .ok d ∧ d.width ≤ partWidth sum + n * power.width := by
  induction n using Nat.strongRecOn generalizing sum power with
  | _ n ih =>
    have hsplit : n * power.width = n % 2 * power.width + n / 2 * (2 * power.width) := by
      conv_lhs => rw [← Nat.mod_add_div n 2]
      ring
    obtain ⟨sum', hdigit, hsum'⟩ := exists_addDigit sum power n (by omega)
    rw [addPowers_eq, hdigit]
    dsimp only [bind, Except.bind]
    split
    · obtain rfl : n = 1 := by omega
      obtain ⟨s, rfl⟩ := addDigit_one hdigit
      refine ⟨s, rfl, ?_⟩
      simpa [partWidth] using hsum'
    · have htwice : 2 * power.width ≤ n / 2 * (2 * power.width) :=
        Nat.le_mul_of_pos_left _ (by omega)
      obtain ⟨double, hdouble, hwidth⟩ := exists_add (a := power) (b := power) (by omega)
      have hrest : n / 2 * double.width ≤ n / 2 * (2 * power.width) :=
        Nat.mul_le_mul_left _ (by omega)
      rw [hdouble]
      obtain ⟨d, hd, hle⟩ := ih (n / 2) (by omega) sum' double (by omega) (by omega)
      exact ⟨d, hd, by omega⟩

theorem exists_repeatSum {n : Nat} (hn : 0 < n) (h : n * d.width ≤ maxOutcomes) :
    ∃ e, d.repeatSum n = .ok e ∧ e.width ≤ n * d.width := by
  obtain ⟨e, he, hwidth⟩ := exists_addPowers none d hn (by simpa [partWidth] using h)
  have hspan : ¬ (maxOutcomes : Int) < n * d.width := by exact_mod_cast not_lt.mpr h
  refine ⟨e, ?_, by simpa [partWidth] using hwidth⟩
  rw [repeatSum, if_neg (by omega), if_neg hspan, Int.toNat_natCast, he]
  rfl

/-- A sum of equal parts is there whenever all parts together are not too wide. -/
theorem repeatSum_ok_iff {n : Nat} (hn : 0 < n) :
    (∃ e, d.repeatSum n = .ok e) ↔ n * d.width ≤ maxOutcomes := by
  constructor
  · rintro ⟨e, h⟩
    simp only [repeatSum, unless_ok] at h
    exact_mod_cast not_lt.mp h.2.1
  · intro h
    obtain ⟨e, he, -⟩ := exists_repeatSum hn h
    exact ⟨e, he⟩

theorem width_repeatSum (h : d.repeatSum n = .ok e) : e.width ≤ maxOutcomes := by
  have hn : 1 ≤ n := by
    simp only [repeatSum, unless_ok] at h
    omega
  obtain ⟨n, rfl⟩ := Int.eq_ofNat_of_zero_le (show 0 ≤ n by omega)
  have hspan := (repeatSum_ok_iff (by omega)).mp ⟨e, h⟩
  obtain ⟨e', he', hwidth⟩ := exists_repeatSum (by omega) hspan
  obtain rfl : e' = e := Except.ok.inj (he'.symm.trans h)
  exact hwidth.trans hspan

-- ---------------------------------------------------------------------------
-- Kept sums
-- ---------------------------------------------------------------------------

theorem size_addSplits (discards tied b : Nat) (pKept pTied pRejected : α) (kept : Distribution α)
    (t : Table α) : (addSplits discards tied b pKept pTied pRejected kept t).cells.size = t.cells.size := by
  refine Table.size_foldl (fun t r => ?_) _ t
  dsimp only
  split
  · exact Table.size_foldl (fun t e => Table.size_change ..) _ t
  · rfl

theorem size_addLastKept {n k : Nat} {mode : KeepMode} {t t' : Table α} {q : Int} {p : α}
    (h : d.addLastKept n k mode t q p = .ok t') : t'.cells.size = t.cells.size := by
  simp only [addLastKept, error_bind, bind_ok, unless_ok, pure_ok] at h
  obtain ⟨sums, -, _, -, _, -, -, rfl⟩ := h
  refine Table.size_foldl (fun t b => ?_) _ t
  split
  · split
    · exact size_addSplits ..
    · rfl
  · rfl

theorem size_addAll {n k : Nat} {mode : KeepMode} {es : List (Int × α)} {t t' : Table α}
    (h : es.foldlM (fun t e => d.addLastKept n k mode t e.1 e.2) t = .ok t') :
    t'.cells.size = t.cells.size := by
  induction es generalizing t with
  | nil => rw [pure_ok.mp h]
  | cons e es ih =>
    rw [List.foldlM_cons] at h
    obtain ⟨s, hs, h⟩ := bind_ok.mp h
    exact (ih h).trans (size_addLastKept hs)

theorem width_keep_le {n k : Nat} {mode : KeepMode} (hkn : k < n) (h : d.keep n k mode = .ok e) :
    e.width ≤ (d.width - 1) * k + 1 := by
  obtain ⟨t, ht, rfl⟩ := keep_ok hkn h
  have hsize := size_addAll ht
  rw [Table.size_empty] at hsize
  exact width_ofTable_le hsize.le (Nat.succ_pos _)

/-- The sums with so many preferred results are all there if the one with the most of them is. -/
theorem mixed_ok_iff (k : Nat) (q : Int) :
    (∃ sums, (List.range (k - 1)).mapM (fun i => do
      let sum ← d.repeatSum (i + 1 : Nat)
      return sum.shift (q * (k - (i + 1) : Nat))) = .ok sums) ↔ (k - 1) * d.width ≤ maxOutcomes := by
  rw [exists_mapM_iff]
  constructor
  · intro h
    rcases Nat.eq_zero_or_pos (k - 1) with hzero | hpos
    · rw [hzero, zero_mul]
      exact Nat.zero_le _
    · obtain ⟨_, hlast⟩ := h (k - 2) (List.mem_range.mpr (by omega))
      obtain ⟨sum, hsum, -⟩ := bind_ok.mp hlast
      rw [show k - 2 + 1 = k - 1 by omega] at hsum
      exact (repeatSum_ok_iff hpos).mp ⟨sum, hsum⟩
  · intro h i hi
    have hi := List.mem_range.mp hi
    have hle := Nat.mul_le_mul_right d.width (show i + 1 ≤ k - 1 by omega)
    obtain ⟨sum, hsum⟩ := (repeatSum_ok_iff (Nat.succ_pos i)).mpr (hle.trans h)
    exact ⟨_, bind_ok.mpr ⟨sum, hsum, rfl⟩⟩

theorem one_le_of_keep {n k : Int} {mode : KeepMode} (h : d.keep n k mode = .ok e) : 1 ≤ n ∧ 1 ≤ k := by
  simp only [keep, unless_ok] at h
  omega

/-- A kept sum that leaves nothing out is measured like any sum. -/
theorem width_keep_of_le {n k : Int} {mode : KeepMode} (hnk : n ≤ k) (h : d.keep n k mode = .ok e) :
    e.width ≤ maxOutcomes := by
  simp only [keep, unless_ok] at h
  rw [if_pos hnk] at h
  exact width_repeatSum h.2.2.2

-- ---------------------------------------------------------------------------
-- Everything that is measured
-- ---------------------------------------------------------------------------

/-- What comes of distributions within the ceiling by any operations, as long as kept sums that
leave results out are made of narrow ones. -/
inductive Measured : Distribution α → Prop
  | given {d : Distribution α} (h : d.width ≤ maxOutcomes) : Measured d
  | fair {sides : Int} {d : Distribution α} (h : fair sides = .ok d) : Measured d
  | entries {es : List (Int × α)} {d : Distribution α} (h : ofEntries es = .ok d) : Measured d
  | add {a b d : Distribution α} (ha : Measured a) (hb : Measured b) (h : add a b = .ok d) : Measured d
  | addScaled {m n : Int} {a b d : Distribution α} (ha : Measured a) (hb : Measured b)
      (h : addScaled m a n b = .ok d) : Measured d
  | shift {d : Distribution α} (hd : Measured d) (delta : Int) : Measured (d.shift delta)
  | repeatSum {n : Int} {d e : Distribution α} (hd : Measured d) (h : d.repeatSum n = .ok e) : Measured e
  | keep {n k : Int} {mode : KeepMode} {d e : Distribution α} (hd : Measured d)
      (hnarrow : n ≤ k ∨ ((d.width : Int) - 1) * k < maxOutcomes) (h : d.keep n k mode = .ok e) : Measured e
  | givenAtLeast {t : Int} {d e : Distribution α} (hd : Measured d) (h : d.givenAtLeast t = .ok e) :
      Measured e
  | givenAtMost {t : Int} {d e : Distribution α} (hd : Measured d) (h : d.givenAtMost t = .ok e) :
      Measured e

theorem Measured.width_le (h : Measured d) : d.width ≤ maxOutcomes := by
  induction h with
  | given h => exact h
  | fair h => exact width_fair h
  | entries h => exact width_ofEntries h
  | add _ _ h => exact width_addScaled h
  | addScaled _ _ h => exact width_addScaled h
  | shift _ delta ih => exact (width_shift _ delta).trans_le ih
  | repeatSum _ h => exact width_repeatSum h
  | @keep n k mode d e _ hnarrow h =>
    rcases le_or_gt n k with hnk | hnk
    · exact width_keep_of_le hnk h
    · obtain ⟨hn, hk⟩ := one_le_of_keep h
      obtain ⟨n, rfl⟩ := Int.eq_ofNat_of_zero_le (show 0 ≤ n by omega)
      obtain ⟨k, rfl⟩ := Int.eq_ofNat_of_zero_le (show 0 ≤ k by omega)
      have hle := width_keep_le (by omega) h
      have hwidth : ((d.width - 1 : Nat) : Int) = d.width - 1 := Nat.cast_sub d.width_pos
      have hfits := hnarrow.resolve_left (not_le.mpr hnk)
      rw [← hwidth] at hfits
      have hfits : (d.width - 1) * k < maxOutcomes := by exact_mod_cast hfits
      omega
  | givenAtLeast _ h ih => exact (width_givenAtLeast_le h).trans ih
  | givenAtMost _ h ih => exact (width_givenAtMost_le h).trans ih

end

-- ---------------------------------------------------------------------------
-- Kept sums that are there
-- ---------------------------------------------------------------------------

section
variable {d e : Distribution Rat} {mode : KeepMode} {q : Int}

theorem checkAtLeast_rat (d : Distribution Rat) (t : Int) : d.checkAtLeast t = .ok () := by
  unfold checkAtLeast
  split <;> rfl

theorem checkAtMost_rat (d : Distribution Rat) (t : Int) : d.checkAtMost t = .ok () := by
  unfold checkAtMost
  split <;> rfl

theorem checkAbove_rat (d : Distribution Rat) (q : Int) : d.checkAbove q = .ok () :=
  d.checkAtLeast_rat (q + 1)

theorem checkBelow_rat (d : Distribution Rat) (q : Int) : d.checkBelow q = .ok () :=
  d.checkAtMost_rat (q - 1)

/-- Over fractions it can always be told what is preferred to a result. -/
theorem exists_preferred? (hlow : d.low ≤ q) (hhigh : q ≤ d.high) : ∃ o, d.preferred? q mode = .ok o := by
  cases mode with
  | best =>
    simp only [preferred?, checkAbove_rat]
    dsimp only [bind, Except.bind]
    split
    · rename_i hpos
      have hpos : 0 < d.atLeast (q + 1) := hpos
      have hcheck := d.checkAbove_rat q
      rw [checkAbove] at hcheck
      simp only [givenAtLeast, max_eq_left (show d.low ≤ q + 1 by omega), hcheck]
      dsimp only [bind, Except.bind]
      rw [if_pos hpos]
      exact ⟨_, rfl⟩
    · exact ⟨none, rfl⟩
  | worst =>
    simp only [preferred?, checkBelow_rat]
    dsimp only [bind, Except.bind]
    split
    · rename_i hpos
      have hpos : 0 < d.atMost (q - 1) := hpos
      have hcheck := d.checkBelow_rat q
      rw [checkBelow] at hcheck
      simp only [givenAtMost, min_eq_left (show q - 1 ≤ d.high by omega), hcheck]
      dsimp only [bind, Except.bind]
      rw [if_pos hpos]
      exact ⟨_, rfl⟩
    · exact ⟨none, rfl⟩

/-- The results preferred to `q` keep their masses, up to scale. -/
theorem mass_preferred (hlow : d.low ≤ q) (hhigh : q ≤ d.high) (h : d.preferred? q mode = .ok (some e))
    (x : Int) : d.law.preferredMass mode q * e.mass x = if mode.prefers x q then d.mass x else 0 := by
  rcases preferred?_ok hlow hhigh h with ⟨hnone, -⟩ | ⟨e', he', -, hmean⟩
  · cases hnone
  · obtain rfl := Option.some.inj he'
    rw [mass_eq_prob, mass_eq_prob, Law.prob, hmean]
    exact Law.prob_only d.law (mode.prefers · q) x

theorem preferredMass_pos (hd : ∀ p ∈ d.masses, 0 ≤ p) {x : Int} (hx : 0 < d.mass x)
    (hxq : mode.prefers x q) : 0 < d.law.preferredMass mode q := by
  have hle := ((nonneg_law hd).only (mode.prefers · q)).prob_mul_le (fun _ => zero_le_one) x
    (f := fun _ => 1)
  rw [mul_one, Law.prob_only, if_pos hxq, ← mass_eq_prob] at hle
  exact hx.trans_le hle

theorem live_preferred (hd : ∀ p ∈ d.masses, 0 ≤ p) (hlow : d.low ≤ q) (hhigh : q ≤ d.high)
    (h : d.preferred? q mode = .ok (some e)) : e.Live ∧ 0 < d.law.preferredMass mode q := by
  have hmass := mass_preferred hlow hhigh h
  rcases preferred?_ok hlow hhigh h with ⟨hnone, -⟩ | ⟨e', he', hpos, hmean⟩
  · cases hnone
  · obtain rfl := Option.some.inj he'
    refine ⟨live_of_total (nonneg_of_mass fun r => ?_) fun hzero => hpos.ne' ?_, hpos⟩
    · refine nonneg_of_mul_nonneg_right ?_ hpos
      rw [hmass]
      split
      · exact mass_nonneg hd r
      · exact le_rfl
    · have hone := hmean fun _ => 1
      rw [hzero, mul_zero] at hone
      exact hone.symm

/-- Whether all results lie so close together that so many of them have a sum. -/
theorem Live.width_bound_iff (hd : d.Live) (m c : Nat) :
    m * d.width ≤ c ↔ ∀ x y, 0 < d.mass x → 0 < d.mass y → (m : Int) * (y - x + 1) ≤ c := by
  have hwidth := d.width_eq
  constructor
  · intro h x y hx hy
    have hx' := within_of_mass_ne_zero hx.ne'
    have hy' := within_of_mass_ne_zero hy.ne'
    have hle : (m : Int) * (y - x + 1) ≤ m * d.width := mul_le_mul_of_nonneg_left (by omega) (by omega)
    exact hle.trans (by exact_mod_cast h)
  · intro h
    have hall := h d.low d.high hd.low_pos hd.high_pos
    rw [← hwidth] at hall
    exact_mod_cast hall

/-- The results preferred to `q` lie so close together that all but one of `k` kept ones have a
sum. -/
def CloseAbove (d : Distribution Rat) (mode : KeepMode) (k q : Int) : Prop :=
  ∀ x y, 0 < d.mass x → 0 < d.mass y → mode.prefers x q → mode.prefers y q →
    (k - 1) * (y - x + 1) ≤ maxOutcomes

theorem closeAbove_iff (hd : ∀ p ∈ d.masses, 0 ≤ p) (hlow : d.low ≤ q) (hhigh : q ≤ d.high)
    (h : d.preferred? q mode = .ok (some e)) {k : Nat} (hk : 0 < k) :
    d.CloseAbove mode k q ↔ (k - 1) * e.width ≤ maxOutcomes := by
  obtain ⟨hlive, hpos⟩ := live_preferred hd hlow hhigh h
  have hmass : ∀ x, 0 < e.mass x ↔ 0 < d.mass x ∧ mode.prefers x q := fun x => by
    have hx := mass_preferred hlow hhigh h x
    rw [← mul_pos_iff_of_pos_left hpos, hx]
    split
    · rename_i hxq
      rw [and_iff_left hxq]
    · rename_i hxq
      exact iff_of_false (lt_irrefl 0) fun hx => hxq hx.2
  have hk' : ((k - 1 : Nat) : Int) = k - 1 := Nat.cast_sub hk
  rw [hlive.width_bound_iff, hk']
  constructor
  · intro hclose x y hx hy
    rw [hmass] at hx hy
    exact hclose x y hx.1 hy.1 hx.2 hy.2
  · intro hclose x y hx hy hxq hyq
    exact hclose x y ((hmass x).mpr ⟨hx, hxq⟩) ((hmass y).mpr ⟨hy, hyq⟩)

theorem mem_entries_of_mass (h : 0 < d.mass q) : (q, d.mass q) ∈ d.entries := by
  obtain ⟨hlow, hhigh⟩ := within_of_mass_ne_zero h.ne'
  have hlt : (q - d.low).toNat < d.masses.length := by
    unfold high width at hhigh
    omega
  refine mem_entries.mpr ⟨mem_cells.mpr ⟨hlow, ?_⟩, h⟩
  rw [mass, if_neg (by omega), List.getElem?_eq_getElem hlt]
  rfl

theorem keptSums_ok_iff (hd : ∀ p ∈ d.masses, 0 ≤ p) {k : Nat} (hk : 0 < k) (hlow : d.low ≤ q)
    (hhigh : q ≤ d.high) : (∃ sums, d.keptSums k q mode = .ok sums) ↔ d.CloseAbove mode k q := by
  obtain ⟨o, ho⟩ : ∃ o, d.preferred? q mode = .ok o := exists_preferred? hlow hhigh
  cases o with
  | none =>
    -- nothing is preferred to `q`, so there is nothing to sum
    obtain ⟨-, hnone⟩ | ⟨_, hsome, -⟩ := preferred?_ok hlow hhigh ho
    · refine iff_of_true ⟨_, by rw [keptSums, ho]; rfl⟩ fun x y hx _ hxq _ => ?_
      exact absurd (preferredMass_pos hd hx hxq) hnone
    · cases hsome
  | some e =>
    rw [closeAbove_iff hd hlow hhigh ho hk, ← mixed_ok_iff k q]
    constructor
    · rintro ⟨sums, h⟩
      obtain ⟨_, ho', h⟩ := bind_ok.mp h
      obtain rfl := Except.ok.inj (ho.symm.trans ho')
      obtain ⟨mixed, h, -⟩ := bind_ok.mp h
      exact ⟨mixed, h⟩
    · rintro ⟨mixed, h⟩
      exact ⟨_, bind_ok.mpr ⟨some e, ho, bind_ok.mpr ⟨mixed, h, rfl⟩⟩⟩

theorem addLastKept_ok_iff {n k : Nat} {t : Table Rat} {p : Rat} :
    (∃ t', d.addLastKept n k mode t q p = .ok t') ↔ ∃ sums, d.keptSums k q mode = .ok sums := by
  constructor
  · rintro ⟨t', h⟩
    obtain ⟨sums, h, -⟩ := bind_ok.mp h
    exact ⟨sums, h⟩
  · rintro ⟨sums, h⟩
    rw [addLastKept, h, checkBelow_rat, checkAbove_rat]
    exact ⟨_, rfl⟩

/-- A kept sum is there exactly if what is preferred to any result lies close enough together. -/
theorem keep_ok_iff (hd : ∀ p ∈ d.masses, 0 ≤ p) {n k : Nat} (hk : 0 < k) (hkn : k < n) :
    (∃ e, d.keep n k mode = .ok e) ↔ n ≤ maxArranged ∧ ∀ q, 0 < d.mass q → d.CloseAbove mode k q := by
  have hentry : ∀ {o : Int × Rat}, o ∈ d.entries → d.low ≤ o.1 ∧ o.1 ≤ d.high := fun ho =>
    cells_within (mem_entries.mp ho).1
  constructor
  · rintro ⟨e, h⟩
    have hmost : n ≤ maxArranged := by
      simp only [keep, unless_ok] at h
      omega
    refine ⟨hmost, fun q hq => ?_⟩
    obtain ⟨hlow, hhigh⟩ := within_of_mass_ne_zero hq.ne'
    obtain ⟨t, ht, -⟩ := keep_ok hkn h
    obtain ⟨_, t', ht'⟩ := foldlM_ok ht (mem_entries_of_mass hq)
    exact (keptSums_ok_iff hd hk hlow hhigh).mp (addLastKept_ok_iff.mp ⟨t', ht'⟩)
  · rintro ⟨hmost, hclose⟩
    have hstep : ∀ o ∈ d.entries, ∀ t, ∃ t', d.addLastKept n k mode t o.1 o.2 = .ok t' := fun o ho t => by
      obtain ⟨hlow, hhigh⟩ := hentry ho
      have hpos : 0 < d.mass o.1 := by
        rw [mass_of_mem_cells (mem_entries.mp ho).1]
        exact (mem_entries.mp ho).2
      exact addLastKept_ok_iff.mpr ((keptSums_ok_iff hd hk hlow hhigh).mpr (hclose o.1 hpos))
    obtain ⟨t, ht⟩ := exists_foldlM hstep (Table.empty (d.low * k) ((d.width - 1) * k + 1))
    refine ⟨ofTable t, ?_⟩
    simp only [keep, unless_ok]
    refine ⟨by omega, by omega, by omega, ?_⟩
    rw [if_neg (by omega)]
    exact bind_ok.mpr ⟨t, ht, rfl⟩

theorem Live.width_keep (hd : d.Live) {n k : Nat} (hk : 0 < k) (hkn : k < n)
    (h : d.keep n k mode = .ok e) : (e.width : Int) = (d.width - 1) * k + 1 := by
  obtain ⟨-, hlow, hhigh⟩ := hd.keep hk hkn h
  rw [e.width_eq, d.width_eq, hlow, hhigh]
  ring

/-- A kept sum of live results is wider than the ceiling exactly if it leaves results out, all
results lie too far apart, and those preferred to any result do not. -/
theorem Live.exceeds_iff (hd : d.Live) {n k : Int} :
    (∃ e, d.keep n k mode = .ok e ∧ maxOutcomes < e.width) ↔
      1 ≤ k ∧ k < n ∧ n ≤ maxArranged ∧ maxOutcomes ≤ ((d.width : Int) - 1) * k ∧
        ∀ q, 0 < d.mass q → d.CloseAbove mode k q := by
  constructor
  · rintro ⟨e, h, hwide⟩
    obtain ⟨hn, hk⟩ := one_le_of_keep h
    have hkn : k < n := by
      by_contra hnk
      exact hwide.not_ge (width_keep_of_le (not_lt.mp hnk) h)
    obtain ⟨n, rfl⟩ := Int.eq_ofNat_of_zero_le (show 0 ≤ n by omega)
    obtain ⟨k, rfl⟩ := Int.eq_ofNat_of_zero_le (show 0 ≤ k by omega)
    have hwidth := hd.width_keep (by omega) (by omega) h
    obtain ⟨hmost, hclose⟩ := (keep_ok_iff hd.nonneg (by omega) (by omega)).mp ⟨e, h⟩
    exact ⟨hk, hkn, by exact_mod_cast hmost, by omega, hclose⟩
  · rintro ⟨hk, hkn, hmost, hwide, hclose⟩
    obtain ⟨n, rfl⟩ := Int.eq_ofNat_of_zero_le (show 0 ≤ n by omega)
    obtain ⟨k, rfl⟩ := Int.eq_ofNat_of_zero_le (show 0 ≤ k by omega)
    obtain ⟨e, h⟩ := (keep_ok_iff (n := n) hd.nonneg (by omega) (by omega)).mpr
      ⟨by exact_mod_cast hmost, hclose⟩
    have hwidth := hd.width_keep (by omega) (by omega) h
    exact ⟨e, h, by omega⟩

end

end Distribution

namespace Recipe

open TabletopDice.Distribution (Measured)

variable {r : Recipe} {d : Distribution Rat}

theorem live_of_make (h : r.make = .ok d) : d.Live := by
  have hkeeps := keeps_of_make h
  have hpos : 0 < (1 - Distribution.tolerance : Rat) ^ r.listings := pow_pos (by decide +kernel) _
  have hnear := (hkeeps.near (by decide +kernel) (by decide +kernel) hkeeps.listed).low
  exact Distribution.live_of_total hkeeps.nonneg (hpos.trans_le hnear).ne'

/-- No operation that is measured exceeds the ceiling, over any numbers. A kept sum does exactly
if it leaves results out, all results lie too far apart for it, and those preferred to any one
result lie close enough together. -/
theorem exceeds_ceiling_iff {α : Type} [Mass α] {c : Distribution α} (hc : Measured c)
    (hd : r.make = .ok d) (n k : Int) (mode : KeepMode) :
    c.width ≤ maxOutcomes ∧
      ((∃ e, (r.keep n k mode).make = .ok e ∧ maxOutcomes < e.width) ↔
        1 ≤ k ∧ k < n ∧ n ≤ maxArranged ∧ maxOutcomes ≤ ((d.width : Int) - 1) * k ∧
          ∀ q x y, 0 < d.mass q → 0 < d.mass x → 0 < d.mass y → mode.prefers x q →
            mode.prefers y q → (k - 1) * (y - x + 1) ≤ maxOutcomes) := by
  refine ⟨hc.width_le, ?_⟩
  have hkeep : (r.keep n k mode).make = d.keep n k mode := by
    rw [make, hd]
    rfl
  rw [hkeep, (live_of_make hd).exceeds_iff]
  constructor
  · rintro ⟨hk, hkn, hmost, hwide, hclose⟩
    exact ⟨hk, hkn, hmost, hwide, fun q x y hq => hclose q hq x y⟩
  · rintro ⟨hk, hkn, hmost, hwide, hclose⟩
    exact ⟨hk, hkn, hmost, hwide, fun q hq x y => hclose q x y hq⟩

def farApart : Recipe := entries [(0, 1 / 2), (500000, 1 / 2)] (by decide)

theorem make_farApart : ∃ d, farApart.make = .ok d ∧ d.width = 500001 ∧
    ∀ r, 0 < d.mass r ↔ r = 0 ∨ r = 500000 := by
  have hends : ∀ e ∈ [(0, 1 / 2), (500000, (1 / 2 : Rat))], (0 : Int) ≤ e.1 ∧ e.1 ≤ 500000 := by simp
  obtain ⟨d, hd⟩ := Distribution.exists_ofEntries hends (by decide) (by decide) (by norm_num) (by norm_num)
  have hmass : ∀ r, d.mass r = (if r = 0 then 1 / 2 else 0) + if r = 500000 then 1 / 2 else 0 := fun r => by
    rw [Distribution.mass_eq_prob, Law.prob, Distribution.mean_ofEntries hd (by decide)]
    simp [Law.indicator, eq_comm]
  have hpos : ∀ r, 0 < d.mass r ↔ r = 0 ∨ r = 500000 := fun r => by
    rw [hmass]
    split <;> split <;> simp_all
  have hnonneg := Distribution.mass_nonneg (Distribution.nonneg_ofEntries hd)
  have hwithin : ∀ r, d.mass r ≠ 0 → 0 ≤ r ∧ r ≤ 500000 := fun r hr => by
    have hr := (hpos r).mp (lt_of_le_of_ne (hnonneg r) hr.symm)
    omega
  obtain ⟨-, hlow, hhigh⟩ := Distribution.ends_of_mass hnonneg hwithin ((hpos 0).mpr (by simp))
    ((hpos 500000).mpr (by simp))
  have hwidth := d.width_eq
  exact ⟨d, hd, by omega, hpos⟩

/-- Far apart results are within the ceiling, the best two of three of them are not. -/
theorem exceeds_ceiling_farApart : (∃ d, farApart.make = .ok d ∧ d.width ≤ maxOutcomes) ∧
    ∃ e, (farApart.keep 3 2 .best).make = .ok e ∧ maxOutcomes < e.width := by
  obtain ⟨d, hd, hwidth, hpos⟩ := make_farApart
  have hgiven : d.width ≤ maxOutcomes := by
    rw [hwidth]
    decide
  obtain ⟨hle, hiff⟩ := exceeds_ceiling_iff (.given hgiven) hd 3 2 .best
  refine ⟨⟨d, hd, hle⟩, hiff.mpr ⟨by decide, by decide, by decide, by rw [hwidth]; decide, ?_⟩⟩
  intro q x y hq hx hy hxq hyq
  rw [hpos] at hq hx hy
  simp only [KeepMode.prefers, decide_eq_true_eq] at hxq hyq
  have : (2 : Int) ≤ maxOutcomes := by decide
  omega

end Recipe

end TabletopDice
