import TabletopDice.Proofs.Odds.Keep

/-!
# The ends of distributions

No end of a distribution is without mass: trimming sees to that where anything
has mass at all, and sums, kept sums and multiples have mass where all of their
parts are at an end.
-/

namespace TabletopDice

-- ---------------------------------------------------------------------------
-- Means from below
-- ---------------------------------------------------------------------------

namespace Law

section
variable {β : Type} {l : Law β} {f : β → Rat}

theorem Nonneg.prob_mul_le [DecidableEq β] (h : l.Nonneg) (hf : ∀ b, 0 ≤ f b) (b : β) :
    l.prob {b} * f b ≤ l.mean f := by
  rw [prob, ← mean_mul_right]
  refine h.mean_mono fun o _ => ?_
  by_cases ho : o.1 = b
  · simp [indicator, ho]
  · simpa [indicator, ho] using hf o.1

theorem Nonneg.prob_pow_mul_le [DecidableEq β] (h : l.Nonneg) (b : β) (n : Nat) {f : List β → Rat}
    (hf : ∀ bs, 0 ≤ f bs) : l.prob {b} ^ n * f (List.replicate n b) ≤ (l.sample n).mean f := by
  induction n generalizing f with
  | zero => simp
  | succ n ih =>
    have hrest : ∀ b', 0 ≤ (l.sample n).mean fun bs => f (b' :: bs) := fun b' =>
      h.mean_sample_nonneg n fun bs => hf (b' :: bs)
    rw [mean_sample_succ, pow_succ', mul_assoc]
    refine le_trans ?_ (h.prob_mul_le hrest b)
    exact mul_le_mul_of_nonneg_left (ih fun bs => hf (b :: bs))
      (h.mean_nonneg fun _ => indicator_nonneg _ _)

end

end Law

-- ---------------------------------------------------------------------------
-- Ends that have mass
-- ---------------------------------------------------------------------------

namespace Distribution

structure Live (d : Distribution Rat) : Prop where
  nonneg : ∀ p ∈ d.masses, 0 ≤ p
  low_pos : 0 < d.mass d.low
  high_pos : 0 < d.mass d.high

section
variable {d e : Distribution Rat} {low high : Int}

theorem mass_nonneg (h : ∀ p ∈ d.masses, 0 ≤ p) (r : Int) : 0 ≤ d.mass r := by
  unfold mass
  split
  · exact le_refl 0
  · cases hp : d.masses[(r - d.low).toNat]? with
    | none => exact le_refl 0
    | some p => exact h p (List.mem_of_getElem? hp)

theorem nonneg_of_mass (h : ∀ r, 0 ≤ d.mass r) : ∀ p ∈ d.masses, 0 ≤ p := by
  intro p hp
  obtain ⟨i, hi⟩ := List.mem_iff_getElem?.mp hp
  have hmass : d.mass (d.low + i) = p := by
    rw [mass, if_neg (by omega)]
    simp [hi]
  exact hmass ▸ h _

theorem within_of_mass_ne_zero {r : Int} (h : d.mass r ≠ 0) : d.low ≤ r ∧ r ≤ d.high := by
  unfold mass at h
  split at h
  · exact absurd rfl h
  · rename_i hlow
    cases hp : d.masses[(r - d.low).toNat]? with
    | none =>
      rw [hp] at h
      exact absurd rfl h
    | some p =>
      obtain ⟨hlt, -⟩ := List.getElem?_eq_some_iff.mp hp
      unfold high width
      omega

theorem mass_low (d : Distribution Rat) : d.mass d.low = d.masses.head d.trimmed.ne_nil := by
  rw [mass, if_neg (by omega), sub_self, Int.toNat_zero, ← List.head?_eq_getElem?,
    List.head?_eq_some_head d.trimmed.ne_nil]
  rfl

theorem mass_high (d : Distribution Rat) : d.mass d.high = d.masses.getLast d.trimmed.ne_nil := by
  have hwidth := d.width_pos
  have hlast : (d.high - d.low).toNat = d.masses.length - 1 := by
    unfold high width at *
    omega
  rw [mass, if_neg (by unfold high; omega), hlast, ← List.getLast?_eq_getElem?,
    List.getLast?_eq_some_getLast d.trimmed.ne_nil]
  rfl

theorem head_ne_zero {ps : List Rat} (hne : ps ≠ []) (h : Mass.StartsNonzero ps) (hp : ∃ p ∈ ps, p ≠ 0) :
    ps.head hne ≠ 0 := by
  match ps with
  | [p] =>
    obtain ⟨q, hq, hq0⟩ := hp
    obtain rfl := List.mem_singleton.mp hq
    exact hq0
  | p :: q :: rest => simpa [Mass.StartsNonzero] using h

/-- A trimmed distribution that has any mass at all has mass at both ends. -/
theorem live_of_mass (hnonneg : ∀ p ∈ d.masses, 0 ≤ p) {r : Int} (hr : d.mass r ≠ 0) : d.Live := by
  have hexists : ∃ p ∈ d.masses, p ≠ 0 := by
    obtain ⟨hlow, hhigh⟩ := within_of_mass_ne_zero hr
    rw [mass, if_neg (by omega)] at hr
    cases hp : d.masses[(r - d.low).toNat]? with
    | none => simp [hp] at hr
    | some p => exact ⟨p, List.mem_of_getElem? hp, by simpa [hp] using hr⟩
  have hlow : d.mass d.low ≠ 0 := by
    rw [mass_low]
    exact head_ne_zero d.trimmed.ne_nil d.trimmed.left hexists
  have hhigh : d.mass d.high ≠ 0 := by
    rw [mass_high, ← List.head_reverse (List.reverse_ne_nil_iff.mpr d.trimmed.ne_nil)]
    exact head_ne_zero _ d.trimmed.right (by simpa using hexists)
  exact ⟨hnonneg, lt_of_le_of_ne (mass_nonneg hnonneg _) hlow.symm,
    lt_of_le_of_ne (mass_nonneg hnonneg _) hhigh.symm⟩

/-- The ends of a distribution are the furthest results that have mass. -/
theorem ends_of_mass (hnonneg : ∀ r, 0 ≤ d.mass r) (hwithin : ∀ r, d.mass r ≠ 0 → low ≤ r ∧ r ≤ high)
    (hlow : 0 < d.mass low) (hhigh : 0 < d.mass high) : d.Live ∧ d.low = low ∧ d.high = high := by
  have hlive := live_of_mass (nonneg_of_mass hnonneg) hlow.ne'
  have h1 := hwithin _ hlive.low_pos.ne'
  have h2 := hwithin _ hlive.high_pos.ne'
  have h3 := within_of_mass_ne_zero hlow.ne'
  have h4 := within_of_mass_ne_zero hhigh.ne'
  exact ⟨hlive, by omega, by omega⟩

theorem Live.low_le_high (h : d.Live) : d.low ≤ d.high :=
  (within_of_mass_ne_zero h.low_pos.ne').2

theorem Live.nonneg_law (h : d.Live) : d.law.Nonneg := Distribution.nonneg_law h.nonneg

theorem live_of_total (hnonneg : ∀ p ∈ d.masses, 0 ≤ p) (h : (d.law.mean fun _ => 1) ≠ 0) : d.Live := by
  by_contra hdead
  refine h ?_
  rw [mean_eq_sum]
  refine Finset.sum_eq_zero fun r _ => ?_
  by_contra hr
  exact hdead (live_of_mass hnonneg (left_ne_zero_of_mul hr))

/-- Distributions with the same masses have the same form. -/
theorem Live.ext (hd : d.Live) (he : e.Live) (h : ∀ r, d.mass r = e.mass r) : d = e := by
  have hwithin : ∀ r, d.mass r ≠ 0 → e.low ≤ r ∧ r ≤ e.high := fun r hr => within_of_mass_ne_zero (h r ▸ hr)
  obtain ⟨-, hlow, hhigh⟩ := ends_of_mass (mass_nonneg hd.nonneg) hwithin (h e.low ▸ he.low_pos)
    (h e.high ▸ he.high_pos)
  have hlen : d.masses.length = e.masses.length := by
    unfold high width at hhigh
    omega
  obtain ⟨low, ps, htrimmed⟩ := d
  obtain ⟨low', qs, htrimmed'⟩ := e
  obtain rfl : low = low' := hlow
  obtain rfl : ps = qs := by
    refine List.ext_getElem hlen fun i hi hi' => ?_
    have hr := h (low + i)
    simpa [mass, show ¬ low + (i : Int) < low by omega, List.getElem?_eq_getElem hi,
      List.getElem?_eq_getElem hi'] using hr
  rfl

theorem live_zero : (zero : Distribution Rat).Live :=
  live_of_mass (r := 0) (by decide +kernel) (by decide +kernel)

-- ---------------------------------------------------------------------------
-- Sums
-- ---------------------------------------------------------------------------

theorem Live.shift (h : d.Live) (delta : Int) : (d.shift delta).Live := by
  refine live_of_mass (r := d.low + delta) h.nonneg ?_
  have hmass : (d.shift delta).mass (d.low + delta) = d.mass d.low := by
    simp [mass, Distribution.shift]
  rw [hmass]
  exact h.low_pos.ne'

/-- A multiple of a distribution has mass at both of its ends. -/
theorem Live.exists_multiples (h : d.Live) (m : Int) :
    (∃ x, 0 < d.mass x ∧ m * x = min (m * d.low) (m * d.high)) ∧
      ∃ x, 0 < d.mass x ∧ m * x = max (m * d.low) (m * d.high) := by
  constructor
  · rcases min_choice (m * d.low) (m * d.high) with hm | hm
    · exact ⟨d.low, h.low_pos, hm.symm⟩
    · exact ⟨d.high, h.high_pos, hm.symm⟩
  · rcases max_choice (m * d.low) (m * d.high) with hm | hm
    · exact ⟨d.low, h.low_pos, hm.symm⟩
    · exact ⟨d.high, h.high_pos, hm.symm⟩

theorem Live.addScaled {a b : Distribution Rat} {m n : Int} (ha : a.Live) (hb : b.Live)
    (h : addScaled m a n b = .ok e) :
    e.Live ∧ e.low = min (m * a.low) (m * a.high) + min (n * b.low) (n * b.high) ∧
      e.high = max (m * a.low) (m * a.high) + max (n * b.low) (n * b.high) := by
  have hmass : ∀ r, e.mass r = a.law.mean fun x => b.law.mean fun y =>
      Law.indicator {r} (m * x + n * y) := fun r => by
    rw [mass_eq_prob, Law.prob, mean_addScaled h]
  have hrow : ∀ r x, 0 ≤ b.law.mean fun y => Law.indicator {r} (m * x + n * y) := fun r x =>
    hb.nonneg_law.mean_nonneg fun y => Law.indicator_nonneg _ _
  have hpair : ∀ x y, 0 < a.mass x → 0 < b.mass y → 0 < e.mass (m * x + n * y) := by
    intro x y hx hy
    have hinner := hb.nonneg_law.prob_mul_le
      (fun y' => Law.indicator_nonneg {m * x + n * y} (m * x + n * y')) y
    have houter := ha.nonneg_law.prob_mul_le (hrow (m * x + n * y)) x
    have hone : Law.indicator {m * x + n * y} (m * x + n * y) = 1 := if_pos rfl
    rw [hmass]
    rw [hone, mul_one, ← mass_eq_prob] at hinner
    rw [← mass_eq_prob] at houter
    exact (mul_pos hx (hy.trans_le hinner)).trans_le houter
  -- Both ends of the sum are sums of ends; the signs of the factors say which.
  obtain ⟨⟨x, hx, hxl⟩, x', hx', hxh⟩ := ha.exists_multiples m
  obtain ⟨⟨y, hy, hyl⟩, y', hy', hyh⟩ := hb.exists_multiples n
  refine ends_of_mass (fun r => ?_) (fun r hr => ?_) ?_ ?_
  · rw [hmass]
    exact ha.nonneg_law.mean_nonneg (hrow r)
  · by_contra hout
    refine hr ((hmass r).trans (Law.mean_eq_zero fun o ho => Law.mean_eq_zero fun o' ho' => if_neg ?_))
    intro heq
    have hm := mul_between m (cells_within ho).1 (cells_within ho).2
    have hn := mul_between n (cells_within ho').1 (cells_within ho').2
    have heq : m * o.1 + n * o'.1 = r := heq
    omega
  · rw [← hxl, ← hyl]
    exact hpair x y hx hy
  · rw [← hxh, ← hyh]
    exact hpair x' y' hx' hy'

/-- A distribution of what a sample comes to ends where the whole sample is at an end. -/
theorem Live.sampled (hd : d.Live) {n : Nat} {g : List Int → Int}
    (h : ∀ f, e.law.mean f = (d.law.sample n).mean fun xs => f (g xs))
    (hwithin : ∀ xs, xs.length = n → (∀ x ∈ xs, d.low ≤ x ∧ x ≤ d.high) → low ≤ g xs ∧ g xs ≤ high)
    (hlow : g (List.replicate n d.low) = low) (hhigh : g (List.replicate n d.high) = high) :
    e.Live ∧ e.low = low ∧ e.high = high := by
  have hmass : ∀ r, e.mass r = (d.law.sample n).mean fun xs => Law.indicator {r} (g xs) := fun r => by
    rw [mass_eq_prob, Law.prob, h]
  have hall : ∀ x, 0 < d.mass x → 0 < e.mass (g (List.replicate n x)) := by
    intro x hx
    have hle := hd.nonneg_law.prob_pow_mul_le x n
      fun xs => Law.indicator_nonneg {g (List.replicate n x)} (g xs)
    have hone : Law.indicator {g (List.replicate n x)} (g (List.replicate n x)) = 1 := if_pos rfl
    rw [hone, mul_one, ← mass_eq_prob] at hle
    rw [hmass]
    exact (pow_pos hx n).trans_le hle
  refine ends_of_mass (fun r => ?_) (fun r hr => ?_) (hlow ▸ hall _ hd.low_pos) (hhigh ▸ hall _ hd.high_pos)
  · rw [hmass]
    exact hd.nonneg_law.mean_sample_nonneg n fun xs => Law.indicator_nonneg _ _
  · by_contra hout
    refine hr ((hmass r).trans (Law.mean_eq_zero fun o ho => if_neg ?_))
    intro heq
    obtain ⟨hlen, hmem⟩ := Law.mem_sample ho
    have hg := hwithin o.1 hlen fun x hx => by
      obtain ⟨w, hw⟩ := hmem x hx
      exact cells_within hw
    have heq : g o.1 = r := heq
    exact hout (heq ▸ hg)

theorem Live.repeatSum (hd : d.Live) {n : Nat} (h : d.repeatSum n = .ok e) :
    e.Live ∧ e.low = n * d.low ∧ e.high = n * d.high := by
  refine hd.sampled (mean_repeatSum h) (fun xs hlen hxs => ?_) (by simp) (by simp)
  have hsum := sum_between hxs
  rwa [hlen, mul_comm d.low, mul_comm d.high] at hsum

theorem keptSum_replicate (mode : KeepMode) {k n : Nat} (hkn : k ≤ n) (x : Int) :
    mode.keptSum k (List.replicate n x) = k * x := by
  have hrank : mode.rank (List.replicate n x) = List.replicate n x :=
    List.perm_replicate.mp (mode.rank_perm _)
  rw [KeepMode.keptSum, hrank, List.take_replicate, min_eq_left hkn]
  simp

theorem Live.keep (hd : d.Live) {n k : Nat} {mode : KeepMode} (hk : 0 < k) (hkn : k < n)
    (h : d.keep n k mode = .ok e) : e.Live ∧ e.low = k * d.low ∧ e.high = k * d.high := by
  refine hd.sampled (mean_keep hd.nonneg hk hkn h) (fun xs hlen hxs => ?_)
    (keptSum_replicate mode hkn.le _) (keptSum_replicate mode hkn.le _)
  have hkept : ∀ x ∈ (mode.rank xs).take k, d.low ≤ x ∧ x ≤ d.high := fun x hx =>
    hxs x ((mode.rank_perm xs).mem_iff.mp (List.mem_of_mem_take hx))
  have hsum := sum_between hkept
  rwa [List.length_take, KeepMode.length_rank, hlen, min_eq_left hkn.le, mul_comm d.low,
    mul_comm d.high] at hsum

end

end Distribution

end TabletopDice
