import Mathlib.Algebra.Order.Field.Basic
import TabletopDice.Proofs.Odds.Tails

/-!
# Distributions of known results

To know that a result is of a class is to scale the masses of the class to one,
which is refused exactly where the class has none. Knowing one thing after
another is then knowing both, in either order, whatever was trimmed in between.
-/

namespace TabletopDice.Distribution

variable {d e : Distribution Rat} {P Q : Int → Bool} {x y : Except Fault (Distribution Rat)}

-- ---------------------------------------------------------------------------
-- One class after another
-- ---------------------------------------------------------------------------

inductive Conditions (d : Distribution Rat) (P : Int → Bool) : Except Fault (Distribution Rat) → Prop where
  | refused (f : ValueFault) (share : d.share P = 0) : Conditions d P (.error (.value f))
  | scaled (e : Distribution Rat) (share : 0 < d.share P)
      (mean : ∀ f, e.law.mean f = (d.law.only P).mean f / d.share P) : Conditions d P (.ok e)

section
variable (hpos : 0 < d.share P) (hmean : ∀ f, e.law.mean f = (d.law.only P).mean f / d.share P)
include hpos hmean

theorem spec_of_mean (hd : ∀ p ∈ d.masses, 0 ≤ p) : e.total = 1 ∧ ∀ p ∈ e.masses, 0 ≤ p :=
  scaled_only hd hpos rfl hmean

omit hpos in
theorem mass_of_mean (r : Int) : e.mass r = if P r then d.mass r / d.share P else 0 := by
  have hprob := hmean (Law.indicator {r})
  rw [← Law.prob, ← Law.prob, ← mass_eq_prob, Law.prob_only, ← mass_eq_prob] at hprob
  rw [hprob, ite_div, zero_div]

omit hpos in
theorem only_of_mean (Q : Int → Bool) (f : Int → Rat) :
    (e.law.only Q).mean f = (d.law.only fun r => P r && Q r).mean f / d.share P := by
  rw [Law.mean_only, hmean, ← Law.only_only, Law.mean_only _ Q]

/-- Knowing a second thing of what is known already is knowing both. -/
theorem Conditions.of_mean (h : Conditions e Q x) : Conditions d (fun r => P r && Q r) x := by
  have hshare : e.share Q = d.share (fun r => P r && Q r) / d.share P := only_of_mean hmean Q _
  cases h with
  | refused f hzero =>
    rw [hshare, div_eq_zero_iff, or_iff_left hpos.ne'] at hzero
    exact .refused f hzero
  | scaled e' hpos' hmean' =>
    rw [hshare, div_pos_iff_of_pos_right hpos] at hpos'
    refine .scaled e' hpos' fun f => ?_
    rw [hmean', hshare, only_of_mean hmean, div_div_div_cancel_right₀ hpos.ne']

end

theorem Conditions.bind (hd : ∀ p ∈ d.masses, 0 ≤ p) (h : Conditions d P x)
    {given : Distribution Rat → Except Fault (Distribution Rat)}
    (hgiven : ∀ e, (∀ p ∈ e.masses, 0 ≤ p) → e.total = 1 → Conditions e Q (given e)) :
    Conditions d (fun r => P r && Q r) (x >>= given) := by
  cases h with
  | refused f hzero =>
    refine .refused f (le_antisymm ?_ (share_nonneg hd _))
    rw [← hzero]
    exact share_mono hd fun r hr => (Bool.and_eq_true _ _ ▸ hr).1
  | scaled e hpos hmean =>
    obtain ⟨htotal, hnonneg⟩ := spec_of_mean hpos hmean hd
    exact (hgiven e hnonneg htotal).of_mean hpos hmean

theorem conditions_givenAtLeast (hd : ∀ p ∈ d.masses, 0 ≤ p) (htotal : d.total = 1) (t : Int) :
    Conditions d (t ≤ ·) (d.givenAtLeast t) := by
  simp only [givenAtLeast, checkAtLeast_rat, atLeast_max]
  rw [d.atLeast_eq_share htotal]
  show Conditions d _ (if _ then _ else _)
  split
  · rename_i hpos
    refine .scaled _ hpos fun f => ?_
    rw [mean_ofCells, mean_cells_scaled, mean_massesFrom d (le_max_right t d.low), mul_one_div]
    exact congrArg (· / _) (only_congr (fun r hr _ => by simp [hr]) f)
  · rename_i hpos
    exact .refused _ (le_antisymm (not_lt.mp hpos) (share_nonneg hd _))

theorem conditions_givenAtMost (hd : ∀ p ∈ d.masses, 0 ≤ p) (htotal : d.total = 1) (t : Int) :
    Conditions d (· ≤ t) (d.givenAtMost t) := by
  simp only [givenAtMost, checkAtMost_rat, atMost_min]
  rw [d.atMost_eq_share htotal]
  show Conditions d _ (if _ then _ else _)
  split
  · rename_i hpos
    have hlow : d.low ≤ t := by
      by_contra hlt
      exact hpos.ne' (share_of_forall_not fun r hr _ => by
        simp
        omega)
    have hwidth := d.width_pos
    have hhigh := d.width_eq
    refine .scaled _ hpos fun f => ?_
    rw [mean_ofCells, mean_cells_scaled, mean_massesTo d (by omega), mul_one_div]
    exact congrArg (· / _) (only_congr (fun r _ hr => by simp [hr]) f)
  · rename_i hpos
    exact .refused _ (le_antisymm (not_lt.mp hpos) (share_nonneg hd _))

-- ---------------------------------------------------------------------------
-- What is refused, and what comes out
-- ---------------------------------------------------------------------------

/-- Both are refused for a value, or both are the same distribution. -/
def Agree (x y : Except Fault (Distribution Rat)) : Prop :=
  (∃ f g, x = .error (.value f) ∧ y = .error (.value g)) ∨ ∃ e, x = .ok e ∧ y = .ok e

theorem Conditions.agree (hd : ∀ p ∈ d.masses, 0 ≤ p) (hx : Conditions d P x) (hy : Conditions d P y) :
    Agree x y := by
  cases hx with
  | refused f hzero =>
    cases hy with
    | refused g => exact .inl ⟨f, g, rfl, rfl⟩
    | scaled _ hpos => exact absurd hzero hpos.ne'
  | scaled e hpos hmean =>
    cases hy with
    | refused _ hzero => exact absurd hzero hpos.ne'
    | scaled e' _ hmean' =>
      obtain ⟨htotal, hnonneg⟩ := spec_of_mean hpos hmean hd
      obtain ⟨htotal', hnonneg'⟩ := spec_of_mean hpos hmean' hd
      have hlive : e.Live := live_of_total hnonneg (htotal.trans_ne one_ne_zero)
      have hlive' : e'.Live := live_of_total hnonneg' (htotal'.trans_ne one_ne_zero)
      obtain rfl := hlive.ext hlive' fun r => by rw [mass_of_mean hmean, mass_of_mean hmean']
      exact .inr ⟨e, rfl, rfl⟩

theorem share_eq_zero_iff (hd : ∀ p ∈ d.masses, 0 ≤ p) : d.share P = 0 ↔ ∀ r, P r → d.mass r = 0 := by
  rw [share_eq_sum, Finset.sum_eq_zero_iff_of_nonneg fun r _ => mass_nonneg hd r]
  constructor
  · intro h r hr
    by_contra hmass
    have hwithin := within_of_mass_ne_zero hmass
    exact hmass (h r (Finset.mem_filter.mpr ⟨Finset.mem_Icc.mpr hwithin, hr⟩))
  · intro h r hr
    exact h r (Finset.mem_filter.mp hr).2

theorem Conditions.refused_iff (hd : ∀ p ∈ d.masses, 0 ≤ p) (h : Conditions d P x) :
    (∃ f, x = .error (.value f)) ↔ ∀ r, P r → d.mass r = 0 := by
  rw [← share_eq_zero_iff hd]
  cases h with
  | refused f hzero => exact iff_of_true ⟨f, rfl⟩ hzero
  | scaled e hpos => exact iff_of_false nofun hpos.ne'

/-- Where a class has mass, its results keep their shares and all others lose theirs. -/
theorem Conditions.exists_ok (hd : ∀ p ∈ d.masses, 0 ≤ p) (h : Conditions d P x) {r : Int} (hr : P r)
    (hmass : d.mass r ≠ 0) : ∃ e, x = .ok e ∧ (∀ p ∈ e.masses, 0 ≤ p) ∧ e.masses.sum = 1 ∧
      ∀ r, e.mass r = if P r then d.mass r / d.share P else 0 := by
  cases h with
  | refused f hzero => exact absurd ((share_eq_zero_iff hd).mp hzero r hr) hmass
  | scaled e hpos hmean =>
    obtain ⟨htotal, hnonneg⟩ := spec_of_mean hpos hmean hd
    exact ⟨e, rfl, hnonneg, e.sum_masses.trans htotal, mass_of_mean hmean⟩

theorem Agree.refused_iff (h : Agree x y) : (∃ f, x = .error (.value f)) ↔ ∃ f, y = .error (.value f) := by
  rcases h with ⟨f, g, rfl, rfl⟩ | ⟨e, rfl, rfl⟩
  · exact iff_of_true ⟨f, rfl⟩ ⟨g, rfl⟩
  · exact iff_of_false nofun nofun

-- ---------------------------------------------------------------------------
-- Both sides
-- ---------------------------------------------------------------------------

/-- Knowing that a result is of a class is refused for a value exactly where none of the class has
mass, and scales its masses by so much to one where any has. -/
structure Scales (d : Distribution Rat) (P : Int → Prop) [DecidablePred P] (share : Rat)
    (x : Except Fault (Distribution Rat)) : Prop where
  refused_iff : (∃ f, x = .error (.value f)) ↔ ∀ r, P r → d.mass r = 0
  exists_ok : (∃ r, P r ∧ d.mass r ≠ 0) → ∃ e, x = .ok e ∧ (∀ p ∈ e.masses, 0 ≤ p) ∧
    e.masses.sum = 1 ∧ ∀ r, e.mass r = if P r then d.mass r / share else 0

theorem Conditions.scales (hd : ∀ p ∈ d.masses, 0 ≤ p) {P : Int → Prop} [DecidablePred P] {share : Rat}
    (hshare : share = d.share (P ·)) (h : Conditions d (P ·) x) : Scales d P share x := by
  subst hshare
  refine ⟨by simpa only [decide_eq_true_eq] using h.refused_iff hd, ?_⟩
  rintro ⟨r, hr, hmass⟩
  simpa only [decide_eq_true_eq] using h.exists_ok hd (decide_eq_true hr) hmass

/-- Where the masses come to one, what is known of one side scales the masses there. Bounds on one
side leave the stricter one. Bounds on both sides can be taken in either order, and are refused
exactly where nothing between them has mass, be it at the first step or at the second. -/
theorem given_scales_and_commutes (hd : ∀ p ∈ d.masses, 0 ≤ p) (hsum : d.masses.sum = 1) (s t : Int) :
    Scales d (t ≤ ·) (d.atLeast t) (d.givenAtLeast t) ∧
      Scales d (· ≤ t) (d.atMost t) (d.givenAtMost t) ∧
      Agree (d.givenAtLeast s >>= (·.givenAtLeast t)) (d.givenAtLeast (max s t)) ∧
      Agree (d.givenAtMost s >>= (·.givenAtMost t)) (d.givenAtMost (min s t)) ∧
      Agree (d.givenAtLeast s >>= (·.givenAtMost t)) (d.givenAtMost t >>= (·.givenAtLeast s)) ∧
      ((∃ f, d.givenAtLeast s >>= (·.givenAtMost t) = .error (.value f)) ↔
        ∀ r, s ≤ r → r ≤ t → d.mass r = 0) ∧
      ((∃ f, d.givenAtMost t >>= (·.givenAtLeast s) = .error (.value f)) ↔
        ∀ r, s ≤ r → r ≤ t → d.mass r = 0) := by
  have htotal : d.total = 1 := d.sum_masses.symm.trans hsum
  have hfrom : ∀ t, Conditions d (t ≤ ·) (d.givenAtLeast t) := conditions_givenAtLeast hd htotal
  have hto : ∀ t, Conditions d (· ≤ t) (d.givenAtMost t) := conditions_givenAtMost hd htotal
  have hfromFrom := (hfrom s).bind hd fun e he h => conditions_givenAtLeast he h t
  have htoTo := (hto s).bind hd fun e he h => conditions_givenAtMost he h t
  have hfromTo := (hfrom s).bind hd fun e he h => conditions_givenAtMost he h t
  have htoFrom := (hto t).bind hd fun e he h => conditions_givenAtLeast he h s
  have hrefused : (∃ f, d.givenAtLeast s >>= (·.givenAtMost t) = .error (.value f)) ↔
      ∀ r, s ≤ r → r ≤ t → d.mass r = 0 := by
    rw [hfromTo.refused_iff hd]
    simp only [Bool.and_eq_true, decide_eq_true_eq, and_imp]
  simp only [Bool.and_comm (decide (_ ≤ t))] at htoFrom
  have hagree := hfromTo.agree hd htoFrom
  refine ⟨(hfrom t).scales hd (d.atLeast_eq_share htotal t), (hto t).scales hd (d.atMost_eq_share htotal t),
    ?_, ?_, hagree, hrefused, hagree.refused_iff.symm.trans hrefused⟩
  · have hmax := hfrom (max s t)
    simp only [max_le_iff, Bool.decide_and] at hmax
    exact hfromFrom.agree hd hmax
  · have hmin := hto (min s t)
    simp only [le_min_iff, Bool.decide_and] at hmin
    exact htoTo.agree hd hmin

/-- In a gap nothing is known in either order, next to it both orders leave the same result. -/
theorem given_scales_and_commutes_gapped :
    (∃ f, gapped.givenAtMost (-1) >>= (·.givenAtLeast (-2)) = .error (.value f)) ∧
      gapped.givenAtMost 1 >>= (·.givenAtLeast (-2)) = .ok (ofCells 0 [1]) := by
  have hnonneg : ∀ p ∈ gapped.masses, 0 ≤ p := by decide +kernel
  have hsum : gapped.masses.sum = 1 := by decide +kernel
  obtain ⟨-, -, -, -, -, -, hrefused⟩ := given_scales_and_commutes hnonneg hsum (-2) (-1)
  obtain ⟨-, -, -, -, hagree, -⟩ := given_scales_and_commutes hnonneg hsum (-2) 1
  have hfromTo : gapped.givenAtLeast (-2) >>= (·.givenAtMost 1) = .ok (ofCells 0 [1]) :=
    ok_of_toOption (by decide +kernel)
  constructor
  · rw [hrefused]
    intro r hlow hhigh
    obtain rfl | rfl : r = -2 ∨ r = -1 := by omega
    · decide +kernel
    · decide +kernel
  · rcases hagree with ⟨f, -, hf, -⟩ | ⟨e, he, hcommuted⟩
    · rw [hfromTo] at hf
      cases hf
    · rw [hfromTo] at he
      rw [hcommuted, he]

end TabletopDice.Distribution
