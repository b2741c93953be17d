import TabletopDice.Proofs.Odds.Dice
import TabletopDice.Proofs.Odds.Ends

/-!
# Distributions made of distributions

Masses are checked where they are listed, and never again: what is made of
distributions is taken to be one. Over fractions no mass turns negative on the
way, but a total that was only near one at first is multiplied with every other,
so what a listing may be off by adds up. A listing that comes to one exactly
keeps to one whatever is made of it.
-/

namespace TabletopDice

-- ---------------------------------------------------------------------------
-- Totals
-- ---------------------------------------------------------------------------

namespace Distribution

variable {d e : Distribution Rat}

def total (d : Distribution Rat) : Rat := d.law.mean fun _ => 1

theorem sum_masses (d : Distribution Rat) : d.masses.sum = d.total := sum_eq_mean_cells d.low d.masses

/-- Where means of nonnegative functions are not negative, no mass is. -/
theorem nonneg_of_mean (h : ∀ f : Int → Rat, (∀ r, 0 ≤ f r) → 0 ≤ d.law.mean f) :
    ∀ p ∈ d.masses, 0 ≤ p := by
  refine nonneg_of_mass fun r => ?_
  rw [mass_eq_prob]
  exact h _ fun s => Law.indicator_nonneg _ _

theorem total_ofCells (low : Int) (ps : List Rat) : (ofCells low ps).total = ps.sum := by
  rw [total, mean_ofCells, sum_eq_mean_cells low]

theorem total_ofEntries {es : List (Int × Rat)} (h : ofEntries es = .ok d)
    (hnd : (es.map (·.1)).Nodup) : d.total = (es.map (·.2)).sum := by
  rw [total, mean_ofEntries h hnd]
  simp [Law.mean]

theorem total_fair {sides : Int} (h : fair sides = .ok d) : d.total = 1 := by
  simp only [fair, unless_ok, Except.ok.injEq] at h
  obtain ⟨hsides, -, rfl⟩ := h
  have hcast : ((sides.toNat : Nat) : Rat) = sides := by exact_mod_cast Int.toNat_of_nonneg (by omega)
  have hpos : (sides : Rat) ≠ 0 := by exact_mod_cast (by omega : sides ≠ 0)
  rw [total_ofCells, List.sum_replicate, nsmul_eq_mul, hcast]
  exact mul_one_div_cancel hpos

theorem total_shift (d : Distribution Rat) (delta : Int) : (d.shift delta).total = d.total :=
  d.mean_shift delta fun _ => 1

theorem total_addScaled {a b : Distribution Rat} {m n : Int} (h : addScaled m a n b = .ok e) :
    e.total = a.total * b.total := by
  rw [total, mean_addScaled h, Law.mean_const, total, total]

theorem nonneg_addScaled {a b : Distribution Rat} {m n : Int} (h : addScaled m a n b = .ok e)
    (ha : ∀ p ∈ a.masses, 0 ≤ p) (hb : ∀ p ∈ b.masses, 0 ≤ p) : ∀ p ∈ e.masses, 0 ≤ p := by
  refine nonneg_of_mean fun f hf => ?_
  rw [mean_addScaled h]
  exact (nonneg_law ha).mean_nonneg fun x => (nonneg_law hb).mean_nonneg fun y => hf _

theorem total_sampled {n : Nat} {g : List Int → Int}
    (h : ∀ f, e.law.mean f = (d.law.sample n).mean fun xs => f (g xs)) : e.total = d.total ^ n := by
  rw [total, h, Law.mean_sample_const, mul_one, total]

theorem nonneg_sampled (hd : ∀ p ∈ d.masses, 0 ≤ p) {n : Nat} {g : List Int → Int}
    (h : ∀ f, e.law.mean f = (d.law.sample n).mean fun xs => f (g xs)) : ∀ p ∈ e.masses, 0 ≤ p := by
  refine nonneg_of_mean fun f hf => ?_
  rw [h]
  exact (nonneg_law hd).mean_sample_nonneg n fun xs => hf _

/-- A sum of repeated results, kept or not, is made of so many results. -/
theorem exists_sampled_repeatSum {n : Int} (h : d.repeatSum n = .ok e) :
    ∃ g : List Int → Int, ∀ f, e.law.mean f = (d.law.sample n.toNat).mean fun xs => f (g xs) := by
  have hn : 0 ≤ n := by
    simp only [repeatSum, unless_ok] at h
    omega
  obtain ⟨n, rfl⟩ := Int.eq_ofNat_of_zero_le hn
  exact ⟨List.sum, mean_repeatSum h⟩

theorem exists_sampled_keep (hd : ∀ p ∈ d.masses, 0 ≤ p) {n k : Int} {mode : KeepMode}
    (h : d.keep n k mode = .ok e) :
    ∃ g : List Int → Int, ∀ f, e.law.mean f = (d.law.sample n.toNat).mean fun xs => f (g xs) := by
  have hnk : 1 ≤ n ∧ 1 ≤ k := by
    simp only [keep, unless_ok] at h
    omega
  obtain ⟨n, rfl⟩ := Int.eq_ofNat_of_zero_le (show 0 ≤ n by omega)
  obtain ⟨k, rfl⟩ := Int.eq_ofNat_of_zero_le (show 0 ≤ k by omega)
  rcases Nat.lt_or_ge k n with hlt | hge
  · exact ⟨mode.keptSum k, mean_keep hd (by omega) hlt h⟩
  · exact exists_sampled_repeatSum (Bunch.keep_of_le hge h)

theorem givenAtLeast_of_le {t : Int} (ht : t ≤ d.low) (h : d.givenAtLeast t = .ok e) : e = d := by
  simp only [givenAtLeast, bind_ok, max_eq_right ht] at h
  obtain ⟨_, -, h⟩ := h
  have hall : d.massesFrom d.low = d.masses := by simp [massesFrom]
  rw [show d.atLeast d.low = 1 from if_pos le_rfl, if_pos zero_lt_one, pure_ok, hall] at h
  rw [← h, show ((1 : Rat) / 1) = 1 by norm_num]
  simpa using d.ofCells_self

theorem givenAtMost_of_ge {t : Int} (ht : d.high ≤ t) (h : d.givenAtMost t = .ok e) : e = d := by
  simp only [givenAtMost, bind_ok, min_eq_right ht] at h
  obtain ⟨_, -, h⟩ := h
  have hall : d.massesTo d.high = d.masses := List.take_of_length_le (by
    unfold high width
    omega)
  rw [show d.atMost d.high = 1 from if_pos le_rfl, if_pos zero_lt_one, pure_ok, hall] at h
  rw [← h, show ((1 : Rat) / 1) = 1 by norm_num]
  simpa using d.ofCells_self

theorem above_pos {q : Int} (hq : d.low ≤ q) (h : d.givenAtLeast (q + 1) = .ok e) : 0 < d.above q := by
  simp only [givenAtLeast, bind_ok, max_eq_left (show d.low ≤ q + 1 by omega)] at h
  obtain ⟨_, -, h⟩ := h
  split at h
  · assumption
  · cases h

theorem below_pos {q : Int} (hq : q ≤ d.high) (h : d.givenAtMost (q - 1) = .ok e) : 0 < d.below q := by
  simp only [givenAtMost, bind_ok, min_eq_left (show q - 1 ≤ d.high by omega)] at h
  obtain ⟨_, -, h⟩ := h
  split at h
  · assumption
  · cases h

/-- The share of a class of results in a distribution that has any of them. -/
theorem scaled_only (hd : ∀ p ∈ d.masses, 0 ≤ p) {P : Int → Bool} {p : Rat} (hp : 0 < p)
    (hclass : p = (d.law.only P).mean fun _ => 1)
    (h : ∀ f, e.law.mean f = (d.law.only P).mean f / p) :
    e.total = 1 ∧ ∀ p ∈ e.masses, 0 ≤ p := by
  constructor
  · rw [total, h, ← hclass]
    exact div_self hp.ne'
  · refine nonneg_of_mean fun f hf => ?_
    rw [h]
    exact div_nonneg (((nonneg_law hd).only P).mean_nonneg hf) hp.le

/-- What is known to be at least so much is scaled to one, unless nothing is left out. -/
theorem givenAtLeast_cases (hd : ∀ p ∈ d.masses, 0 ≤ p) {t : Int} (h : d.givenAtLeast t = .ok e) :
    e = d ∨ (e.total = 1 ∧ ∀ p ∈ e.masses, 0 ≤ p) := by
  rcases le_or_gt t d.low with ht | ht
  · exact .inl (givenAtLeast_of_le ht h)
  · obtain ⟨q, rfl⟩ : ∃ q, t = q + 1 := ⟨t - 1, by omega⟩
    have hq : d.low ≤ q := by omega
    exact .inr (scaled_only hd (above_pos hq h) (d.above_eq_mean hq) (mean_givenAbove hq h))

theorem givenAtMost_cases (hd : ∀ p ∈ d.masses, 0 ≤ p) {t : Int} (h : d.givenAtMost t = .ok e) :
    e = d ∨ (e.total = 1 ∧ ∀ p ∈ e.masses, 0 ≤ p) := by
  rcases le_or_gt d.high t with ht | ht
  · exact .inl (givenAtMost_of_ge ht h)
  · obtain ⟨q, rfl⟩ : ∃ q, t = q - 1 := ⟨t + 1, by omega⟩
    have hq : q ≤ d.high := by omega
    have hpos := below_pos hq h
    have hlow : d.low ≤ q := by
      by_contra hlt
      have hnone : d.below q = 0 := by
        rw [below, atMost, if_neg (by omega), if_pos (by omega)]
      exact hpos.ne' hnone
    exact .inr (scaled_only hd hpos (d.below_eq_mean hq) (mean_givenBelow hlow hq h))

end Distribution

-- ---------------------------------------------------------------------------
-- Recipes
-- ---------------------------------------------------------------------------

open TabletopDice.Distribution (tolerance ofMasses)

/-- How a distribution comes about: listed or fair, and then made of others. -/
inductive Recipe where
  | masses (low : Int) (ps : List Rat)
  | entries (es : List (Int × Rat)) (distinct : (es.map (·.1)).Nodup)
  | fair (sides : Int)
  | add (a b : Recipe)
  | addScaled (m : Int) (a : Recipe) (n : Int) (b : Recipe)
  | shift (a : Recipe) (delta : Int)
  | repeatSum (a : Recipe) (n : Int)
  | keep (a : Recipe) (n k : Int) (mode : KeepMode)
  | givenAtLeast (a : Recipe) (target : Int)
  | givenAtMost (a : Recipe) (target : Int)

namespace Recipe

def make : Recipe → Except Fault (Distribution Rat)
  | masses low ps => (ofMasses low ps).mapError .value
  | entries es _ => Distribution.ofEntries es
  | fair sides => Distribution.fair sides
  | add a b => do (Distribution.add (← a.make) (← b.make)).mapError .limit
  | addScaled m a n b => do (Distribution.addScaled m (← a.make) n (← b.make)).mapError .limit
  | shift a delta => do return (← a.make).shift delta
  | repeatSum a n => do (← a.make).repeatSum n
  | keep a n k mode => do (← a.make).keep n k mode
  | givenAtLeast a target => do (← a.make).givenAtLeast target
  | givenAtMost a target => do (← a.make).givenAtMost target

/-- How many listings the total of a recipe is a product of, at most. -/
def listings : Recipe → Nat
  | masses .. | entries .. => 1
  | fair _ => 0
  | add a b | addScaled _ a _ b => a.listings + b.listings
  | repeatSum a n | keep a n _ _ => a.listings * n.toNat
  | shift a _ | givenAtLeast a _ | givenAtMost a _ => a.listings

/-- Every listing comes to one, but for so much. -/
def ListedWithin (δ : Rat) : Recipe → Prop
  | masses _ ps => |ps.sum - 1| ≤ δ
  | entries es _ => |(es.map (·.2)).sum - 1| ≤ δ
  | fair _ => True
  | add a b | addScaled _ a _ b => a.ListedWithin δ ∧ b.ListedWithin δ
  | shift a _ | repeatSum a _ | keep a _ _ _ | givenAtLeast a _ | givenAtMost a _ => a.ListedWithin δ

structure Near (δ : Rat) (n : Nat) (x : Rat) : Prop where
  low : (1 - δ) ^ n ≤ x
  high : x ≤ (1 + δ) ^ n

section
variable {δ x y : Rat} {m n : Nat}

theorem Near.of_abs (h : |x - 1| ≤ δ) : Near δ 1 x := by
  obtain ⟨hlow, hhigh⟩ := abs_le.mp h
  refine ⟨?_, ?_⟩ <;> rw [pow_one] <;> linarith

theorem Near.one (h0 : 0 ≤ δ) (h1 : δ ≤ 1) (n : Nat) : Near δ n 1 where
  low := pow_le_one₀ (by linarith) (by linarith)
  high := one_le_pow₀ (by linarith)

theorem Near.nonneg (h1 : δ ≤ 1) (h : Near δ n x) : 0 ≤ x :=
  (pow_nonneg (sub_nonneg.mpr h1) n).trans h.low

theorem Near.mul (h0 : 0 ≤ δ) (h1 : δ ≤ 1) (hx : Near δ m x) (hy : Near δ n y) :
    Near δ (m + n) (x * y) := by
  have hleft := pow_nonneg (sub_nonneg.mpr h1) n
  have hright : 0 ≤ (1 + δ) ^ m := pow_nonneg (by linarith) m
  constructor
  · rw [pow_add]
    exact mul_le_mul hx.low hy.low hleft (hx.nonneg h1)
  · rw [pow_add]
    exact mul_le_mul hx.high hy.high (hy.nonneg h1) hright

theorem Near.pow (h1 : δ ≤ 1) (h : Near δ m x) (n : Nat) : Near δ (m * n) (x ^ n) := by
  constructor
  · rw [pow_mul]
    exact pow_le_pow_left₀ (pow_nonneg (sub_nonneg.mpr h1) m) h.low n
  · rw [pow_mul]
    exact pow_le_pow_left₀ (h.nonneg h1) h.high n

end

theorem distance_eq_abs (x y : Rat) : Mass.distance x y = |x - y| := by
  unfold Mass.distance
  split
  · rename_i hle
    rw [abs_of_nonpos (sub_nonpos.mpr hle), neg_sub]
  · rename_i hlt
    rw [abs_of_pos (sub_pos.mpr (not_le.mp hlt))]

theorem accepted_iff {ps : List Rat} : Distribution.Accepted ps ↔
    ps ≠ [] ∧ (∀ p ∈ ps, 0 ≤ p ∧ p ≤ 1) ∧ |ps.sum - 1| ≤ tolerance := by
  have htotal : Mass.total ps = ps.sum := List.sum_eq_foldr.symm
  constructor
  · intro h
    have hnear := h.total_near
    rw [distance_eq_abs, htotal, not_lt] at hnear
    exact ⟨h.ne_nil, h.mem_unit, hnear⟩
  · rintro ⟨hne, hunit, hnear⟩
    refine ⟨hne, hunit, ?_⟩
    rwa [distance_eq_abs, htotal, not_lt]

/-- No mass is negative, and the total is as near to one as the listings together are. -/
structure Keeps (r : Recipe) (d : Distribution Rat) : Prop where
  nonneg : ∀ p ∈ d.masses, 0 ≤ p
  listed : r.ListedWithin tolerance
  near : ∀ {δ}, 0 ≤ δ → δ ≤ 1 → r.ListedWithin δ → Near δ r.listings d.total

variable {r a b : Recipe} {d e : Distribution Rat}

theorem keeps_masses {low : Int} {ps : List Rat} (h : ofMasses low ps = .ok d) :
    (masses low ps).Keeps d := by
  obtain ⟨haccepted, rfl⟩ := Distribution.ofMasses_eq_ok.mp h
  have hnonneg : ∀ p ∈ ps, 0 ≤ p := fun p hp => (haccepted.mem_unit p hp).1
  refine ⟨Distribution.nonneg_ofCells hnonneg, (accepted_iff.mp haccepted).2.2, ?_⟩
  intro δ _ _ hlisted
  rw [Distribution.total_ofCells]
  exact .of_abs hlisted

theorem keeps_entries {es : List (Int × Rat)} {distinct : (es.map (·.1)).Nodup}
    (h : Distribution.ofEntries es = .ok d) : (entries es distinct).Keeps d := by
  obtain ⟨low, width, hcovers, -, haccepted, -⟩ := Distribution.ofEntries_ok h
  have hnear := (accepted_iff.mp haccepted).2.2
  rw [Distribution.sum_putAll distinct hcovers] at hnear
  refine ⟨Distribution.nonneg_ofEntries h, hnear, ?_⟩
  intro δ _ _ hlisted
  rw [Distribution.total_ofEntries h distinct]
  exact .of_abs hlisted

theorem keeps_fair {sides : Int} (h : Distribution.fair sides = .ok d) : (fair sides).Keeps d := by
  refine ⟨Distribution.nonneg_fair h, trivial, ?_⟩
  intro δ h0 h1 _
  rw [Distribution.total_fair h]
  exact .one h0 h1 0

theorem Keeps.addScaled {m n : Int} {f : Distribution Rat} (ha : a.Keeps d) (hb : b.Keeps e)
    (h : Distribution.addScaled m d n e = .ok f) : (addScaled m a n b).Keeps f := by
  refine ⟨Distribution.nonneg_addScaled h ha.nonneg hb.nonneg, ⟨ha.listed, hb.listed⟩, ?_⟩
  intro δ h0 h1 hlisted
  rw [Distribution.total_addScaled h]
  exact (ha.near h0 h1 hlisted.1).mul h0 h1 (hb.near h0 h1 hlisted.2)

theorem Keeps.shift (ha : a.Keeps d) (delta : Int) : (shift a delta).Keeps (d.shift delta) := by
  refine ⟨ha.nonneg, ha.listed, ?_⟩
  intro δ h0 h1 hlisted
  rw [Distribution.total_shift]
  exact ha.near h0 h1 hlisted

theorem Keeps.repeatSum {n : Int} (ha : a.Keeps d) (h : d.repeatSum n = .ok e) :
    (repeatSum a n).Keeps e := by
  obtain ⟨g, hg⟩ := Distribution.exists_sampled_repeatSum h
  refine ⟨Distribution.nonneg_sampled ha.nonneg hg, ha.listed, ?_⟩
  intro δ h0 h1 hlisted
  rw [Distribution.total_sampled hg]
  exact (ha.near h0 h1 hlisted).pow h1 n.toNat

theorem Keeps.keep {n k : Int} {mode : KeepMode} (ha : a.Keeps d) (h : d.keep n k mode = .ok e) :
    (keep a n k mode).Keeps e := by
  obtain ⟨g, hg⟩ := Distribution.exists_sampled_keep ha.nonneg h
  refine ⟨Distribution.nonneg_sampled ha.nonneg hg, ha.listed, ?_⟩
  intro δ h0 h1 hlisted
  rw [Distribution.total_sampled hg]
  exact (ha.near h0 h1 hlisted).pow h1 n.toNat

/-- Scaling to one only takes a total nearer to one. -/
theorem Keeps.scaled (ha : a.Keeps d) (h : e = d ∨ (e.total = 1 ∧ ∀ p ∈ e.masses, 0 ≤ p)) : a.Keeps e := by
  rcases h with rfl | ⟨htotal, hnonneg⟩
  · exact ha
  · refine ⟨hnonneg, ha.listed, ?_⟩
    intro δ h0 h1 _
    rw [htotal]
    exact .one h0 h1 _

theorem keeps_of_make (h : r.make = .ok d) : r.Keeps d := by
  induction r generalizing d with
  | masses low ps => exact keeps_masses (mapError_ok.mp h)
  | entries es distinct => exact keeps_entries h
  | fair sides => exact keeps_fair h
  | add a b iha ihb =>
    simp only [make, bind_ok, mapError_ok] at h
    obtain ⟨x, hx, y, hy, h⟩ := h
    have hsum := (iha hx).addScaled (ihb hy) h
    exact ⟨hsum.nonneg, hsum.listed, hsum.near⟩
  | addScaled m a n b iha ihb =>
    simp only [make, bind_ok, mapError_ok] at h
    obtain ⟨x, hx, y, hy, h⟩ := h
    exact (iha hx).addScaled (ihb hy) h
  | shift a delta ih =>
    obtain ⟨x, hx, h⟩ := bind_ok.mp h
    obtain rfl := pure_ok.mp h
    exact (ih hx).shift delta
  | repeatSum a n ih =>
    obtain ⟨x, hx, h⟩ := bind_ok.mp h
    exact (ih hx).repeatSum h
  | keep a n k mode ih =>
    obtain ⟨x, hx, h⟩ := bind_ok.mp h
    exact (ih hx).keep h
  | givenAtLeast a target ih =>
    obtain ⟨x, hx, h⟩ := bind_ok.mp h
    have hscaled := (ih hx).scaled (Distribution.givenAtLeast_cases (ih hx).nonneg h)
    exact ⟨hscaled.nonneg, hscaled.listed, hscaled.near⟩
  | givenAtMost a target ih =>
    obtain ⟨x, hx, h⟩ := bind_ok.mp h
    have hscaled := (ih hx).scaled (Distribution.givenAtMost_cases (ih hx).nonneg h)
    exact ⟨hscaled.nonneg, hscaled.listed, hscaled.near⟩

/-- What is made of listed masses has no negative mass, and as many listings as its total is made
of can take it away from one. It is accepted where masses are listed exactly if no mass and not the
total is too large by then, which it never is when every listing comes to one. -/
theorem make_accepted_iff (h : r.make = .ok d) :
    (∀ p ∈ d.masses, 0 ≤ p ∧ p ≤ d.masses.sum) ∧ r.ListedWithin tolerance ∧
    (∀ δ, 0 ≤ δ → δ ≤ 1 → r.ListedWithin δ →
      (1 - δ) ^ r.listings ≤ d.masses.sum ∧ d.masses.sum ≤ (1 + δ) ^ r.listings) ∧
    (ofMasses d.low d.masses = .ok d ↔
      (∀ p ∈ d.masses, p ≤ 1) ∧ |d.masses.sum - 1| ≤ tolerance) ∧
    (r.ListedWithin 0 → d.masses.sum = 1 ∧ (∀ p ∈ d.masses, p ≤ 1) ∧ ofMasses d.low d.masses = .ok d) := by
  have hkeeps := keeps_of_make h
  have hle : ∀ p ∈ d.masses, p ≤ d.masses.sum := List.single_le_sum hkeeps.nonneg
  have hself : ofMasses d.low d.masses = .ok d ↔ Distribution.Accepted d.masses := by
    rw [Distribution.ofMasses_eq_ok, d.ofCells_self, and_iff_left rfl]
  refine ⟨fun p hp => ⟨hkeeps.nonneg p hp, hle p hp⟩, hkeeps.listed, ?_, ?_, ?_⟩
  · intro δ h0 h1 hlisted
    rw [d.sum_masses]
    exact ⟨(hkeeps.near h0 h1 hlisted).low, (hkeeps.near h0 h1 hlisted).high⟩
  · rw [hself, accepted_iff]
    constructor
    · rintro ⟨-, hunit, hnear⟩
      exact ⟨fun p hp => (hunit p hp).2, hnear⟩
    · rintro ⟨hunit, hnear⟩
      exact ⟨d.trimmed.ne_nil, fun p hp => ⟨hkeeps.nonneg p hp, hunit p hp⟩, hnear⟩
  · intro hlisted
    have hnear := hkeeps.near le_rfl zero_le_one hlisted
    have hsum : d.masses.sum = 1 := by
      rw [d.sum_masses]
      exact le_antisymm (by simpa using hnear.high) (by simpa using hnear.low)
    refine ⟨hsum, fun p hp => hsum ▸ hle p hp, ?_⟩
    rw [Distribution.ofMasses_of_sum hkeeps.nonneg hsum, d.ofCells_self]

/-- Two results that come to slightly more than one, though within the tolerance. -/
def generous : Recipe := masses 0 [1, 9 / 10 ^ 7]

def even : Recipe := masses 0 [1 / 2, 1 / 2]

def generousTwice : Distribution Rat := .ofCells 0 [1, 18 / 10 ^ 7, 81 / 10 ^ 14]

def evenTwice : Distribution Rat := .ofCells 0 [1 / 4, 1 / 2, 1 / 4]

theorem make_generousTwice : (repeatSum generous 2).make = .ok generousTwice :=
  ok_of_toOption (by decide +kernel)

theorem make_evenTwice : (repeatSum even 2).make = .ok evenTwice :=
  ok_of_toOption (by decide +kernel)

/-- Two generous results are no longer accepted, two even ones are. -/
theorem make_accepted_iff_twice :
    ofMasses generousTwice.low generousTwice.masses ≠ .ok generousTwice ∧
      ofMasses evenTwice.low evenTwice.masses = .ok evenTwice := by
  constructor
  · intro hok
    have hnear := ((make_accepted_iff make_generousTwice).2.2.2.1.mp hok).2
    exact absurd hnear (by decide +kernel)
  · have hlisted : (repeatSum even 2).ListedWithin 0 := by
      simp only [even, ListedWithin]
      norm_num
    exact ((make_accepted_iff make_evenTwice).2.2.2.2 hlisted).2.2

end Recipe

end TabletopDice
