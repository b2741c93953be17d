import Mathlib.Algebra.BigOperators.Fin
import Mathlib.Data.Fintype.Pi
import TabletopDice.Proofs.Dice.Ranking
import TabletopDice.Proofs.Odds.Arrangements
import TabletopDice.Proofs.Odds.Sum
import TabletopDice.Odds.Keep

/-!
# Laws of kept sums

The sum of the best, or worst, results of a sample. Every sample has one last
result that is kept, and by that result samples fall apart. What is preferred
to it, equal to it and rejected for it are then independent samples of the
three parts of the law, in as many orders as there are places for them.
-/

namespace TabletopDice

open Finset (range)

-- ---------------------------------------------------------------------------
-- Samples by their last kept result
-- ---------------------------------------------------------------------------

namespace Law

variable (l : Law Int) (mode : KeepMode)

def rejectedMass (q : Int) : Rat := (l.only (mode.prefers q ·)).mean fun _ => 1

def tiedMass (q : Int) : Rat := (l.only (· == q)).mean fun _ => 1

def preferredMass (q : Int) : Rat := (l.only (mode.prefers · q)).mean fun _ => 1

/-- The mean over the sum of `k` results of which `b` are preferred to `q` and the others are
`q`. -/
def preferredMean (k b : Nat) (q : Int) (f : Int → Rat) : Rat :=
  ((l.only (mode.prefers · q)).sample b).mean fun bs => f (bs.sum + q * (k - b : Nat))

def lastMean (n k : Nat) (q : Int) (f : Int → Rat) : Rat :=
  (l.sample n).mean fun xs => if mode.IsLast k q xs then f (mode.keptSum k xs) else 0

theorem only_rejected (q : Int) :
    (l.only (!mode.prefers · q)).only (fun x => !(x == q)) = l.only (mode.prefers q ·) := by
  rw [only_only]
  congr 1
  funext x
  rcases eq_or_ne x q with rfl | hne
  · simp [KeepMode.prefers_self]
  · cases hx : mode.prefers x q with
    | false => simp [hne, KeepMode.prefers_of_ne hne hx]
    | true => simp [KeepMode.prefers_asymm hx]

theorem only_tied (q : Int) : (l.only (!mode.prefers · q)).only (· == q) = l.only (· == q) := by
  rw [only_only]
  congr 1
  funext x
  rcases eq_or_ne x q with rfl | hne
  · simp [KeepMode.prefers_self]
  · simp [hne]

theorem mean_count (m k : Nat) (q : Int) :
    (((l.only (!mode.prefers · q)).sample m).mean fun xs => if k ≤ xs.count q then 1 else 0) =
      ∑ r ∈ range (m + 1), m.choose r * (l.rejectedMass mode q ^ r * (l.tiedMass q ^ (m - r) *
        if k ≤ m - r then 1 else 0)) := by
  have hsplit := mean_sample_split (l.only (!mode.prefers · q)) (fun x => !(x == q)) m fun _ ts =>
    if k ≤ ts.length then (1 : Rat) else 0
  simp only [meanApart, Bool.not_not, ← List.count_eq_length_filter, only_rejected,
    only_tied] at hsplit
  rw [hsplit]
  refine Finset.sum_congr rfl fun r _ => ?_
  rw [mean_sample_length _ _ fun length _ => if k ≤ length then (1 : Rat) else 0,
    mean_sample_const, mean_sample_const]
  rfl

theorem lastMean_eq_sum {n k : Nat} (hk : k ≤ n) (q : Int) (f : Int → Rat) :
    l.lastMean mode n k q f = ∑ b ∈ range k, n.choose b * (l.preferredMean mode k b q f *
      ((l.only (!mode.prefers · q)).sample (n - b)).mean fun cs =>
        if k - b ≤ cs.count q then 1 else 0) := by
  have hsplit := mean_sample_split l (mode.prefers · q) n fun bs cs =>
    if bs.length < k ∧ k - bs.length ≤ cs.count q then f (bs.sum + q * (k - bs.length : Nat)) else 0
  -- Whether `q` is the last one kept depends on the preferred results through their number alone.
  have hlast : ∀ xs : List Int, (if mode.IsLast k q xs then f (mode.keptSum k xs) else 0) =
      if (mode.above q xs).length < k ∧ k - (mode.above q xs).length ≤
        (xs.filter (!mode.prefers · q)).count q
      then f ((mode.above q xs).sum + q * (k - (mode.above q xs).length : Nat)) else 0 := by
    intro xs
    rw [List.count_filter (by simp [KeepMode.prefers_self])]
    have hiff : mode.IsLast k q xs ↔ (mode.above q xs).length < k ∧
        k - (mode.above q xs).length ≤ xs.count q :=
      and_congr_right fun _ => Nat.sub_le_iff_le_add'.symm
    by_cases h : mode.IsLast k q xs
    · rw [if_pos h, if_pos (hiff.mp h), h.keptSum]
    · rw [if_neg h, if_neg (mt hiff.mpr h)]
  simp only [lastMean, hlast]
  refine hsplit.trans ?_
  rw [← Finset.sum_subset (Finset.range_mono (show k ≤ n + 1 by omega))]
  · refine Finset.sum_congr rfl fun b hb => ?_
    have hlt := Finset.mem_range.mp hb
    rw [meanApart, mean_sample_length _ _ fun length bs => ((l.only (!mode.prefers · q)).sample
      (n - b)).mean fun cs => if length < k ∧ k - length ≤ cs.count q
        then f (bs.sum + q * (k - length : Nat)) else 0, preferredMean, ← mean_mul_right]
    simp only [hlt, true_and, ← mean_mul_left, mul_ite, mul_one, mul_zero]
  · intro b _ hb
    have hle : ¬ b < k := fun h => hb (Finset.mem_range.mpr h)
    rw [meanApart, mean_sample_length _ _ fun length bs => ((l.only (!mode.prefers · q)).sample
      (n - b)).mean fun cs => if length < k ∧ k - length ≤ cs.count q
        then f (bs.sum + q * (k - length : Nat)) else 0]
    simp only [hle, false_and, if_false, mean_sample_const, mul_zero]

/-- The mean over the sums of samples whose last kept result is `q`, with `b` results preferred
to it. -/
def splitMean (n k b : Nat) (q : Int) (f : Int → Rat) : Rat :=
  ∑ r ∈ range (n - k + 1), n.choose b * (n - b).choose r *
    (l.rejectedMass mode q ^ r * l.tiedMass q ^ (n - b - r)) * l.preferredMean mode k b q f

theorem lastMean_eq {n k : Nat} (hk : k ≤ n) (q : Int) (f : Int → Rat) :
    l.lastMean mode n k q f = ∑ b ∈ range k, l.splitMean mode n k b q f := by
  rw [lastMean_eq_sum l mode hk]
  refine Finset.sum_congr rfl fun b hb => ?_
  have hlt := Finset.mem_range.mp hb
  rw [splitMean, mean_count,
    ← Finset.sum_subset (Finset.range_mono (show n - k + 1 ≤ n - b + 1 by omega)),
    Finset.mul_sum, Finset.mul_sum]
  · refine Finset.sum_congr rfl fun r hr => ?_
    have hle := Finset.mem_range.mp hr
    rw [if_pos (by omega)]
    ring
  · intro r hr hr'
    rw [Finset.mem_range] at hr hr'
    rw [if_neg (by omega), mul_zero, mul_zero, mul_zero]

theorem preferredMean_eq_zero {l : Law Int} (hl : l.Nonneg) {mode : KeepMode} {k b : Nat} {q : Int}
    (hb : b ≠ 0) (h : l.preferredMass mode q = 0) (f : Int → Rat) :
    l.preferredMean mode k b q f = 0 := by
  obtain ⟨b, rfl⟩ := Nat.exists_eq_succ_of_ne_zero hb
  rw [preferredMean, mean_sample_succ]
  exact (hl.only _).mean_eq_zero h _

/-- A mean over kept sums is made up of the samples with one last kept result each. -/
theorem mean_keptSum {n k : Nat} (hk : 0 < k) (hkn : k ≤ n) (hnd : (l.outcomes.map (·.1)).Nodup)
    (f : Int → Rat) :
    ((l.sample n).mean fun xs => f (mode.keptSum k xs)) =
      (l.outcomes.map fun o => l.lastMean mode n k o.1 f).sum := by
  simp only [lastMean]
  rw [← mean_list_sum]
  refine mean_congr fun o ho => ?_
  obtain ⟨hlen, hmem⟩ := mem_sample ho
  obtain ⟨q, hq, hlast⟩ := mode.exists_isLast hk (hlen ▸ hkn)
  obtain ⟨w, hw⟩ := hmem q hq
  have hsum := List.sum_map_eq_nsmul_single (l := l.outcomes.map (·.1)) q
    (fun q' => if mode.IsLast k q' o.1 then f (mode.keptSum k o.1) else 0)
    fun q' hne _ => if_neg fun h => hne (h.eq hlast)
  rw [List.map_map, List.count_eq_one_of_mem hnd (List.mem_map_of_mem hw), one_nsmul,
    if_pos hlast] at hsum
  exact hsum.symm

end Law

-- ---------------------------------------------------------------------------
-- Arrangements
-- ---------------------------------------------------------------------------

/-- The orders of three groups are choices of places for one after another. -/
theorem Arrangements.count_eq (r t b : Nat) :
    count [r, t, b] = (t + r + b).choose b * (t + r).choose r := by
  have hb := Nat.add_choose_mul_factorial_mul_factorial (t + r) b
  have hr := Nat.add_choose_mul_factorial_mul_factorial t r
  simp only [count, List.foldl_cons, List.foldl_nil, List.foldr_cons, List.foldr_nil, factorial_eq,
    Nat.add_zero, Nat.div_div_eq_div_mul]
  refine Nat.div_eq_of_eq_mul_left ?_ ?_
  · positivity
  · rw [← add_assoc, add_comm r t, ← hb, ← hr]
    ring

namespace Distribution

-- ---------------------------------------------------------------------------
-- Preferred results
-- ---------------------------------------------------------------------------

theorem tails_eq (d : Distribution Rat) (mode : KeepMode) {q : Int} (hlow : d.low ≤ q)
    (hhigh : q ≤ d.high) :
    d.tails q mode = (d.law.rejectedMass mode q, d.law.preferredMass mode q) := by
  cases mode with
  | best => rw [tails, d.below_eq_mean hhigh, d.above_eq_mean hlow]; rfl
  | worst => rw [tails, d.below_eq_mean hhigh, d.above_eq_mean hlow]; rfl

theorem preferred?_ok {d : Distribution Rat} {mode : KeepMode} {q : Int} (hlow : d.low ≤ q)
    (hhigh : q ≤ d.high) {o : Option (Distribution Rat)} (h : d.preferred? q mode = .ok o) :
    (o = none ∧ ¬ 0 < d.law.preferredMass mode q) ∨ ∃ e, o = some e ∧
      0 < d.law.preferredMass mode q ∧ ∀ f : Int → Rat,
        d.law.preferredMass mode q * e.law.mean f = (d.law.only (mode.prefers · q)).mean f := by
  cases mode with
  | best =>
    obtain ⟨_, -, h⟩ := bind_ok.mp h
    rw [d.above_eq_mean hlow] at h
    split at h
    · rename_i hpos
      obtain ⟨e, he, rfl⟩ := map_ok.mp h
      refine .inr ⟨e, rfl, hpos, fun f => ?_⟩
      rw [mean_givenAbove hlow he, d.above_eq_mean hlow]
      exact mul_div_cancel₀ _ hpos.ne'
    · exact .inl ⟨(pure_ok.mp h).symm, ‹_›⟩
  | worst =>
    obtain ⟨_, -, h⟩ := bind_ok.mp h
    rw [d.below_eq_mean hhigh] at h
    split at h
    · rename_i hpos
      obtain ⟨e, he, rfl⟩ := map_ok.mp h
      refine .inr ⟨e, rfl, hpos, fun f => ?_⟩
      rw [mean_givenBelow hlow hhigh he, d.below_eq_mean hhigh]
      exact mul_div_cancel₀ _ hpos.ne'
    · exact .inl ⟨(pure_ok.mp h).symm, ‹_›⟩

theorem mean_tied (d : Distribution Rat) (mode : KeepMode) (k : Nat) (q : Int)
    (f : Int → Rat) : (ofCells (q * k) [1]).law.mean f = d.law.preferredMean mode k 0 q f := by
  simp [Law.preferredMean]

theorem keptSums_ok {d : Distribution Rat} {mode : KeepMode} {k : Nat} {q : Int}
    (hlow : d.low ≤ q) (hhigh : q ≤ d.high) {sums : List (Distribution Rat)}
    (h : d.keptSums k q mode = .ok sums) {b : Nat} (hb : b < k)
    (hpos : b = 0 ∨ 0 < d.law.preferredMass mode q) :
    ∃ kept, sums[b]? = some kept ∧ ∀ f : Int → Rat,
      d.law.preferredMass mode q ^ b * kept.law.mean f = d.law.preferredMean mode k b q f := by
  obtain ⟨o, ho, h⟩ := bind_ok.mp h
  rcases preferred?_ok hlow hhigh ho with ⟨rfl, hnone⟩ | ⟨e, rfl, -, hmean⟩
  · obtain rfl := pure_ok.mp h
    obtain rfl := hpos.resolve_right hnone
    exact ⟨_, rfl, fun f => by rw [pow_zero, one_mul, mean_tied]⟩
  · obtain ⟨mixed, hmixed, h⟩ := bind_ok.mp h
    obtain rfl := pure_ok.mp h
    cases b with
    | zero => exact ⟨_, rfl, fun f => by rw [pow_zero, one_mul, mean_tied]⟩
    | succ b =>
      have hrange : (List.range (k - 1))[b]? = some b := by
        rw [List.getElem?_range]
        omega
      obtain ⟨kept, hkept, hget⟩ := mapM_ok_getElem? hmixed hrange
      obtain ⟨sum, hsum, hkept⟩ := bind_ok.mp hkept
      obtain rfl := pure_ok.mp hkept
      refine ⟨_, hget, fun f => ?_⟩
      rw [mean_shift, mean_repeatSum hsum, sumMean, Law.mean_sample_scaled hmean]
      rfl

-- ---------------------------------------------------------------------------
-- Kept sums
-- ---------------------------------------------------------------------------

/-- The masses of a sum of `k` results of which `b` are preferred to `q`. -/
def IsKept (d : Distribution Rat) (mode : KeepMode) (k b : Nat) (q : Int)
    (kept : Distribution Rat) : Prop :=
  ∃ c, 0 < c ∧ ∀ f : Int → Rat, c * kept.law.mean f = d.law.preferredMean mode k b q f

theorem IsKept.nonneg {d : Distribution Rat} (hd : ∀ p ∈ d.masses, 0 ≤ p) {mode : KeepMode}
    {k b : Nat} {q : Int} {kept : Distribution Rat} (h : d.IsKept mode k b q kept) :
    ∀ p ∈ kept.masses, 0 ≤ p := by
  obtain ⟨c, hc, hmean⟩ := h
  intro p hp
  obtain ⟨i, hi⟩ := List.mem_iff_getElem?.mp hp
  have hmass : kept.mass (kept.low + i) = p := by
    rw [mass, if_neg (by omega)]
    simp [hi]
  have hprob : 0 ≤ c * p := by
    rw [← hmass, mass_eq_prob, Law.prob, hmean]
    exact ((nonneg_law hd).only _).mean_sample_nonneg b fun bs => Law.indicator_nonneg _ _
  exact nonneg_of_mul_nonneg_right hprob hc

theorem sum_between {low high : Int} {xs : List Int} (h : ∀ x ∈ xs, low ≤ x ∧ x ≤ high) :
    low * xs.length ≤ xs.sum ∧ xs.sum ≤ high * xs.length := by
  induction xs with
  | nil => simp
  | cons x xs ih =>
    obtain ⟨hlow, hhigh⟩ := h x List.mem_cons_self
    obtain ⟨ihlow, ihhigh⟩ := ih fun y hy => h y (List.mem_cons_of_mem x hy)
    simp only [List.sum_cons, List.length_cons, Nat.cast_add, Nat.cast_one, mul_add, mul_one]
    omega

theorem IsKept.within {d : Distribution Rat} {mode : KeepMode} {k b : Nat} {q : Int}
    {kept : Distribution Rat} (h : d.IsKept mode k b q kept) (hlow : d.low ≤ q)
    (hhigh : q ≤ d.high) (hb : b ≤ k) {e : Int × Rat} (he : e ∈ kept.entries) :
    d.low * k ≤ e.1 ∧ e.1 ≤ d.high * k := by
  obtain ⟨c, hc, hmean⟩ := h
  obtain ⟨hcell, hpos⟩ := mem_entries.mp he
  by_contra hout
  have hzero : c * e.2 = 0 := by
    rw [← mass_of_mem_cells hcell, mass_eq_prob, Law.prob, hmean]
    refine Law.mean_eq_zero fun o ho => if_neg fun hr => hout ?_
    obtain ⟨hlen, hmem⟩ := Law.mem_sample ho
    have hsum : d.low * o.1.length ≤ o.1.sum ∧ o.1.sum ≤ d.high * o.1.length :=
      sum_between fun x hx => by
        obtain ⟨w, hw⟩ := hmem x hx
        exact cells_within (Law.mem_only.mp hw).1
    have hr : o.1.sum + q * (k - b : Nat) = e.1 := hr
    have hql := mul_le_mul_of_nonneg_right hlow (Int.natCast_nonneg (k - b))
    have hqh := mul_le_mul_of_nonneg_right hhigh (Int.natCast_nonneg (k - b))
    have hk : ((k - b : Nat) : Int) = k - b := Nat.cast_sub hb
    rw [hlen] at hsum
    rw [hk] at hql hqh hr
    constructor
    · linarith
    · linarith
  exact (mul_pos hc hpos).ne' hzero

theorem exists_isKept {d : Distribution Rat} (hd : ∀ p ∈ d.masses, 0 ≤ p) {mode : KeepMode}
    {k b : Nat} {q : Int} {p : Rat} (hlow : d.low ≤ q) (hhigh : q ≤ d.high)
    {sums : List (Distribution Rat)} (hsums : d.keptSums k q mode = .ok sums) (hb : b < k)
    (hpos : 0 < d.law.preferredMass mode q ^ b * p ^ (k - b)) :
    ∃ kept, sums[b]? = some kept ∧ d.IsKept mode k b q kept ∧ ∀ f : Int → Rat,
      d.law.preferredMass mode q ^ b * kept.law.mean f = d.law.preferredMean mode k b q f := by
  have hpref : 0 ≤ d.law.preferredMass mode q :=
    ((nonneg_law hd).only _).mean_nonneg fun _ => zero_le_one
  have hb0 : b = 0 ∨ 0 < d.law.preferredMass mode q := by
    rcases hpref.eq_or_lt with hzero | hpos'
    · refine .inl (by_contra fun hne => hpos.ne' ?_)
      rw [← hzero, zero_pow hne, zero_mul]
    · exact .inr hpos'
  obtain ⟨kept, hkept, hmean⟩ := keptSums_ok hlow hhigh hsums hb hb0
  have hpow : 0 < d.law.preferredMass mode q ^ b := by
    rcases hb0 with rfl | hpos'
    · simp
    · exact pow_pos hpos' b
  exact ⟨kept, hkept, ⟨_, hpow, hmean⟩, hmean⟩

-- ---------------------------------------------------------------------------
-- Tables of kept sums
-- ---------------------------------------------------------------------------

def splitMass (discards tied b : Nat) (pKept pTied pRejected : Rat) (r : Nat) : Rat :=
  pKept * pTied ^ (discards - r) * pRejected ^ r *
    ((Arrangements.count [r, tied + (discards - r), b] : Nat) : Int)

theorem gains_addSplits {discards tied b : Nat} {pKept pTied pRejected : Rat}
    (hKept : 0 ≤ pKept) (hTied : 0 ≤ pTied) (hRejected : 0 ≤ pRejected)
    {kept : Distribution Rat} (hkept : ∀ p ∈ kept.masses, 0 ≤ p) {t : Table Rat}
    (hcovers : ∀ e ∈ kept.entries, t.Covers e.1) :
    Table.Gains t (addSplits discards tied b pKept pTied pRejected kept t) fun f =>
      ∑ r ∈ range (discards + 1),
        splitMass discards tied b pKept pTied pRejected r * kept.law.mean f := by
  refine Table.gains_foldl (fun r f =>
    splitMass discards tied b pKept pTied pRejected r * kept.law.mean f) fun r _ t' hlow hsize => ?_
  dsimp only
  split
  · refine (Table.gains_foldl (fun (e : Int × Rat) f =>
      e.2 * splitMass discards tied b pKept pTied pRejected r * f e.1)
      fun e he s hlow' hsize' => Table.gains_add
        (((hcovers e he).of_eq hlow hsize).of_eq hlow' hsize') _).congr fun f => ?_
    rw [← mean_entries hkept, Law.mean, ← List.sum_map_mul_left]
    exact congrArg List.sum (List.map_congr_left fun e _ => by ring)
  · rename_i hnone
    have hzero : pKept * pTied ^ (discards - r) * pRejected ^ r = 0 :=
      le_antisymm (not_lt.mp hnone) (by positivity)
    exact (Table.Gains.refl t').congr fun f => by rw [splitMass, hzero, zero_mul, zero_mul]

theorem tiedMass_eq {d : Distribution Rat} {e : Int × Rat} (he : e ∈ d.entries) :
    d.law.tiedMass e.1 = e.2 := by
  rw [← mass_of_mem_cells (mem_entries.mp he).1, mass_eq_prob, Law.prob, Law.tiedMass,
    Law.mean_only]
  refine Law.mean_congr fun o _ => ?_
  simp [Law.indicator]

def addPreferred {α : Type} [Mass α] (sums : List (Distribution α)) (discards k : Nat)
    (pTied pRejected pPreferred : α) (t : Table α) (b : Nat) : Table α :=
  let pKept := Mass.pow pPreferred b * Mass.pow pTied (k - b)
  if 0 < pKept then
    match sums[b]? with
    | some kept => addSplits discards (k - b) b pKept pTied pRejected kept t
    | none => t
  else t

theorem addLastKept_ok {d : Distribution Rat} {n k : Nat} {mode : KeepMode} {t t' : Table Rat}
    {q : Int} {p : Rat} (hlow : d.low ≤ q) (hhigh : q ≤ d.high)
    (h : d.addLastKept n k mode t q p = .ok t') :
    ∃ sums, d.keptSums k q mode = .ok sums ∧ t' = (List.range k).foldl
      (addPreferred sums (n - k) k p (d.law.rejectedMass mode q) (d.law.preferredMass mode q)) t := by
  obtain ⟨sums, hsums, h⟩ := bind_ok.mp h
  obtain ⟨_, -, h⟩ := bind_ok.mp h
  obtain ⟨_, -, h⟩ := bind_ok.mp h
  rw [tails_eq d mode hlow hhigh] at h
  exact ⟨sums, hsums, (pure_ok.mp h).symm⟩

theorem splitMass_eq {n k b r : Nat} (hkn : k ≤ n) (hb : b < k) (hr : r < n - k + 1)
    (pKept pTied pRejected : Rat) :
    splitMass (n - k) (k - b) b (pKept * pTied ^ (k - b)) pTied pRejected r =
      n.choose b * (n - b).choose r * (pRejected ^ r * pTied ^ (n - b - r)) * pKept := by
  have hplaces : k - b + (n - k - r) + r = n - b := by omega
  have hpow : pTied ^ (n - b - r) = pTied ^ (k - b) * pTied ^ (n - k - r) := by
    rw [← pow_add]
    congr 1
    omega
  rw [splitMass, Arrangements.count_eq, hplaces, Nat.sub_add_cancel (hb.le.trans hkn), hpow]
  push_cast
  ring

theorem gains_addPreferred {d : Distribution Rat} (hd : ∀ p ∈ d.masses, 0 ≤ p) {n k : Nat}
    (hkn : k ≤ n) {mode : KeepMode} {e : Int × Rat} (he : e ∈ d.entries)
    {sums : List (Distribution Rat)} (hsums : d.keptSums k e.1 mode = .ok sums) {t : Table Rat}
    (hcovers : ∀ r, d.low * k ≤ r → r ≤ d.high * k → t.Covers r) {b : Nat} (hb : b < k) :
    Table.Gains t (addPreferred sums (n - k) k e.2 (d.law.rejectedMass mode e.1)
      (d.law.preferredMass mode e.1) t b) (d.law.splitMean mode n k b e.1) := by
  obtain ⟨hcell, hpos⟩ := mem_entries.mp he
  obtain ⟨hlow, hhigh⟩ := cells_within hcell
  have hnonneg := nonneg_law hd
  have hpref : 0 ≤ d.law.preferredMass mode e.1 :=
    (hnonneg.only _).mean_nonneg fun _ => zero_le_one
  have hrej : 0 ≤ d.law.rejectedMass mode e.1 :=
    (hnonneg.only _).mean_nonneg fun _ => zero_le_one
  unfold addPreferred
  dsimp only
  split
  · rename_i hKept
    obtain ⟨kept, hkept, hisKept, hmean⟩ := exists_isKept hd hlow hhigh hsums hb hKept
    simp only [hkept]
    refine (gains_addSplits (le_of_lt hKept) hpos.le hrej (hisKept.nonneg hd)
      fun e' he' => ?_).congr fun f => ?_
    · obtain ⟨hr, hr'⟩ := hisKept.within hlow hhigh hb.le he'
      exact hcovers e'.1 hr hr'
    · refine Finset.sum_congr rfl fun r hr => ?_
      have hsplit := splitMass_eq hkn hb (Finset.mem_range.mp hr)
        (d.law.preferredMass mode e.1 ^ b) e.2 (d.law.rejectedMass mode e.1)
      rw [tiedMass_eq he, ← hmean]
      refine (congrArg (· * kept.law.mean f) hsplit).trans ?_
      ring
  · rename_i hKept
    -- Nothing is added, and rightly: the preferred results have no mass.
    have hKept : ¬ 0 < d.law.preferredMass mode e.1 ^ b * e.2 ^ (k - b) := hKept
    have hzero : d.law.preferredMass mode e.1 ^ b = 0 := by
      by_contra hne
      exact hKept (mul_pos (lt_of_le_of_ne (by positivity) (Ne.symm hne)) (by positivity))
    refine (Table.Gains.refl t).congr fun f => ?_
    have hb0 : b ≠ 0 := fun h0 => by simp [h0] at hzero
    have hmean := Law.preferredMean_eq_zero hnonneg (k := k) hb0 (eq_zero_of_pow_eq_zero hzero) f
    simp only [Law.splitMean, hmean, mul_zero, Finset.sum_const_zero]

theorem gains_addLastKept {d : Distribution Rat} (hd : ∀ p ∈ d.masses, 0 ≤ p) {n k : Nat}
    (hkn : k ≤ n) {mode : KeepMode} {e : Int × Rat} (he : e ∈ d.entries) {t t' : Table Rat}
    (hcovers : ∀ r, d.low * k ≤ r → r ≤ d.high * k → t.Covers r)
    (h : d.addLastKept n k mode t e.1 e.2 = .ok t') :
    Table.Gains t t' (d.law.lastMean mode n k e.1) := by
  obtain ⟨hlow, hhigh⟩ := cells_within (mem_entries.mp he).1
  obtain ⟨sums, hsums, rfl⟩ := addLastKept_ok hlow hhigh h
  refine (Table.gains_foldl (fun b => d.law.splitMean mode n k b e.1)
    fun b hb s hlow' hsize' => ?_).congr fun f => (Law.lastMean_eq d.law mode hkn e.1 f).symm
  exact gains_addPreferred hd hkn he hsums (fun r hr hr' => (hcovers r hr hr').of_eq hlow' hsize')
    (List.mem_range.mp hb)

-- ---------------------------------------------------------------------------
-- The kept sum
-- ---------------------------------------------------------------------------

theorem keep_ok {α : Type} [Mass α] {d e : Distribution α} {n k : Nat} {mode : KeepMode}
    (hkn : k < n) (h : d.keep n k mode = .ok e) :
    ∃ t, d.entries.foldlM (fun t e => d.addLastKept n k mode t e.1 e.2)
      (Table.empty (d.low * k) ((d.width - 1) * k + 1)) = .ok t ∧ e = ofTable t := by
  simp only [keep, unless_ok] at h
  obtain ⟨-, -, -, h⟩ := h
  rw [if_neg (by omega)] at h
  obtain ⟨t, ht, h⟩ := bind_ok.mp h
  exact ⟨t, ht, (pure_ok.mp h).symm⟩

theorem covers_keep (d : Distribution Rat) (k : Nat) {r : Int} (hlow : d.low * k ≤ r)
    (hhigh : r ≤ d.high * k) :
    (Table.empty (d.low * k) ((d.width - 1) * k + 1) : Table Rat).Covers r := by
  have hwidth : ((d.width - 1 : Nat) : Int) = d.width - 1 := Nat.cast_sub d.width_pos
  simp only [Table.Covers, Table.low_empty, Table.size_empty]
  push_cast
  rw [hwidth]
  rw [high] at hhigh
  constructor
  · exact hlow
  · linarith

/-- The kept sum of a distribution is the law of the kept sum of a sample. -/
theorem mean_keep {d e : Distribution Rat} (hd : ∀ p ∈ d.masses, 0 ≤ p) {n k : Nat}
    {mode : KeepMode} (hk : 0 < k) (hkn : k < n) (h : d.keep n k mode = .ok e) (f : Int → Rat) :
    e.law.mean f = (d.law.sample n).mean fun xs => f (mode.keptSum k xs) := by
  obtain ⟨t, ht, rfl⟩ := keep_ok hkn h
  have hgains := Table.gains_foldlM (fun e => d.law.lastMean mode n k e.1) ht
    fun e he s s' hlow hsize hs => gains_addLastKept hd hkn.le he
      (fun r hr hr' => (d.covers_keep k hr hr').of_eq hlow hsize) hs
  have hlaw : ∀ g : Int → Rat, d.law.mean g = Law.mean ⟨d.entries⟩ g := fun g =>
    (mean_entries hd g).symm
  have hkept := Law.mean_keptSum ⟨d.entries⟩ mode hk hkn.le d.nodup_entries f
  rw [mean_ofTable, hgains.mean, Table.mean_law_empty, zero_add, Law.mean_sample_congr hlaw, hkept]
  refine congrArg List.sum (List.map_congr_left fun e _ => ?_)
  rw [Law.lastMean, Law.mean_sample_congr hlaw, Law.lastMean]

-- ---------------------------------------------------------------------------
-- Tuples of results
-- ---------------------------------------------------------------------------

noncomputable def tuples (d : Distribution Rat) (n : Nat) : Finset (Fin n → Int) :=
  Fintype.piFinset fun _ => Finset.Icc d.low d.high

theorem sum_tuples_succ (d : Distribution Rat) (n : Nat) (F : (Fin (n + 1) → Int) → Rat) :
    ∑ x ∈ d.tuples (n + 1), F x =
      ∑ r ∈ Finset.Icc d.low d.high, ∑ x ∈ d.tuples n, F (Fin.cons r x) := by
  rw [← Finset.sum_product']
  refine Finset.sum_nbij' (fun x => (x 0, Fin.tail x)) (fun p => Fin.cons p.1 p.2) ?_ ?_ ?_ ?_ ?_
  · intro x hx
    have hx := Fintype.mem_piFinset.mp hx
    exact Finset.mem_product.mpr ⟨hx 0, Fintype.mem_piFinset.mpr fun i => hx i.succ⟩
  · intro p hp
    obtain ⟨hr, hx⟩ := Finset.mem_product.mp hp
    exact Fintype.mem_piFinset.mpr (Fin.cases hr fun i => Fintype.mem_piFinset.mp hx i)
  · intro x _
    exact Fin.cons_self_tail x
  · intro p _
    rfl
  · intro x _
    rw [Fin.cons_self_tail]

theorem mean_sample_eq_sum (d : Distribution Rat) (n : Nat) (f : List Int → Rat) :
    (d.law.sample n).mean f = ∑ x ∈ d.tuples n, (∏ i, d.mass (x i)) * f (List.ofFn x) := by
  induction n generalizing f with
  | zero => simp [tuples]
  | succ n ih =>
    rw [Law.mean_sample_succ, mean_eq_sum, sum_tuples_succ]
    refine Finset.sum_congr rfl fun r _ => ?_
    rw [ih, Finset.mul_sum]
    refine Finset.sum_congr rfl fun x _ => ?_
    simp only [Fin.prod_univ_succ, Fin.cons_zero, Fin.cons_succ, List.ofFn_succ]
    ring

/-- The mass of a kept sum adds up the tuples whose kept results have that sum. On the way every
sum that is asked for is there, and its results have a cell each. -/
theorem keep_eq_sum_tuples {d e : Distribution Rat} (hd : ∀ p ∈ d.masses, 0 ≤ p) {n k : Nat}
    {mode : KeepMode} (hk : 1 ≤ k) (hkn : k < n) (h : d.keep n k mode = .ok e) :
    (∀ r, e.mass r = ∑ x ∈ d.tuples n with mode.keptSum k (List.ofFn x) = r, ∏ i, d.mass (x i)) ∧
      ∀ q pTied, (q, pTied) ∈ d.entries → ∃ sums, d.keptSums k q mode = .ok sums ∧
        ∀ b < k, 0 < (d.tails q mode).2 ^ b * pTied ^ (k - b) →
          ∃ kept, sums[b]? = some kept ∧ ∀ s ∈ kept.entries,
            0 ≤ s.1 - d.low * k ∧ s.1 - d.low * k < ((d.width - 1) * k + 1 : Nat) := by
  refine ⟨fun r => ?_, fun q pTied he => ?_⟩
  · rw [mass_eq_prob, Law.prob, mean_keep hd hk hkn h, mean_sample_eq_sum, Finset.sum_filter]
    refine Finset.sum_congr rfl fun x _ => ?_
    simp [Law.indicator]
  · obtain ⟨hlow, hhigh⟩ := cells_within (mem_entries.mp he).1
    obtain ⟨t, ht, -⟩ := keep_ok hkn h
    obtain ⟨s, s', hs⟩ := foldlM_ok ht he
    obtain ⟨sums, hsums, -⟩ := addLastKept_ok hlow hhigh hs
    refine ⟨sums, hsums, fun b hb hpos => ?_⟩
    rw [tails_eq d mode hlow hhigh] at hpos
    obtain ⟨kept, hkept, hisKept, -⟩ := exists_isKept hd hlow hhigh hsums hb hpos
    refine ⟨kept, hkept, fun s hs => ?_⟩
    obtain ⟨hr, hr'⟩ := hisKept.within hlow hhigh hb.le hs
    have hcell := (d.covers_keep k hr hr').2
    rw [Table.low_empty, Table.size_empty] at hcell
    constructor
    · linarith
    · linarith

def loaded : Distribution Rat := ofCells 1 [1, 2]

theorem keep_loaded : loaded.keep 3 2 .best = .ok (ofCells 2 [1, 6, 20]) :=
  ok_of_toOption (by decide +kernel)

theorem keep_eq_sum_tuples_loaded :
    (∀ r, (ofCells 2 [1, 6, 20]).mass r = ∑ x ∈ loaded.tuples 3 with
      KeepMode.best.keptSum 2 (List.ofFn x) = r, ∏ i, loaded.mass (x i)) ∧
      ∀ q pTied, (q, pTied) ∈ loaded.entries → ∃ sums, loaded.keptSums 2 q .best = .ok sums ∧
        ∀ b < 2, 0 < (loaded.tails q .best).2 ^ b * pTied ^ (2 - b) →
          ∃ kept, sums[b]? = some kept ∧ ∀ s ∈ kept.entries,
            0 ≤ s.1 - loaded.low * (2 : Nat) ∧
              s.1 - loaded.low * (2 : Nat) < ((loaded.width - 1) * 2 + 1 : Nat) :=
  keep_eq_sum_tuples (by decide +kernel) (by decide) (by decide) keep_loaded

end Distribution

end TabletopDice
