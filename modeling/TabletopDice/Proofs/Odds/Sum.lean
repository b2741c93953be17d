import TabletopDice.Proofs.Odds.Distribution
import TabletopDice.Proofs.Sample
import TabletopDice.Odds.Sum

/-!
# Laws of sums

A weighed sum of two distributions is the law of the sum of one result of each,
and the repeated sum of one distribution is the law of the sum of independent
results of it, whatever its masses add up to.
-/

namespace TabletopDice.Distribution

-- ---------------------------------------------------------------------------
-- Weighed sums
-- ---------------------------------------------------------------------------

theorem mul_between (m : Int) {low high x : Int} (hlow : low ≤ x) (hhigh : x ≤ high) :
    min (m * low) (m * high) ≤ m * x ∧ m * x ≤ max (m * low) (m * high) := by
  rcases le_total 0 m with hm | hm
  · have h1 := mul_le_mul_of_nonneg_left hlow hm
    have h2 := mul_le_mul_of_nonneg_left hhigh hm
    omega
  · have h1 := mul_le_mul_of_nonpos_left hlow hm
    have h2 := mul_le_mul_of_nonpos_left hhigh hm
    omega

section
variable {α : Type} [Mass α]

theorem corners_le (m : Int) (a : Distribution α) (n : Int) (b : Distribution α) {x y : Int}
    (hx : a.low ≤ x ∧ x ≤ a.high) (hy : b.low ≤ y ∧ y ≤ b.high) :
    (corners m a n b).1 ≤ m * x + n * y ∧ m * x + n * y ≤ (corners m a n b).2 := by
  have hmx := mul_between m hx.1 hx.2
  have hny := mul_between n hy.1 hy.2
  have hends := fun k hk => bounds_le (m * a.low + n * b.low)
    [m * a.low + n * b.high, m * a.high + n * b.low, m * a.high + n * b.high] (n := k) hk
  have h1 := hends (m * a.low + n * b.low) (by simp)
  have h2 := hends (m * a.low + n * b.high) (by simp)
  have h3 := hends (m * a.high + n * b.low) (by simp)
  have h4 := hends (m * a.high + n * b.high) (by simp)
  unfold corners
  omega

theorem covers_pair (m : Int) (a : Distribution α) (n : Int) (b : Distribution α) {t : Table α}
    (hlow : t.low = (corners m a n b).1)
    (hsize : t.cells.size = ((corners m a n b).2 - (corners m a n b).1 + 1).toNat)
    {e e' : Int × α} (he : e ∈ a.cells) (he' : e' ∈ b.cells) : t.Covers (m * e.1 + n * e'.1) := by
  have h := corners_le m a n b (cells_within he) (cells_within he')
  unfold Table.Covers
  omega

end

theorem gains_addPairs {m n : Int} {as bs : List (Int × Rat)} {t : Table Rat}
    (ht : ∀ e ∈ as, ∀ e' ∈ bs, t.Covers (m * e.1 + n * e'.1)) :
    Table.Gains t (addPairs m as n bs t) fun f =>
      Law.mean ⟨as⟩ fun x => Law.mean ⟨bs⟩ fun y => f (m * x + n * y) := by
  refine Table.gains_foldl
    (fun (e : Int × Rat) f => e.2 * Law.mean ⟨bs⟩ fun y => f (m * e.1 + n * y))
    fun e he t' hlow hsize => ?_
  obtain ⟨x, p⟩ := e
  simp only [beq_iff_eq]
  split
  · rename_i hp
    subst hp
    simpa using Table.Gains.refl t'
  · have hrow : Table.Gains t' (bs.foldl (fun t e' => t.add (m * x + n * e'.1) (p * e'.2)) t') _ :=
      Table.gains_foldl (fun e' f => p * e'.2 * f (m * x + n * e'.1)) fun e' he' t'' hlow' hsize' =>
        Table.gains_add (((ht _ he _ he').of_eq hlow hsize).of_eq hlow' hsize') _
    simpa only [Law.mean, mul_assoc, List.sum_map_mul_left] using hrow

theorem mean_addScaled {m n : Int} {a b d : Distribution Rat} (h : addScaled m a n b = .ok d)
    (f : Int → Rat) :
    d.law.mean f = a.law.mean fun x => b.law.mean fun y => f (m * x + n * y) := by
  simp only [addScaled, unless_ok, Except.ok.injEq] at h
  obtain ⟨-, rfl⟩ := h
  have hgains := gains_addPairs (t := Table.empty (corners m a n b).1
    ((corners m a n b).2 - (corners m a n b).1 + 1).toNat) fun e he e' he' =>
      covers_pair m a n b rfl (Table.size_empty ..) he he'
  rw [mean_ofTable, hgains.mean, Table.mean_law_empty, zero_add]
  rfl

theorem mean_add {a b d : Distribution Rat} (h : add a b = .ok d) (f : Int → Rat) :
    d.law.mean f = a.law.mean fun x => b.law.mean fun y => f (x + y) := by
  simpa only [one_mul] using mean_addScaled h f

@[simp] theorem mean_shift (d : Distribution Rat) (delta : Int) (f : Int → Rat) :
    (d.shift delta).law.mean f = d.law.mean fun x => f (x + delta) :=
  Law.mean_cells_shift d.low delta d.masses f

-- ---------------------------------------------------------------------------
-- Repeated sums
-- ---------------------------------------------------------------------------

def sumMean (d : Distribution Rat) (n : Nat) (f : Int → Rat) : Rat :=
  (d.law.sample n).mean fun xs => f xs.sum

theorem sumMean_add (d : Distribution Rat) (m n : Nat) (f : Int → Rat) :
    d.sumMean (m + n) f = d.sumMean m fun x => d.sumMean n fun y => f (x + y) := by
  simp only [sumMean, Law.mean_sample_add, List.sum_append]

theorem sumMean_one (d : Distribution Rat) (f : Int → Rat) : d.sumMean 1 f = d.law.mean f := by
  simp [sumMean, Law.mean_sample_succ]

theorem sumMean_double {d e : Distribution Rat} (h : add d d = .ok e) (n : Nat) (f : Int → Rat) :
    e.sumMean n f = d.sumMean (2 * n) f := by
  have hpair : ∀ g, e.sumMean 1 g = d.sumMean 2 g := fun g => by
    rw [sumMean_one, mean_add h, sumMean_add d 1 1]
    simp only [sumMean_one]
  induction n generalizing f with
  | zero => rfl
  | succ n ih =>
    rw [Nat.mul_succ, sumMean_add, sumMean_add, ih]
    simp only [hpair]

def partMean : Option (Distribution Rat) → (Int → Rat) → Rat
  | none, f => f 0
  | some d, f => d.law.mean f

section
variable {α : Type} [Mass α]

/-- The sum once the last digit of `n` has been looked at. -/
def addDigit (sum : Option (Distribution α)) (power : Distribution α) (n : Nat) :
    Except LimitFault (Option (Distribution α)) :=
  if n % 2 = 1 then
    match sum with
    | none => .ok (some power)
    | some sum => (add sum power).map some
  else .ok sum

theorem addPowers_eq (sum : Option (Distribution α)) (power : Distribution α) (n : Nat) :
    addPowers sum power n = addDigit sum power n >>= fun sum =>
      if n < 2 then .ok (sum.getD power)
      else add power power >>= fun power => addPowers sum power (n / 2) := by
  rw [addPowers.eq_def]
  by_cases hodd : n % 2 = 1
  · cases sum <;> simp only [addDigit, hodd, if_true] <;> rfl
  · simp only [addDigit, hodd, if_false]
    rfl

theorem addDigit_one {sum sum' : Option (Distribution α)} {power : Distribution α}
    (h : addDigit sum power 1 = .ok sum') : ∃ s, sum' = some s := by
  cases sum with
  | none => exact ⟨power, (Except.ok.inj h).symm⟩
  | some s =>
    obtain ⟨s', -, hs'⟩ := map_ok.mp h
    exact ⟨s', hs'.symm⟩

end

theorem mean_addDigit {sum sum' : Option (Distribution Rat)} {power : Distribution Rat} {n : Nat}
    (h : addDigit sum power n = .ok sum') (f : Int → Rat) :
    partMean sum' f = partMean sum fun x => power.sumMean (n % 2) fun y => f (x + y) := by
  unfold addDigit at h
  split at h
  · rename_i hodd
    rw [hodd]
    cases sum with
    | none =>
      obtain rfl := Except.ok.inj h
      simp [partMean, sumMean_one]
    | some s =>
      obtain ⟨s', hs', rfl⟩ := map_ok.mp h
      simp only [partMean, sumMean_one, mean_add hs']
  · rename_i hodd
    obtain rfl := Except.ok.inj h
    rw [show n % 2 = 0 by omega]
    simp [sumMean]

/-- A sum that goes through the digits of `n` gains `n` results. -/
theorem mean_addPowers {sum : Option (Distribution Rat)} {power d : Distribution Rat} {n : Nat}
    (hn : 0 < n) (h : addPowers sum power n = .ok d) (f : Int → Rat) :
    d.law.mean f = partMean sum fun x => power.sumMean n fun y => f (x + y) := by
  induction n using Nat.strongRecOn generalizing sum power with
  | _ n ih =>
    rw [addPowers_eq] at h
    obtain ⟨sum', hdigit, h⟩ := bind_ok.mp h
    split at h
    · obtain rfl : n = 1 := by omega
      obtain ⟨s, rfl⟩ := addDigit_one hdigit
      obtain rfl := Except.ok.inj h
      exact mean_addDigit hdigit f
    · obtain ⟨power', hpower', h⟩ := bind_ok.mp h
      rw [ih (n / 2) (by omega) (by omega) h, mean_addDigit hdigit]
      simp only [sumMean_double hpower']
      conv_rhs => rw [← Nat.mod_add_div n 2]
      simp only [sumMean_add, ← add_assoc]

theorem mean_repeatSum {d e : Distribution Rat} {n : Nat} (h : d.repeatSum n = .ok e)
    (f : Int → Rat) : e.law.mean f = d.sumMean n f := by
  simp only [repeatSum, unless_ok, mapError_ok] at h
  have hsum := mean_addPowers (by omega) h.2.2 f
  simpa [partMean] using hsum

end TabletopDice.Distribution
