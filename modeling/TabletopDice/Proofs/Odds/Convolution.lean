import TabletopDice.Proofs.Odds.Ceiling

/-!
# Sums as convolutions

A weighed sum has, for each result, the masses of the pairs of results that make
it up, and a repeated sum those of the tuples. A sum is refused exactly if its
results may lie too far apart. What is tested for a repeated sum, before anything
is added, is enough for every sum on the way to it.
-/

namespace TabletopDice.Distribution

-- ---------------------------------------------------------------------------
-- Pairs of results
-- ---------------------------------------------------------------------------

section
variable {α : Type} [Mass α]

/-- What is added to the cells of a weighed sum, and for which result, in this order. Results of
the first distribution that have no mass are passed over. -/
def contributions (m : Int) (as : List (Int × α)) (n : Int) (bs : List (Int × α)) : List (Int × α) :=
  as.flatMap fun e => if e.2 == 0 then [] else bs.map fun e' => (m * e.1 + n * e'.1, e.2 * e'.2)

theorem addPairs_eq_foldl (m : Int) (as : List (Int × α)) (n : Int) (bs : List (Int × α)) (t : Table α) :
    addPairs m as n bs t = (contributions m as n bs).foldl (fun t c => t.add c.1 c.2) t := by
  rw [addPairs, contributions, List.foldl_flatMap]
  congr 1
  funext t e
  dsimp only
  split
  · rfl
  · rw [List.foldl_map]

theorem exists_cells_of_mem_contributions {m n : Int} {as bs : List (Int × α)} {c : Int × α}
    (h : c ∈ contributions m as n bs) : ∃ e ∈ as, ∃ e' ∈ bs, c.1 = m * e.1 + n * e'.1 := by
  obtain ⟨e, he, hc⟩ := List.mem_flatMap.mp h
  split at hc
  · cases hc
  · obtain ⟨e', he', rfl⟩ := List.mem_map.mp hc
    exact ⟨e, he, e', he', rfl⟩

def cornerSums (m : Int) (a : Distribution α) (n : Int) (b : Distribution α) : List Int :=
  [m * a.low + n * b.low, m * a.low + n * b.high, m * a.high + n * b.low, m * a.high + n * b.high]

theorem isLeast_corners (m : Int) (a : Distribution α) (n : Int) (b : Distribution α) :
    IsLeast {s | s ∈ cornerSums m a n b} (corners m a n b).1 :=
  ⟨(bounds_mem _ _).1, fun _ hs => (bounds_le _ _ hs).1⟩

theorem isGreatest_corners (m : Int) (a : Distribution α) (n : Int) (b : Distribution α) :
    IsGreatest {s | s ∈ cornerSums m a n b} (corners m a n b).2 :=
  ⟨(bounds_mem _ _).2, fun _ hs => (bounds_le _ _ hs).2⟩

theorem addScaled_of_tooWide {m n : Int} {a b : Distribution α}
    (h : maxOutcomes < (corners m a n b).2 - (corners m a n b).1 + 1) :
    addScaled m a n b = .error .tooManyOutcomes := if_pos h

theorem addScaled_of_le {m n : Int} {a b : Distribution α}
    (h : (corners m a n b).2 - (corners m a n b).1 + 1 ≤ maxOutcomes) :
    addScaled m a n b = .ok (ofTable ((contributions m a.cells n b.cells).foldl (fun t c => t.add c.1 c.2)
      (Table.empty (corners m a n b).1 ((corners m a n b).2 - (corners m a n b).1 + 1).toNat))) := by
  rw [← addPairs_eq_foldl]
  exact if_neg (not_lt.mpr h)

end

theorem mass_addScaled {m n : Int} {a b d : Distribution Rat} (h : addScaled m a n b = .ok d) (r : Int) :
    d.mass r = ∑ x ∈ Finset.Icc a.low a.high ×ˢ Finset.Icc b.low b.high with m * x.1 + n * x.2 = r,
      a.mass x.1 * b.mass x.2 := by
  rw [mass_eq_prob, Law.prob, mean_addScaled h, mean_eq_sum, Finset.sum_filter, Finset.sum_product]
  refine Finset.sum_congr rfl fun x _ => ?_
  rw [mean_eq_sum, Finset.mul_sum]
  refine Finset.sum_congr rfl fun y _ => ?_
  simp [Law.indicator]

/-- A weighed sum is refused exactly if its corners lie too far apart. Otherwise nothing is added
outside of its cells, one for each result from corner to corner, and the mass of a result adds up
the pairs that have it as their sum. -/
theorem addScaled_eq_sum_pairs (m : Int) (a : Distribution Rat) (n : Int) (b : Distribution Rat) :
    ∃ low high, IsLeast {s | s ∈ cornerSums m a n b} low ∧ IsGreatest {s | s ∈ cornerSums m a n b} high ∧
      (addScaled m a n b = .error .tooManyOutcomes ↔ maxOutcomes < high - low + 1) ∧
      (high - low + 1 ≤ maxOutcomes →
        addScaled m a n b = .ok (ofTable ((contributions m a.cells n b.cells).foldl
          (fun t c => t.add c.1 c.2) (Table.empty low (high - low + 1).toNat))) ∧
        (∀ c ∈ contributions m a.cells n b.cells, 0 ≤ c.1 - low ∧ c.1 - low ≤ high - low) ∧
        ∃ d, addScaled m a n b = .ok d ∧ ∀ r, d.mass r =
          ∑ x ∈ Finset.Icc a.low a.high ×ˢ Finset.Icc b.low b.high with m * x.1 + n * x.2 = r,
            a.mass x.1 * b.mass x.2) := by
  refine ⟨_, _, isLeast_corners m a n b, isGreatest_corners m a n b, ⟨fun h => ?_, addScaled_of_tooWide⟩,
    fun h => ⟨addScaled_of_le h, fun c hc => ?_, _, addScaled_of_le h, mass_addScaled (addScaled_of_le h)⟩⟩
  · by_contra hle
    rw [addScaled_of_le (not_lt.mp hle)] at h
    cases h
  · obtain ⟨e, he, e', he', hsum⟩ := exists_cells_of_mem_contributions hc
    have hwithin := corners_le m a n b (cells_within he) (cells_within he')
    omega

-- ---------------------------------------------------------------------------
-- Tuples of results
-- ---------------------------------------------------------------------------

section
variable {α : Type} [Mass α] {sum sum' : Option (Distribution α)} {power a b d : Distribution α} {n : Nat}

/-- Which distributions are added together on the way through the digits of a number. -/
inductive Adds : Option (Distribution α) → Distribution α → Nat → Distribution α → Distribution α → Prop
  | digit {s power : Distribution α} {n : Nat} (hodd : n % 2 = 1) : Adds (some s) power n s power
  | double {sum sum' : Option (Distribution α)} {power : Distribution α} {n : Nat} (hn : 2 ≤ n)
      (hdigit : addDigit sum power n = .ok sum') : Adds sum power n power power
  | later {sum sum' : Option (Distribution α)} {power power' a b : Distribution α} {n : Nat} (hn : 2 ≤ n)
      (hdigit : addDigit sum power n = .ok sum') (hdouble : add power power = .ok power')
      (h : Adds sum' power' (n / 2) a b) : Adds sum power n a b

theorem width_add (h : add a b = .ok d) : d.width ≤ a.width + b.width - 1 := by
  have hwidth := (addScaled_ok h).2
  have ha := a.width_eq
  have hb := b.width_eq
  rw [corners_one] at hwidth
  dsimp only at hwidth
  omega

theorem width_addDigit (h : addDigit sum power n = .ok sum') :
    partWidth sum' ≤ partWidth sum + n % 2 * power.width := by
  unfold addDigit at h
  split at h
  · rename_i hodd
    rw [hodd, one_mul]
    cases sum with
    | none =>
      obtain rfl := Except.ok.inj h
      exact (Nat.zero_add _).ge
    | some s =>
      obtain ⟨d, hd, rfl⟩ := map_ok.mp h
      exact (width_add hd).trans (Nat.sub_le ..)
  · obtain rfl := Except.ok.inj h
    exact Nat.le_add_right ..

/-- As wide as all results together, the two are never too wide for their sum. -/
theorem Adds.exists_add (h : Adds sum power n a b) (hle : partWidth sum + n * power.width ≤ maxOutcomes) :
    ∃ d, add a b = .ok d := by
  induction h with
  | @digit s power n hodd =>
    have hpower : power.width ≤ n * power.width := Nat.le_mul_of_pos_left _ (by omega)
    obtain ⟨d, hd, -⟩ := Distribution.exists_add (a := s) (b := power) (by
      rw [partWidth] at hle
      omega)
    exact ⟨d, hd⟩
  | @double sum sum' power n hn hdigit =>
    have htwice : 2 * power.width ≤ n * power.width := Nat.mul_le_mul_right _ hn
    obtain ⟨d, hd, -⟩ := Distribution.exists_add (a := power) (b := power) (by omega)
    exact ⟨d, hd⟩
  | @later sum sum' power power' a b n hn hdigit hdouble h ih =>
    refine ih ?_
    have hsum' := width_addDigit hdigit
    have hpower' := width_add hdouble
    have hrest : n / 2 * power'.width ≤ n / 2 * (2 * power.width) := Nat.mul_le_mul_left _ (by omega)
    have hsplit : n * power.width = n % 2 * power.width + n / 2 * (2 * power.width) := by
      conv_lhs => rw [← Nat.mod_add_div n 2]
      ring
    omega

theorem repeatSum_of_tooWide (hn : 0 < n) (h : maxOutcomes < n * d.width) :
    d.repeatSum n = .error (.limit .tooManyOutcomes) := by
  have hspan : (maxOutcomes : Int) < n * d.width := by exact_mod_cast h
  rw [repeatSum, if_neg (by omega), if_pos hspan]

end

theorem mass_repeatSum {d e : Distribution Rat} {n : Nat} (h : d.repeatSum n = .ok e) (r : Int) :
    e.mass r = ∑ x ∈ d.tuples n with ∑ i, x i = r, ∏ i, d.mass (x i) := by
  rw [mass_eq_prob, Law.prob, mean_repeatSum h, sumMean, mean_sample_eq_sum, Finset.sum_filter]
  refine Finset.sum_congr rfl fun x _ => ?_
  simp [Law.indicator, List.sum_ofFn]

/-- A repeated sum is refused exactly if all its results together are too many. Otherwise no sum on
the way is refused, and the mass of a result adds up the tuples that have it as their sum. -/
theorem repeatSum_eq_sum_tuples (d : Distribution Rat) {n : Nat} (hn : 1 ≤ n) :
    (d.repeatSum n = .error (.limit .tooManyOutcomes) ↔ maxOutcomes < n * d.width) ∧
      (n * d.width ≤ maxOutcomes →
        (∀ a b, Adds none d n a b → ∃ c, add a b = .ok c) ∧
        ∃ e, d.repeatSum n = .ok e ∧
          ∀ r, e.mass r = ∑ x ∈ d.tuples n with ∑ i, x i = r, ∏ i, d.mass (x i)) := by
  refine ⟨⟨fun h => ?_, repeatSum_of_tooWide hn⟩, fun hle => ⟨fun a b h => ?_, ?_⟩⟩
  · by_contra hle
    obtain ⟨e, he, -⟩ := exists_repeatSum hn (not_lt.mp hle)
    cases he.symm.trans h
  · exact h.exists_add (by rwa [partWidth, Nat.zero_add])
  · obtain ⟨e, he, -⟩ := exists_repeatSum hn hle
    exact ⟨e, he, mass_repeatSum he⟩

/-- Five throws need a square and its square, and one throw more; half a million are too many. -/
theorem repeatSum_eq_sum_tuples_loaded :
    loaded.repeatSum 500001 = .error (.limit .tooManyOutcomes) ∧
      (∀ a b, Adds none loaded 5 a b → ∃ c, add a b = .ok c) ∧
      ∃ e, loaded.repeatSum 5 = .ok e ∧
        ∀ r, e.mass r = ∑ x ∈ loaded.tuples 5 with ∑ i, x i = r, ∏ i, loaded.mass (x i) :=
  ⟨(repeatSum_eq_sum_tuples loaded (n := 500001) (by decide)).1.mpr (by decide),
    (repeatSum_eq_sum_tuples loaded (n := 5) (by decide)).2 (by decide)⟩

end TabletopDice.Distribution
