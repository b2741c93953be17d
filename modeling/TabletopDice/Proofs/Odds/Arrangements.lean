import Mathlib.Algebra.BigOperators.Fin
import Mathlib.Algebra.BigOperators.Ring.Finset
import Mathlib.Data.Nat.Factorial.BigOperators
import Mathlib.Data.Set.Card
import TabletopDice.Proofs.Outcome
import TabletopDice.Odds.Keep

/-!
# Orders of items in groups

How many sequences hold each kind of item a given number of times. Taking the
first item off such a sequence leaves one that is shorter, so they are counted
by their first items, and the count is what is left of the factorial of all
items when it is divided by the factorial of one group after another. Nothing
is lost by these divisions, whichever group comes first.
-/

namespace TabletopDice.Arrangements

open Nat (factorial_succ)

theorem factorial_eq (n : Nat) : factorial n = n.factorial := by
  induction n with
  | zero => rfl
  | succ n ih => rw [factorial, factorial_succ, ih]

-- ---------------------------------------------------------------------------
-- Sequences
-- ---------------------------------------------------------------------------

/-- A sequence with as many items of each kind as there are in its group. -/
def Arranges (groups : List Nat) (s : List (Fin groups.length)) : Prop :=
  ∀ i, s.count i = groups[i]

section
variable {ι : Type} [Fintype ι] [DecidableEq ι]

def takeOne (f : ι → Nat) (i : ι) : ι → Nat := Function.update f i (f i - 1)

/-- All sequences of `n` items with so many of each kind, by their first items. -/
def sequences : Nat → (ι → Nat) → Finset (List ι)
  | 0, _ => {[]}
  | n + 1, f => ({i | 0 < f i} : Finset ι).biUnion fun i => (sequences n (takeOne f i)).image (i :: ·)

variable {f : ι → Nat} {i : ι} {n : Nat}

theorem sum_takeOne (hi : 0 < f i) (hn : ∑ j, f j = n + 1) : ∑ j, takeOne f i j = n := by
  have hrest := Finset.sum_erase_add Finset.univ f (Finset.mem_univ i)
  rw [takeOne, Finset.sum_update_of_mem (Finset.mem_univ i), Finset.sdiff_singleton_eq_erase]
  omega

theorem prod_factorial_takeOne (hi : 0 < f i) :
    ∏ j, (f j).factorial = f i * ∏ j, (takeOne f i j).factorial := by
  have hupdate : (fun j => (takeOne f i j).factorial) =
      Function.update (fun j => (f j).factorial) i (f i - 1).factorial := by
    funext j
    by_cases hj : j = i
    · subst hj
      simp [takeOne]
    · simp [takeOne, hj]
  rw [hupdate, Finset.prod_update_of_mem (Finset.mem_univ i), Finset.sdiff_singleton_eq_erase,
    ← mul_assoc, Nat.mul_factorial_pred hi.ne', Finset.mul_prod_erase _ (fun j => (f j).factorial) (Finset.mem_univ i)]

omit [Fintype ι] in
theorem count_cons_iff {s : List ι} (hi : 0 < f i) :
    (∀ j, (i :: s).count j = f j) ↔ ∀ j, s.count j = takeOne f i j := by
  refine forall_congr' fun j => ?_
  by_cases hj : j = i
  · subst hj
    simp only [takeOne, List.count_cons_self, Function.update_self]
    omega
  · simp [takeOne, hj, Ne.symm hj]

theorem mem_sequences (hn : ∑ i, f i = n) {s : List ι} : s ∈ sequences n f ↔ ∀ i, s.count i = f i := by
  induction n generalizing f s with
  | zero =>
    have hzero : ∀ i, f i = 0 := by simpa using hn
    simp only [sequences, Finset.mem_singleton, hzero, List.count_eq_zero]
    exact List.eq_nil_iff_forall_not_mem
  | succ n ih =>
    simp only [sequences, Finset.mem_biUnion, Finset.mem_filter_univ, Finset.mem_image]
    constructor
    · rintro ⟨i, hi, s, hs, rfl⟩
      exact (count_cons_iff hi).mpr ((ih (sum_takeOne hi hn)).mp hs)
    · intro hs
      cases s with
      | nil =>
        have hzero : ∑ i, f i = 0 := Finset.sum_eq_zero fun i _ => (hs i).symm
        omega
      | cons i s =>
        have hi : 0 < f i := by
          rw [← hs i, List.count_cons_self]
          omega
        exact ⟨i, hi, s, (ih (sum_takeOne hi hn)).mpr ((count_cons_iff hi).mp hs), rfl⟩

/-- Each kind stands first in its share of all sequences, which is what the sum over the shares comes to. -/
theorem card_sequences (hn : ∑ i, f i = n) :
    (sequences n f).card * ∏ i, (f i).factorial = n.factorial := by
  induction n generalizing f with
  | zero =>
    have hzero : ∀ i, f i = 0 := by simpa using hn
    simp [sequences, hzero]
  | succ n ih =>
    have hdisjoint : (({i | 0 < f i} : Finset ι) : Set ι).PairwiseDisjoint
        fun i => (sequences n (takeOne f i)).image (i :: ·) := by
      intro i _ j _ hne
      refine Finset.disjoint_left.mpr fun s hs hs' => ?_
      obtain ⟨_, -, rfl⟩ := Finset.mem_image.mp hs
      obtain ⟨_, -, heq⟩ := Finset.mem_image.mp hs'
      exact hne (List.head_eq_of_cons_eq heq).symm
    have hfirst : ∀ i ∈ ({i | 0 < f i} : Finset ι),
        ((sequences n (takeOne f i)).image (i :: ·)).card * ∏ j, (f j).factorial = f i * n.factorial := by
      intro i hi
      rw [Finset.mem_filter_univ] at hi
      rw [Finset.card_image_of_injective _ fun _ _ h => (List.cons.inj h).2, prod_factorial_takeOne hi,
        mul_left_comm, ih (sum_takeOne hi hn)]
    have hrest : ∑ i with 0 < f i, f i = n + 1 := by
      rw [← hn]
      exact Finset.sum_filter_of_ne fun i _ hne => Nat.pos_of_ne_zero hne
    calc (sequences (n + 1) f).card * ∏ i, (f i).factorial
        = ∑ i with 0 < f i, ((sequences n (takeOne f i)).image (i :: ·)).card * ∏ j, (f j).factorial := by
          rw [sequences, Finset.card_biUnion hdisjoint, Finset.sum_mul]
      _ = ∑ i with 0 < f i, f i * n.factorial := Finset.sum_congr rfl hfirst
      _ = (n + 1).factorial := by rw [← Finset.sum_mul, hrest, factorial_succ]

end

-- ---------------------------------------------------------------------------
-- Divisions
-- ---------------------------------------------------------------------------

theorem encard_mul_prod (groups : List Nat) : ∃ n : Nat, {s | Arranges groups s}.encard = n ∧
    n * (groups.map Nat.factorial).prod = groups.sum.factorial := by
  have hsum : ∑ i : Fin groups.length, groups[i] = groups.sum := Fin.sum_univ_getElem groups
  have hset : {s | Arranges groups s} = (sequences groups.sum fun i : Fin groups.length => groups[i]) := by
    ext s
    exact (mem_sequences hsum).symm
  refine ⟨_, by rw [hset, Set.encard_coe_eq_coe_finsetCard], ?_⟩
  rw [← card_sequences hsum]
  exact congrArg _ (Fin.prod_univ_fun_getElem groups Nat.factorial).symm

theorem prod_dvd_factorial (groups : List Nat) : (groups.map Nat.factorial).prod ∣ groups.sum.factorial := by
  obtain ⟨n, -, hn⟩ := encard_mul_prod groups
  exact Dvd.intro_left n hn

theorem foldl_div (groups : List Nat) (n : Nat) :
    groups.foldl (fun n g => n / factorial g) n = n / (groups.map Nat.factorial).prod := by
  induction groups generalizing n with
  | nil => simp
  | cons g groups ih => rw [List.foldl_cons, ih, factorial_eq, Nat.div_div_eq_div_mul, List.map_cons, List.prod_cons]

/-- What is left of the factorial after some groups is divided by that of the next one without a remainder. -/
theorem factorial_dvd_left (before : List Nat) (g : Nat) (after : List Nat) :
    factorial g ∣ before.foldl (fun n g => n / factorial g) (factorial (before ++ g :: after).sum) := by
  have hall := prod_dvd_factorial (before ++ g :: after)
  rw [List.map_append, List.prod_append, List.map_cons, List.prod_cons, ← mul_assoc] at hall
  rw [foldl_div, factorial_eq, factorial_eq]
  exact Nat.dvd_div_of_mul_dvd ((Dvd.intro _ rfl).trans hall)

theorem encard_arranges (groups : List Nat) : {s | Arranges groups s}.encard = count groups := by
  obtain ⟨n, hn, hprod⟩ := encard_mul_prod groups
  have hpos : 0 < (groups.map Nat.factorial).prod :=
    Nat.pos_of_ne_zero fun hzero => groups.sum.factorial_ne_zero (by rw [← hprod, hzero, mul_zero])
  rw [hn, count, foldl_div, factorial_eq, ← List.sum_eq_foldr, ← hprod, Nat.mul_div_cancel _ hpos]

theorem count_eq_div_prod (groups : List Nat) :
    count groups = groups.sum.factorial / (groups.map Nat.factorial).prod := by
  rw [count, foldl_div, factorial_eq, ← List.sum_eq_foldr]

theorem count_perm {groups reordered : List Nat} (h : reordered.Perm groups) : count reordered = count groups := by
  rw [count_eq_div_prod, count_eq_div_prod, h.sum_eq, (h.map Nat.factorial).prod_eq]

-- ---------------------------------------------------------------------------
-- Counts as they are given
-- ---------------------------------------------------------------------------

/-- The platform has the factorial of all items, and so that of each group. -/
def WithinLimit (limit : Nat) (groups : List Nat) : Prop := groups.sum ≤ limit

instance (limit : Nat) (groups : List Nat) : Decidable (WithinLimit limit groups) :=
  inferInstanceAs (Decidable (_ ≤ _))

theorem countOfValues_whole (counts : List Int) (limit : Nat) :
    countOfValues (counts.map .whole) limit = countSigned limit counts := by
  have hread : ∀ read : Value → Except Fault Int, (∀ n, read (.whole n) = .ok n) →
      (counts.map Value.whole).mapM read = .ok counts := fun read hwhole =>
    ok_mapM (List.forall₂_map_left_iff.mpr (List.forall₂_same.mpr fun n _ => hwhole n))
  unfold countOfValues
  rw [hread _ fun n => rfl]
  rfl

section
variable {limit : Nat}

theorem factorialOfInt_natCast {n : Nat} (h : n ≤ limit) : factorialOfInt limit n = .ok (factorial n) := by
  rw [factorialOfInt, if_neg (by omega), if_neg (by omega), Int.toNat_natCast]

theorem factorialOfInt_of_lt {n : Nat} (h : limit < n) : factorialOfInt limit n = .error (.range .factorial) := by
  rw [factorialOfInt, if_neg (by omega), if_pos (by omega)]

/-- The groups that are skipped would leave everything as it is. -/
theorem divideBy_natCast {g : Nat} (h : g ≤ limit) (n : Nat) : divideBy limit n g = .ok (n / factorial g) := by
  unfold divideBy
  split
  · rw [factorialOfInt_natCast h]
    rfl
  · rename_i hskip
    have hone : factorial g = 1 := by
      rw [factorial_eq, Nat.factorial_eq_one]
      omega
    rw [hone, Nat.div_one]
    rfl

theorem foldr_natCast (groups : List Nat) :
    (groups.map fun g : Nat => (g : Int)).foldr (fun m n : Int => m + n) 0 = (groups.sum : Int) := by
  rw [← List.sum_eq_foldr, Nat.cast_list_sum]

theorem foldlM_divideBy {groups : List Nat} (h : WithinLimit limit groups) (n : Nat) :
    (groups.map fun g : Nat => (g : Int)).foldlM (divideBy limit) n =
      .ok (groups.foldl (fun n g => n / factorial g) n) := by
  induction groups generalizing n with
  | nil => rfl
  | cons g groups ih =>
    rw [WithinLimit, List.sum_cons] at h
    rw [List.map_cons, List.foldlM_cons, divideBy_natCast (by omega)]
    exact ih (by rw [WithinLimit]; omega) _

theorem countOfValues_natCast (groups : List Nat) (limit : Nat) :
    countOfValues (groups.map fun g : Nat => .whole g) limit =
      factorialOfInt limit groups.sum >>= (groups.map fun g : Nat => (g : Int)).foldlM (divideBy limit) := by
  have hwhole := countOfValues_whole (groups.map fun g : Nat => (g : Int)) limit
  rw [List.map_map] at hwhole
  refine hwhole.trans ?_
  rw [countSigned, foldr_natCast]

theorem countOfValues_of_withinLimit {groups : List Nat} (h : WithinLimit limit groups) :
    countOfValues (groups.map fun g : Nat => .whole g) limit = .ok (count groups) := by
  rw [countOfValues_natCast, factorialOfInt_natCast h]
  refine (foldlM_divideBy h _).trans ?_
  rw [count, List.sum_eq_foldr]

end

/-- The factorial of all items, divided by that of one group after another, comes to the number of sequences
with so many items of each kind. None of the divisions leaves a remainder, and the groups may stand in any
order. A platform that has the factorial of all items counts them in just this way, and any other refuses. -/
theorem countOfValues_eq_encard (groups : List Nat) :
    {s | Arranges groups s}.encard = count groups ∧
      (∀ before g after, groups = before ++ g :: after →
        factorial g ∣ before.foldl (fun n g => n / factorial g) (factorial groups.sum)) ∧
      (∀ reordered : List Nat, reordered.Perm groups → count reordered = count groups) ∧
      ∀ limit, (WithinLimit limit groups →
          countOfValues (groups.map fun g : Nat => .whole g) limit = .ok (count groups) ∧
          ∀ before g after, groups = before ++ g :: after →
            ∃ n, (before.map fun g : Nat => (g : Int)).foldlM (divideBy limit) (factorial groups.sum) = .ok n ∧
              factorial g ∣ n) ∧
        (¬ WithinLimit limit groups →
          countOfValues (groups.map fun g : Nat => .whole g) limit = .error (.range .factorial)) := by
  have heven : ∀ before g after, groups = before ++ g :: after →
      factorial g ∣ before.foldl (fun n g => n / factorial g) (factorial groups.sum) := by
    rintro before g after rfl
    exact factorial_dvd_left before g after
  refine ⟨encard_arranges groups, heven, fun _ => count_perm, fun limit => ⟨fun h => ?_, fun h => ?_⟩⟩
  · refine ⟨countOfValues_of_withinLimit h, fun before g after hsplit => ⟨_, foldlM_divideBy ?_ _, ?_⟩⟩
    · rw [hsplit, WithinLimit, List.sum_append] at h
      exact (Nat.le_add_right ..).trans h
    · exact heven before g after hsplit
  · rw [countOfValues_natCast, factorialOfInt_of_lt (not_le.mp h)]
    rfl

/-- Two items of one kind, none of the next and one of the last, on a platform of its own and on a usual one. -/
theorem countOfValues_eq_encard_threeItems :
    {s | Arranges [2, 0, 1] s}.encard = 3 ∧
      countOfValues [.whole 2, .whole 0, .whole 1] 3 = .ok 3 ∧
      countOfValues [.whole 2, .whole 0, .whole 1] = .ok 3 ∧
      countOfValues [.whole 2, .whole 0, .whole 1] 2 = .error (.range .factorial) := by
  obtain ⟨hcard, -, -, hcount⟩ := countOfValues_eq_encard [2, 0, 1]
  have hthree : count [2, 0, 1] = 3 := by decide
  rw [hthree] at hcard hcount
  exact ⟨hcard, ((hcount 3).1 (by decide)).1, ((hcount wordLimit).1 (by decide)).1, (hcount 2).2 (by decide)⟩

end TabletopDice.Arrangements
