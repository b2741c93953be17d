import Mathlib.Algebra.Order.BigOperators.Group.List
import Mathlib.Order.Bounds.Defs
import TabletopDice.Proofs.Dice.Ranking
import TabletopDice.Proofs.Roll.Shown

/-!
# Dice that are kept

Of the dice of a bunch some are kept and the others are discarded, and no die
is lost on the way. However many are kept, no other choice of as many dice has
a sum that the keep mode prefers.
-/

namespace TabletopDice

namespace KeepMode

/-- Of the sums it is the one that the mode asks for: the highest or the lowest. -/
def Picks (mode : KeepMode) (sums : Set Int) (sum : Int) : Prop :=
  match mode with
  | .best => IsGreatest sums sum
  | .worst => IsLeast sums sum

-- ---------------------------------------------------------------------------
-- Choices
-- ---------------------------------------------------------------------------

/-- However numbers are chosen from a ranked list, the first ones of the list are each no less preferred
than the chosen one in its place. -/
theorem forall₂_take_of_sublist {mode : KeepMode} {ys c : List Int}
    (h : ys.Pairwise fun x y => mode.prefers y x = false) (hc : c.Sublist ys) :
    List.Forall₂ (fun x y => mode.prefers x y = false) c (ys.take c.length) := by
  induction ys generalizing c with
  | nil =>
    obtain rfl := List.sublist_nil.mp hc
    exact .nil
  | cons y ys ih =>
    cases c with
    | nil => exact .nil
    | cons x c =>
      obtain ⟨hy, hys⟩ := List.pairwise_cons.mp h
      refine .cons ?_ (ih hys hc.tail)
      rcases List.mem_cons.mp (hc.subset List.mem_cons_self) with rfl | hx
      · exact mode.prefers_self x
      · exact hy x hx

theorem picks_of_forall₂ {mode : KeepMode} {sums : Set Int} {ys : List Int} (hmem : ys.sum ∈ sums)
    (h : ∀ sum ∈ sums, ∃ c, c.sum = sum ∧ List.Forall₂ (fun x y => mode.prefers x y = false) c ys) :
    mode.Picks sums ys.sum := by
  cases mode with
  | best =>
    refine ⟨hmem, fun sum hsum => ?_⟩
    obtain ⟨c, rfl, hc⟩ := h sum hsum
    exact (hc.imp fun x y hxy => by simpa [prefers] using hxy).sum_le_sum
  | worst =>
    refine ⟨hmem, fun sum hsum => ?_⟩
    obtain ⟨c, rfl, hc⟩ := h sum hsum
    exact (hc.flip.imp fun x y hxy => by simpa [prefers] using hxy).sum_le_sum

def choiceSums {β : Type} (value : β → Int) (k : Nat) (xs : List β) : Set Int :=
  {sum | ∃ c : List β, c.Sublist xs ∧ c.length = k ∧ (c.map value).sum = sum}

/-- The first numbers in the order of preference are the choice with the sum that the mode asks for. -/
theorem picks_keptSum (mode : KeepMode) (k : Nat) (xs : List Int) :
    mode.Picks (choiceSums id (min k xs.length) xs) (mode.keptSum k xs) := by
  have hrank := mode.rank_perm xs
  refine picks_of_forall₂ ?_ ?_
  · obtain ⟨c, hperm, hc⟩ := List.exists_perm_sublist (List.take_sublist k (mode.rank xs)) hrank
    refine ⟨c, hc, by simp [hperm.length_eq], by simp [hperm.sum_eq]⟩
  · rintro _ ⟨c, hc, hlen, rfl⟩
    obtain ⟨c', hperm, hc'⟩ := List.exists_perm_sublist hc hrank.symm
    refine ⟨c', by simp [hperm.sum_eq], ?_⟩
    have hall := forall₂_take_of_sublist (mode.rank_ordered xs) hc'
    have htake : (mode.rank xs).take c'.length = (mode.rank xs).take k := by
      rw [hperm.length_eq, hlen, ← mode.length_rank xs, ← List.take_take, List.take_length]
    rwa [htake] at hall

theorem keptSum_of_le {mode : KeepMode} {k : Nat} {xs : List Int} (h : xs.length ≤ k) :
    mode.keptSum k xs = xs.sum := by
  rw [keptSum, List.take_of_length_le (by rwa [length_rank]), (mode.rank_perm xs).sum_eq]

theorem choiceSums_map {β : Type} (value : β → Int) (k : Nat) (xs : List β) :
    choiceSums id k (xs.map value) = choiceSums value k xs := by
  ext sum
  constructor
  · rintro ⟨c, hc, hlen, rfl⟩
    obtain ⟨c', hc', rfl⟩ := List.sublist_map_iff.mp hc
    exact ⟨c', hc', by simpa using hlen, by simp⟩
  · rintro ⟨c, hc, hlen, rfl⟩
    exact ⟨c.map value, hc.map value, by simpa using hlen, by simp⟩

end KeepMode

-- ---------------------------------------------------------------------------
-- Bunches
-- ---------------------------------------------------------------------------

theorem Keep.divide_perm {β : Type} (k : Keep) (value : β → Int) (xs : List β) :
    ((k.divide value xs).1 ++ (k.divide value xs).2).Perm xs := by
  have hsort := List.mergeSort_perm xs fun a b => value a ≤ value b
  unfold divide
  cases k.mode with
  | best => exact (List.perm_append_comm.trans (.of_eq (List.take_append_drop ..))).trans hsort
  | worst => exact (List.Perm.of_eq (List.take_append_drop ..)).trans hsort

theorem Keep.length_divide {β : Type} (k : Keep) (value : β → Int) (xs : List β) :
    (k.divide value xs).1.length = min k.count xs.length := by
  unfold divide
  cases k.mode with
  | best =>
    simp
    omega
  | worst => simp

namespace Bunch

variable {b : Bunch} {r : BunchRoll} {details : List History}

theorem length_kept_choose (h : details.length = b.count) : (b.choose details).kept.length = b.counted := by
  unfold choose counted
  cases b.keep with
  | none => exact h
  | some k =>
    dsimp only
    split
    · rename_i hk
      rw [h, Nat.min_eq_right hk]
    · rw [k.length_divide, h]

theorem choose_perm (b : Bunch) (details : List History) :
    ((b.choose details).kept ++ (b.choose details).discarded).Perm details := by
  unfold choose
  cases b.keep with
  | none => simp
  | some k =>
    dsimp only
    split
    · simp
    · exact k.divide_perm History.value details

theorem details_choose (b : Bunch) (details : List History) : (b.choose details).details = details := by
  unfold choose
  cases b.keep with
  | none => rfl
  | some k =>
    dsimp only
    split <;> rfl

theorem result_choose_of_keep {k : Keep} (hk : b.keep = some k) (h : details.length = b.count) :
    (b.choose details).result = k.mode.keptSum k.count (details.map History.value) := by
  rw [result_choose, sumOf, hk]
  dsimp only
  split
  · rename_i hle
    rw [KeepMode.keptSum_of_le (by simpa [h] using hle)]
  · rfl

/-- What is kept of a roll of the bunch: as many dice as count, so that none of all the dice is lost or
counted twice and the result is the sum of the kept ones. With a keep setting no choice of as many dice
has a sum that the mode would ask for instead. -/
structure Keeps (b : Bunch) (r : BunchRoll) : Prop where
  details : r.details.length = b.count
  all : (r.kept ++ r.discarded).Perm r.details
  kept : r.kept.length = b.counted
  result : r.result = (r.kept.map History.value).sum
  picks : ∀ k ∈ b.keep, k.mode.Picks (KeepMode.choiceSums History.value b.counted r.details) r.result

theorem keeps_choose (h : details.length = b.count) : b.Keeps (b.choose details) where
  details := by rwa [details_choose]
  all := by
    rw [details_choose]
    exact b.choose_perm details
  kept := length_kept_choose h
  result := List.sum_eq_foldr.symm
  picks := by
    intro k hk
    have hpicks := k.mode.picks_keptSum k.count (details.map History.value)
    rw [KeepMode.choiceSums_map, List.length_map, h] at hpicks
    rwa [details_choose, result_choose_of_keep hk h, counted, hk]

theorem Keeps.kept_perm (hr : b.Keeps r) (hk : b.keep = none) : r.kept.Perm r.details := by
  have hall := hr.all
  have hlen := hall.length_eq
  rw [List.length_append, hr.kept, hr.details, counted, hk] at hlen
  have hnone : r.discarded = [] := List.length_eq_zero_iff.mp (by simpa using hlen)
  rwa [hnone, List.append_nil] at hall

theorem Keeps.kept_subset (hr : b.Keeps r) : r.kept ⊆ r.details := fun _ hx =>
  hr.all.subset (List.mem_append_left _ hx)

/-- Where only one die counts its value is the result. -/
theorem Keeps.exists_kept (hr : b.Keeps r) (h : b.counted = 1) : ∃ x, r.kept = [x] ∧ r.result = x.value := by
  obtain ⟨x, hx⟩ := List.length_eq_one_iff.mp (hr.kept.trans h)
  exact ⟨x, hx, by rw [hr.result, hx, List.map_singleton, List.sum_singleton]⟩

/-- Whatever the draws are, the dice of a bunch are kept and discarded like this. -/
theorem returns_keeps {σ : Type} (draw : Nat → StateM σ Int) (b : Bunch) : Returns b.Keeps (b.roll draw) := by
  have hdie : Returns (fun _ : History => True) (b.die.roll draw) := fun _ => trivial
  refine (Returns.mapM (R := fun _ _ => True) fun die hd => ?_).bind fun details hall =>
    .pure (keeps_choose (hall.length_eq.symm.trans List.length_replicate))
  rwa [List.eq_of_mem_replicate hd]

/-- The better two of three dice, on which a five or a six costs a point. -/
def costlySixes : Bunch where
  count := 3
  count_pos := Nat.succ_pos 2
  die := { sides := 6, sides_pos := Nat.succ_pos 5, maps := [⟨.compares .le 5, ⟨-1, "costs"⟩⟩] }
  keep := some ⟨.best, 2, Nat.two_pos⟩

def costlyRolls : List History := [6, 1, 4].map fun face => costlySixes.die.finish (.ofRoll face)

theorem choose_costlyRolls : costlySixes.choose costlyRolls =
    ⟨costlyRolls, costlyRolls.drop 1, costlyRolls.take 1⟩ := by
  have hdivide : costlySixes.choose costlyRolls =
      ⟨costlyRolls, (Keep.divide ⟨.best, 2, Nat.two_pos⟩ History.value costlyRolls).1,
        (Keep.divide ⟨.best, 2, Nat.two_pos⟩ History.value costlyRolls).2⟩ := rfl
  have hsorted : costlyRolls.mergeSort (fun a b => a.value ≤ b.value) = costlyRolls :=
    List.mergeSort_of_pairwise (by decide)
  rw [hdivide, Keep.divide, hsorted]
  rfl

/-- The six is discarded, although it is the highest roll. -/
theorem returns_keeps_costlySixes :
    (costlySixes.roll drawNext fun i => [5, 0, 3].getD i 0).1 =
        ⟨costlyRolls, costlyRolls.drop 1, costlyRolls.take 1⟩ ∧
      (costlyRolls.take 1).map History.rolls = [[6]] ∧
      IsGreatest (KeepMode.choiceSums History.value 2 costlyRolls) 0 := by
  have hroll : (costlySixes.roll drawNext fun i => [5, 0, 3].getD i 0).1 = costlySixes.choose costlyRolls := rfl
  have hpicks := (returns_keeps drawNext costlySixes fun i => [5, 0, 3].getD i 0).picks _ rfl
  rw [hroll, choose_costlyRolls] at hpicks
  exact ⟨hroll.trans choose_costlyRolls, by decide, hpicks⟩

end Bunch

end TabletopDice
