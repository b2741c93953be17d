import TabletopDice.Proofs.Odds.Die
import TabletopDice.Proofs.Odds.Keep
import TabletopDice.Odds.Dice

/-!
# Odds of dice against their rolls

A bunch sums the values of its dice, or the most preferred of them, and dice
add up the multiples of their bunches. The odds are built in the same steps,
each of which keeps the means of the rolls, so that complete odds of whole dice
are the law of their result.
-/

namespace TabletopDice

namespace Bunch

def sumOf (b : Bunch) (values : List Int) : Int :=
  match b.keep with
  | none => values.sum
  | some keep => if b.count ≤ keep.count then values.sum else keep.mode.keptSum keep.count values

theorem result_choose (b : Bunch) (details : List History) :
    (b.choose details).result = b.sumOf (details.map History.value) := by
  unfold choose sumOf
  cases b.keep with
  | none => rfl
  | some keep =>
    dsimp only
    split
    · rfl
    · exact keep.sum_divide History.value details

theorem mean_roll (b : Bunch) (f : Int → Rat) :
    (b.roll Law.uniform).mean (fun r => f r.result) =
      (b.die.rollLaw.sample b.count).mean fun values => f (b.sumOf values) := by
  rw [roll, Law.mapM_replicate, Law.mean_bind, RuledDie.rollLaw, Law.mean_sample_map]
  simp only [Law.mean_pure, result_choose]

theorem keep_of_le {d e : Distribution Rat} {n k : Nat} {mode : KeepMode} (hnk : n ≤ k)
    (h : d.keep n k mode = .ok e) : d.repeatSum n = .ok e := by
  simp only [Distribution.keep, unless_ok] at h
  obtain ⟨-, -, -, h⟩ := h
  rwa [if_pos (by omega)] at h

theorem mean_odds {b : Bunch} {o : Odds Rat} (h : b.odds = .ok o)
    (hc : b.isComplete Rat = .ok true) (f : Int → Rat) :
    o.distribution.law.mean f = (b.roll Law.uniform).mean fun r => f r.result := by
  obtain ⟨single, hsingle, hc⟩ := bind_ok.mp hc
  have hlaw := RuledDie.mean_odds_of_complete hsingle (pure_ok.mp hc)
  rw [mean_roll, ← Law.mean_sample_congr hlaw]
  unfold odds at h
  rw [hsingle] at h
  unfold sumOf
  cases hkeep : b.keep with
  | none =>
    simp only [hkeep, bind_ok, pure_ok, Except.ok.injEq, exists_eq_left'] at h
    obtain ⟨p, hp, rfl⟩ := h
    exact Distribution.mean_repeatSum hp f
  | some keep =>
    simp only [hkeep, bind_ok, pure_ok, Except.ok.injEq, exists_eq_left'] at h
    obtain ⟨p, hp, rfl⟩ := h
    dsimp only
    split
    · rename_i hle
      exact Distribution.mean_repeatSum (keep_of_le hle hp) f
    · exact Distribution.mean_keep (RuledDie.nonneg_odds hsingle) keep.count_pos (by omega) hp f

end Bunch

namespace Dice

def rollTerm (t : Term) : Law BunchRoll := t.bunch.roll Law.uniform

def addTerm (sum : Distribution Rat) (t : Term) : Except Fault (Distribution Rat) := do
  let odds ← t.bunch.odds
  (Distribution.addScaled 1 sum t.multiplier odds.distribution).mapError .limit

def scaledSum (terms : List Term) (rolls : List BunchRoll) : Int :=
  ((terms.zip rolls).map fun (t, r) => t.multiplier * r.result).sum

theorem isComplete_cons {t : Term} {ts : List Term}
    (h : (t :: ts).allM (fun t => t.bunch.isComplete Rat) = .ok true) :
    t.bunch.isComplete Rat = .ok true ∧ ts.allM (fun t => t.bunch.isComplete Rat) = .ok true := by
  obtain ⟨c, hc, h⟩ := bind_ok.mp h
  cases c with
  | false => cases pure_ok.mp h
  | true => exact ⟨hc, h⟩

theorem mean_addTerms {terms : List Term} {sum p : Distribution Rat}
    (h : terms.foldlM addTerm sum = .ok p)
    (hc : terms.allM (fun t => t.bunch.isComplete Rat) = .ok true) (f : Int → Rat) :
    p.law.mean f = sum.law.mean fun x =>
      (terms.mapM rollTerm).mean fun rolls => f (x + scaledSum terms rolls) := by
  induction terms generalizing sum with
  | nil =>
    obtain rfl := pure_ok.mp h
    simp [scaledSum]
  | cons t ts ih =>
    obtain ⟨hct, hcts⟩ := isComplete_cons hc
    rw [List.foldlM_cons] at h
    obtain ⟨next, hnext, h⟩ := bind_ok.mp h
    obtain ⟨o, ho, hnext⟩ := bind_ok.mp hnext
    rw [ih h hcts, Distribution.mean_addScaled (mapError_ok.mp hnext)]
    simp only [List.mapM_cons, Law.mean_bind, Law.mean_pure, Bunch.mean_odds ho hct, scaledSum, rollTerm,
      List.zip_cons_cons, List.map_cons, List.sum_cons, one_mul, add_assoc]

/-- Complete odds of dice are the law of their result. -/
theorem distribution_eq_rollLaw {d : Dice} {p : Distribution Rat} (h : d.distribution = .ok p)
    (hc : d.isComplete Rat = .ok true) (r : Int) :
    p.mass r = (DiceRoll.result <$> d.roll Law.uniform).prob {r} := by
  obtain ⟨sum, hsum, h⟩ := bind_ok.mp h
  obtain rfl := pure_ok.mp h
  have hroll : d.roll Law.uniform = d.total <$> d.terms.mapM rollTerm := by
    rw [← bind_pure_comp]
    rfl
  rw [Distribution.mass_eq_prob, Law.prob, Law.prob, Distribution.mean_shift,
    mean_addTerms hsum hc, Law.mean_map, hroll, Law.mean_map]
  simp [Distribution.zero, Dice.total, scaledSum, scaledResults, add_comm, List.sum_eq_foldr]

def coins : Dice where
  terms := [⟨-1, { count := 2, count_pos := Nat.two_pos, die := RuledDie.coin
                   keep := some ⟨.best, 1, Nat.one_pos⟩ }⟩]
  offset := 3

theorem distribution_coins : (coins.distribution : Except Fault (Distribution Rat)) =
    .ok (Distribution.ofCells (-1) [7 / 16, 5 / 16, 0, 1 / 4]) := by
  simp only [distribution, coins, List.foldlM_cons, List.foldlM_nil, Bunch.odds,
    RuledDie.odds_coin]
  exact ok_of_toOption (by decide +kernel)

theorem isComplete_coins : coins.isComplete Rat = .ok true := by
  simp only [isComplete, coins, List.allM, Bunch.isComplete, RuledDie.odds_coin]
  rfl

theorem distribution_eq_rollLaw_coins :
    (DiceRoll.result <$> coins.roll Law.uniform).prob {2} = 1 / 4 := by
  have hmass : (Distribution.ofCells (-1) [7 / 16, 5 / 16, 0, (1 / 4 : Rat)]).mass 2 = 1 / 4 := by
    decide +kernel
  rw [← hmass]
  exact (distribution_eq_rollLaw distribution_coins isComplete_coins 2).symm

end Dice

end TabletopDice
