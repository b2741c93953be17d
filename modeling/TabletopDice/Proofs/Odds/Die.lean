import TabletopDice.Proofs.Odds.Chain
import TabletopDice.Proofs.Odds.Distribution
import TabletopDice.Odds.Die

/-!
# Odds of a die against its rolls

The law of a roll is the law of what its first branch is worth, and the odds
of a die are the totals of its chains, mapped as a roll is mapped. So odds that
are complete have every mean of the roll, and odds that are not miss each
probability by no more than the mass that was cut.
-/

namespace TabletopDice.RuledDie

open Branch (start)

-- ---------------------------------------------------------------------------
-- Listed masses
-- ---------------------------------------------------------------------------

section
variable {α : Type} [Mass α]

/-- The masses that the odds of a die with rerolls are made of. -/
def listedMasses (α : Type) [Mass α] (d : RuledDie) : List (Int × α) :=
  if d.maps.isEmpty then (Chains.ofDie d : Chains α).totals.entries
  else d.mapMasses (Chains.ofDie d : Chains α).totals.entries

theorem nodup_mapMasses (d : RuledDie) (totals : List (Int × α)) :
    ((d.mapMasses totals).map (·.1)).Nodup := by
  rw [mapMasses, Pool.keys_entries]
  exact (Pool.sound_ofEntries _).nodup

theorem nodup_listedMasses (d : RuledDie) : ((d.listedMasses α).map (·.1)).Nodup := by
  unfold listedMasses
  split
  · rw [Pool.keys_entries]
    exact ((Chains.sound_ofStart d).rollOn d (maxChainRolls - 1)).totals.nodup
  · exact d.nodup_mapMasses _

/-- With rerolls the odds are the listed masses, checked once more. -/
theorem odds_of_chains {d : RuledDie} (hholds : Mass.holds α d.sides = true)
    (hrerolls : d.rerolls.isEmpty = false) : (d.odds : Except Fault (Odds α)) =
      (Distribution.ofEntries (d.listedMasses α)).map fun p => ⟨p, (Chains.ofDie d : Chains α).complete⟩ := by
  simp only [odds, hrerolls, hholds, Bool.not_true, Bool.false_eq_true, if_false]
  show (Distribution.ofEntries (d.listedMasses α) >>= _) = _
  cases Distribution.ofEntries (d.listedMasses α) <;> rfl

theorem odds_ok_of_rerolls {d : RuledDie} {o : Odds α} (hrerolls : d.rerolls.isEmpty = false)
    (h : d.odds = .ok o) : o.complete = (Chains.ofDie d : Chains α).complete ∧
      Distribution.ofEntries (d.listedMasses α) = .ok o.distribution := by
  simp only [odds, hrerolls, Bool.false_eq_true, if_false, unless_ok, bind_ok, pure_ok] at h
  obtain ⟨-, p, hp, rfl⟩ := h
  exact ⟨rfl, hp⟩

theorem fair_of_le {d : RuledDie} (hsides : d.sides ≤ maxFairSides) : Distribution.fair d.sides =
    .ok (Distribution.ofCells 1 (List.replicate d.sides (1 / (Mass.ofInt d.sides : α)))) := by
  have hpos := d.sides_pos
  rw [Distribution.fair, if_neg (by omega), if_neg (by omega)]
  rfl

theorem odds_of_unmapped {d : RuledDie} (hrerolls : d.rerolls.isEmpty) (hmaps : d.maps.isEmpty)
    {fair : Distribution α} (hfair : Distribution.fair d.sides = .ok fair) : d.odds = .ok ⟨fair, true⟩ := by
  simp only [odds, hrerolls, hmaps, if_true, hfair]
  rfl

theorem odds_of_mapped {d : RuledDie} (hrerolls : d.rerolls.isEmpty) (hmaps : d.maps.isEmpty = false)
    {fair : Distribution α} (hfair : Distribution.fair d.sides = .ok fair) :
    d.odds = (Distribution.ofEntries (d.mapMasses fair.entries)).map fun p => ⟨p, true⟩ := by
  simp only [odds, hrerolls, hmaps, hfair]
  show (Distribution.ofEntries (d.mapMasses fair.entries) >>= _) = _
  cases Distribution.ofEntries (d.mapMasses fair.entries) <;> rfl

theorem odds_of_tooManySides {d : RuledDie} (hrerolls : d.rerolls.isEmpty) (hsides : maxFairSides < d.sides) :
    (d.odds : Except Fault (Odds α)) = .error (.limit (.tooManySides maxFairSides d.sides)) := by
  have hpos := d.sides_pos
  simp only [odds, hrerolls, if_true]
  rw [Distribution.fair, if_neg (by omega), if_pos (by omega)]
  rfl

theorem odds_cases_of_map {d : RuledDie} {es : List (Int × α)} {complete : Bool}
    (h : d.odds = (Distribution.ofEntries es).map fun p => ⟨p, complete⟩) :
    (∃ o : Odds α, d.odds = .ok o) ∨ (∃ l, (d.odds : Except Fault (Odds α)) = .error (.limit l)) ∨
      ∃ f, (d.odds : Except Fault (Odds α)) = .error (.value f) := by
  rw [h]
  rcases Distribution.ofEntries_cases es with ⟨p, hp⟩ | ⟨-, hlimit⟩ | ⟨-, f, hvalue⟩
  · exact .inl ⟨_, by rw [hp]; rfl⟩
  · exact .inr (.inl ⟨_, by rw [hlimit]; rfl⟩)
  · exact .inr (.inr ⟨f, by rw [hvalue]; rfl⟩)

/-- A die has odds, is too large for them, has masses that are refused or has more sides than its
numbers hold. -/
theorem odds_cases (d : RuledDie) : (∃ o : Odds α, d.odds = .ok o) ∨
    (∃ l, (d.odds : Except Fault (Odds α)) = .error (.limit l)) ∨
    (∃ f, (d.odds : Except Fault (Odds α)) = .error (.value f)) ∨
    d.rerolls.isEmpty = false ∧ Mass.holds α d.sides = false ∧
      (d.odds : Except Fault (Odds α)) = .error (.range .tooLarge) := by
  cases hrerolls : d.rerolls.isEmpty with
  | true =>
    by_cases hsides : d.sides ≤ maxFairSides
    · cases hmaps : d.maps.isEmpty with
      | true => exact .inl ⟨_, odds_of_unmapped hrerolls hmaps (fair_of_le hsides)⟩
      | false =>
        exact (odds_cases_of_map (odds_of_mapped hrerolls hmaps (fair_of_le hsides))).imp_right
          (.imp_right .inl)
    · exact .inr (.inl ⟨_, odds_of_tooManySides hrerolls (not_le.mp hsides)⟩)
  | false =>
    cases hholds : Mass.holds α d.sides with
    | true => exact (odds_cases_of_map (odds_of_chains hholds hrerolls)).imp_right (.imp_right .inl)
    | false =>
      refine .inr (.inr (.inr ⟨rfl, rfl, ?_⟩))
      simp only [odds, hrerolls, hholds]
      rfl

end

-- ---------------------------------------------------------------------------
-- The law of a roll
-- ---------------------------------------------------------------------------

/-- The law of the value of a roll, every draw being uniform. -/
def rollLaw (d : RuledDie) : Law Int := History.value <$> d.roll Law.uniform

theorem mean_rollLaw (d : RuledDie) (f : Int → Rat) :
    d.rollLaw.mean f = (start d).worth d fun total => f (d.valueOf total) := by
  rw [rollLaw, value_roll, Law.mean_map]
  rfl

theorem worth_start_of_isEmpty {d : RuledDie} (h : d.rerolls.isEmpty) (f : Int → Rat) :
    (start d).worth d f = (d.toDie.roll Law.uniform).mean f := by
  rw [Branch.worth_eq]
  congr 1
  funext face
  rw [Branch.worthAfter, Branch.after_start_of_isEmpty h]
  rfl

-- ---------------------------------------------------------------------------
-- Mapped totals
-- ---------------------------------------------------------------------------

theorem mean_mapMasses (d : RuledDie) (totals : List (Int × Rat)) (f : Int → Rat) :
    Law.mean ⟨d.mapMasses totals⟩ f =
      Law.mean ⟨totals⟩ fun total => f (d.mapTotal total).value := by
  refine (Pool.mean_ofEntries _ f).trans ?_
  simp [Law.mean, Function.comp_def]

theorem mean_ofEntries_mapMasses {d : RuledDie} {totals : List (Int × Rat)}
    {p : Distribution Rat} (hmaps : d.maps.isEmpty = false)
    (h : Distribution.ofEntries (d.mapMasses totals) = .ok p) (f : Int → Rat) :
    p.law.mean f = Law.mean ⟨totals⟩ fun total => f (d.valueOf total) := by
  rw [Distribution.mean_ofEntries h (d.nodup_mapMasses totals), mean_mapMasses]
  simp only [valueOf, hmaps, Bool.false_eq_true, if_false]

theorem valueOf_of_isEmpty {d : RuledDie} (h : d.maps.isEmpty) (total : Int) :
    d.valueOf total = total := by
  rw [valueOf, if_pos h]

-- ---------------------------------------------------------------------------
-- The odds
-- ---------------------------------------------------------------------------

theorem odds_of_isEmpty {d : RuledDie} {o : Odds Rat} (hrerolls : d.rerolls.isEmpty)
    (h : d.odds = .ok o) (f : Int → Rat) : o.distribution.law.mean f = d.rollLaw.mean f := by
  rw [mean_rollLaw, worth_start_of_isEmpty hrerolls]
  simp only [odds, hrerolls, if_true, bind_ok] at h
  obtain ⟨fair, hfair, h⟩ := h
  cases hmaps : d.maps.isEmpty with
  | true =>
    simp only [hmaps, if_true, pure_ok] at h
    subst h
    simp only [Distribution.mean_fair hfair, valueOf_of_isEmpty hmaps]
  | false =>
    simp only [hmaps, Bool.false_eq_true, if_false, bind_ok, pure_ok] at h
    obtain ⟨p, hp, rfl⟩ := h
    rw [mean_ofEntries_mapMasses hmaps hp,
      Distribution.mean_entries (Distribution.nonneg_fair hfair), Distribution.mean_fair hfair]

theorem odds_of_rerolls {d : RuledDie} {o : Odds Rat} (hrerolls : d.rerolls.isEmpty = false)
    (h : d.odds = .ok o) (f : Int → Rat) : o.distribution.law.mean f =
      (Chains.ofDie d : Chains Rat).totals.law.mean fun total => f (d.valueOf total) := by
  obtain ⟨-, hp⟩ := odds_ok_of_rerolls hrerolls h
  rw [Distribution.mean_ofEntries hp d.nodup_listedMasses]
  unfold listedMasses
  cases hmaps : d.maps.isEmpty with
  | true =>
    simp only [if_true, valueOf_of_isEmpty hmaps]
    rfl
  | false =>
    simp only [Bool.false_eq_true, if_false, mean_mapMasses, valueOf, hmaps]
    rfl

theorem nonneg_odds {d : RuledDie} {o : Odds Rat} (h : d.odds = .ok o) :
    ∀ p ∈ o.distribution.masses, 0 ≤ p := by
  unfold odds at h
  split at h
  · obtain ⟨fair, hfair, h⟩ := bind_ok.mp h
    split at h
    · obtain rfl := pure_ok.mp h
      exact Distribution.nonneg_fair hfair
    · obtain ⟨p, hp, h⟩ := bind_ok.mp h
      obtain rfl := pure_ok.mp h
      exact Distribution.nonneg_ofEntries hp
  · obtain ⟨-, h⟩ := unless_ok.mp h
    obtain ⟨p, hp, h⟩ := bind_ok.mp h
    obtain rfl := pure_ok.mp h
    exact Distribution.nonneg_ofEntries hp

theorem mean_odds_of_complete {d : RuledDie} {o : Odds Rat} (h : d.odds = .ok o)
    (hc : o.complete) (f : Int → Rat) : o.distribution.law.mean f = d.rollLaw.mean f := by
  cases hrerolls : d.rerolls.isEmpty with
  | true => exact odds_of_isEmpty hrerolls h f
  | false =>
    rw [(odds_ok_of_rerolls hrerolls h).1] at hc
    rw [odds_of_rerolls hrerolls h, mean_rollLaw, ← Chains.worth_ofDie, ← Chains.worth_ofStart]
    exact Chains.worth_rollOn_of_complete (Chains.fair_ofStart d) hc _

theorem mean_odds_const {d : RuledDie} {o : Odds Rat} (h : d.odds = .ok o) (x : Rat) :
    (o.distribution.law.mean fun _ => x) = x := by
  have hworth := Branch.worth_const d x (start d)
  cases hrerolls : d.rerolls.isEmpty with
  | true => rw [odds_of_isEmpty hrerolls h, mean_rollLaw, hworth]
  | false =>
    rw [odds_of_rerolls hrerolls h, ← Chains.worth_ofDie]
    refine (Chains.worth_rollOn_const (Chains.fair_ofStart d) d _ x).trans ?_
    rw [Chains.worth_ofStart, hworth]

theorem abs_mean_odds_sub {d : RuledDie} {o : Odds Rat} (h : d.odds = .ok o) {f : Int → Rat}
    (hf : ∀ r, 0 ≤ f r ∧ f r ≤ 1) :
    |o.distribution.law.mean f - d.rollLaw.mean f| ≤ d.cutMass := by
  have hbound := Chains.abs_worth_rollOn_sub (Chains.fair_ofStart d) d (maxChainRolls - 1)
    fun total => hf (d.valueOf total)
  cases hrerolls : d.rerolls.isEmpty with
  | true =>
    rw [odds_of_isEmpty hrerolls h, sub_self, abs_zero]
    exact (abs_nonneg _).trans hbound
  | false =>
    rw [odds_of_rerolls hrerolls h, mean_rollLaw, ← Chains.worth_ofDie, ← Chains.worth_ofStart]
    exact hbound

/-- The odds of a die are the law of its rolls: exactly where they are complete, and up to the
mass of the chains that were cut in any case. -/
theorem odds_eq_rollLaw {d : RuledDie} {o : Odds Rat} (h : d.odds = .ok o) :
    (o.complete → ∀ r, o.distribution.mass r = d.rollLaw.prob {r}) ∧
      o.distribution.masses.sum = 1 ∧
      ∀ (S : Set Int) [DecidablePred (· ∈ S)],
        |o.distribution.law.prob S - d.rollLaw.prob S| ≤ d.cutMass := by
  refine ⟨fun hc r => ?_, ?_, fun S _ => ?_⟩
  · rw [Distribution.mass_eq_prob]
    exact mean_odds_of_complete h hc _
  · rw [Distribution.sum_eq_mean_cells o.distribution.low]
    exact mean_odds_const h 1
  · exact abs_mean_odds_sub h fun r => ⟨Law.indicator_nonneg S r, Law.indicator_le_one S r⟩

-- ---------------------------------------------------------------------------
-- A coin that is rolled again
-- ---------------------------------------------------------------------------

theorem add_ne_basic : Effect.add ≠ .basic := by decide

def coin : RuledDie :=
  { sides := 2, sides_pos := Nat.two_pos
    rerolls := [⟨.compares .eq 2, .add, 1, add_ne_basic, Nat.one_pos, by decide⟩] }

def coinOnce : Chains Rat :=
  { totals := Pool.add {} 1 (1 / 2)
    branches := Pool.add {} ⟨⟨some 2, false⟩, [0], .add⟩ (1 / 2) }

def coinTwice : Chains Rat :=
  { totals := ((Pool.add {} 1 (1 / 2)).add 3 (1 / 2 / 2)).add 4 (1 / 2 / 2) }

theorem mayFollow_coin {p : Rat} (h : p = 1 ∨ p = 1 / 2) : Chains.mayFollow coin false p = true := by
  rcases h with rfl | rfl
  · decide +kernel
  · decide +kernel

theorem ofDie_coin : Chains.ofDie coin = coinTwice := by
  have honce : (Chains.ofStart coin).rollAll coin false = coinOnce := by
    rw [Chains.rollAll_eq, Chains.ofStart, Pool.sound_empty.entries_add, Pool.entries_empty,
      Pool.bump, List.foldl_cons, Chains.rollBranch, zero_add, mayFollow_coin (.inl rfl)]
    rfl
  have htwice : coinOnce.rollAll coin false = coinTwice := by
    rw [Chains.rollAll_eq, coinOnce, Pool.sound_empty.entries_add, Pool.entries_empty,
      Pool.bump, List.foldl_cons, Chains.rollBranch, zero_add, mayFollow_coin (.inr rfl)]
    rfl
  show Chains.rollOn coin (17 + 1 + 1) (Chains.ofStart coin) = _
  rw [Chains.rollOn, honce, coinOnce, Pool.isEmpty_single, ← coinOnce]
  simp only [Chains.rollOn, htwice, Bool.false_eq_true, if_false]
  rfl

theorem odds_coin : (coin.odds : Except Fault (Odds Rat)) =
    .ok ⟨Distribution.ofCells 1 [1 / 2, 0, 1 / 4, 1 / 4], true⟩ := by
  have hentries : coinTwice.totals.entries = [(1, 1 / 2), (3, 1 / 4), (4, 1 / 4)] := by
    rw [coinTwice, ((Pool.sound_empty.add 1 _).add 3 _).entries_add,
      (Pool.sound_empty.add 1 _).entries_add, Pool.sound_empty.entries_add, Pool.entries_empty]
    decide +kernel
  have hdist : Distribution.ofEntries [(1, 1 / 2), (3, 1 / 4), (4, (1 / 4 : Rat))] =
      .ok (Distribution.ofCells 1 [1 / 2, 0, 1 / 4, 1 / 4]) := ok_of_toOption (by decide +kernel)
  have hholds : (!Mass.holds Rat coin.sides) = false := rfl
  simp only [odds, ofDie_coin, hentries, hholds]
  show (Distribution.ofEntries [(1, 1 / 2), (3, 1 / 4), (4, (1 / 4 : Rat))] >>= _) = _
  rw [hdist]
  rfl

theorem odds_eq_rollLaw_coin :
    (∀ r, (Distribution.ofCells 1 [1 / 2, 0, 1 / 4, 1 / 4]).mass r = coin.rollLaw.prob {r}) ∧
      (Distribution.ofCells 1 [1 / 2, 0, 1 / 4, (1 / 4 : Rat)]).masses.sum = 1 ∧
      ∀ (S : Set Int) [DecidablePred (· ∈ S)],
        |(Distribution.ofCells 1 [1 / 2, 0, 1 / 4, 1 / 4]).law.prob S - coin.rollLaw.prob S| ≤
          coin.cutMass := by
  obtain ⟨hmass, hsum, hprob⟩ := odds_eq_rollLaw odds_coin
  exact ⟨hmass rfl, hsum, hprob⟩

end TabletopDice.RuledDie
