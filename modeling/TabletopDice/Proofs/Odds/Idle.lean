import TabletopDice.Proofs.Odds.Alike
import TabletopDice.Proofs.Odds.Enclosure
import TabletopDice.Proofs.Roll.Idle

/-!
# Odds beside rules that answer nothing

The uses of a rule that is never used stand among the uses left of the others
all the time, and nothing else comes of it, as long as the die has other rules.
-/

namespace TabletopDice

-- ---------------------------------------------------------------------------
-- Odds and bounds
-- ---------------------------------------------------------------------------

namespace RuledDie

section
variable {α : Type} [Mass α] {d : RuledDie} {i : Nat} {rule : RerollRule}

theorem isEmpty_insertRule (hi : i ≤ d.rerolls.length) : (d.insertRule i rule).rerolls.isEmpty = false := by
  have hlen := List.length_insertIdx_of_le_length hi rule
  rw [List.isEmpty_eq_false_iff]
  intro hnil
  rw [show d.rerolls.insertIdx i rule = [] from hnil] at hlen
  cases hlen

/-- Beside other rules an idle one changes nothing of the odds. -/
theorem odds_insertRule (hi : i ≤ d.rerolls.length) (hidle : d.IsIdle rule)
    (hrerolls : d.rerolls.isEmpty = false) :
    ((d.insertRule i rule).odds : Except Fault (Odds α)) = d.odds :=
  (usedAlike_insertRule hi hidle).odds ((isEmpty_insertRule hi).trans hrerolls.symm)

theorem triggerBounds?_of_isIdle (hidle : d.IsIdle rule) : d.triggerBounds? rule = none := by
  have hnone : d.faces.filter rule.applies = [] :=
    List.filter_eq_nil_iff.mpr fun face hface => by simp [hidle face hface]
  rw [triggerBounds?, hnone]

theorem mostAdded_of_isIdle (hidle : d.IsIdle rule) : d.mostAdded rule = 0 := by
  unfold mostAdded
  rw [triggerBounds?_of_isIdle hidle]
  split
  · rename_i h
    cases h
  · rfl

theorem leastSubtracted?_of_isIdle (hidle : d.IsIdle rule) : d.leastSubtracted? rule = none := by
  unfold leastSubtracted?
  rw [triggerBounds?_of_isIdle hidle]
  split
  · rename_i h
    cases h
  · rfl

theorem filterMap_insertIdx {β γ : Type} {f : β → Option γ} {b : β} (hb : f b = none) (i : Nat)
    (bs : List β) : (bs.insertIdx i b).filterMap f = bs.filterMap f := by
  induction i generalizing bs with
  | zero => rw [List.insertIdx_zero, List.filterMap_cons_none hb]
  | succ i ih =>
    cases bs with
    | nil => rfl
    | cons b' bs => simp only [List.insertIdx_succ_cons, List.filterMap_cons, ih]

theorem chainBounds_insertRule (hi : i ≤ d.rerolls.length) (hidle : d.IsIdle rule) :
    (d.insertRule i rule).chainBounds = d.chainBounds := by
  have hmost : ((d.rerolls.insertIdx i rule).map d.mostAdded).foldr (· + ·) (0 : Int) =
      (d.rerolls.map d.mostAdded).foldr (· + ·) 0 := by
    have hperm := ((List.perm_insertIdx rule d.rerolls hi).map d.mostAdded).sum_eq
    rw [List.map_cons, List.sum_cons, mostAdded_of_isIdle hidle, zero_add] at hperm
    rwa [← List.sum_eq_foldr, ← List.sum_eq_foldr]
  have hleast : (d.rerolls.insertIdx i rule).filterMap d.leastSubtracted? =
      d.rerolls.filterMap d.leastSubtracted? :=
    filterMap_insertIdx (leastSubtracted?_of_isIdle hidle) i d.rerolls
  have hrules : (d.insertRule i rule).rerolls = d.rerolls.insertIdx i rule := rfl
  have hmost' : (d.insertRule i rule).mostAdded = d.mostAdded := rfl
  have hleast' : (d.insertRule i rule).leastSubtracted? = d.leastSubtracted? := rfl
  simp only [chainBounds, hrules, hmost', hleast', hmost, hleast]
  rfl

/-- Beside other rules an idle one changes nothing of the bounds. -/
theorem bounds_insertRule (hi : i ≤ d.rerolls.length) (hidle : d.IsIdle rule)
    (hrerolls : d.rerolls.isEmpty = false) : (d.insertRule i rule).bounds α = d.bounds α :=
  (usedAlike_insertRule hi hidle).bounds ((isEmpty_insertRule hi).trans hrerolls.symm)
    (chainBounds_insertRule hi hidle)

end

end RuledDie

-- ---------------------------------------------------------------------------
-- A rule that stands alone
-- ---------------------------------------------------------------------------

namespace Chains

variable {α : Type} [Mass α] {d : RuledDie}

theorem rollFace_start (h : d.rerolls.isEmpty) (mayFollow : Bool) (p : α) :
    rollFace d mayFollow (Branch.start d) p = fun c face => c.finish face p := by
  funext c face
  rw [rollFace_eq, Branch.after_start_of_isEmpty h]
  rfl

/-- Chains that no face goes on with end after one roll. -/
theorem ofDie_of_isEmpty (h : d.rerolls.isEmpty) : (ofDie d : Chains α) =
    { totals := Pool.ofEntries (d.faces.map fun face => (face, (0 + 1) / Mass.ofInt d.sides)) } := by
  have hfaces : ∀ (p : α) (faces : List Int) (c : Chains α), faces.foldl (fun c face => c.finish face p) c =
      { c with totals := faces.foldl (fun pool face => pool.add face p) c.totals } := by
    intro p faces
    induction faces with
    | nil => exact fun _ => rfl
    | cons face faces ih => exact fun c => ih (c.finish face p)
  have honce : (ofStart d : Chains α).rollAll d false =
      { totals := Pool.ofEntries (d.faces.map fun face => (face, (0 + 1) / Mass.ofInt d.sides)) } := by
    rw [rollAll_eq, ofStart, Pool.sound_empty.entries_add, Pool.entries_empty, Pool.bump, List.foldl_cons,
      List.foldl_nil, rollBranch, rollFace_start h, hfaces, Pool.ofEntries, List.foldl_map]
  obtain ⟨more, hmore⟩ : ∃ more, maxChainRolls - 1 = more + 1 := ⟨_, rfl⟩
  show rollOn d (maxChainRolls - 1) (ofStart d) = _
  rw [hmore, rollOn, honce]
  rfl

end Chains

namespace RuledDie

variable {d : RuledDie} {i : Nat} {rule : RerollRule} {low high : Int}

theorem nodup_faces (d : RuledDie) : d.faces.Nodup := by
  refine List.Nodup.map (fun n n' h => ?_) List.nodup_range
  have h : ((n + 1 : Nat) : Int) = (n' + 1 : Nat) := h
  omega

def evenFaces (d : RuledDie) : List (Int × Rat) := d.faces.map fun face => (face, 1 / d.sides)

theorem entries_fair {p : Distribution Rat} (h : Distribution.fair d.sides = .ok p) :
    p.entries = d.evenFaces := by
  have hsides : (0 : Rat) < d.sides := Nat.cast_pos.mpr d.sides_pos
  have hshare : (0 : Rat) < 1 / d.sides := one_div_pos.mpr hsides
  simp only [Distribution.fair, unless_ok, Except.ok.injEq] at h
  obtain ⟨-, -, rfl⟩ := h
  refine (Distribution.entries_replicate 1 d.sides_pos (by simpa using hshare.ne') hshare).trans ?_
  rw [evenFaces, Die.faces, List.map_map]
  refine List.map_congr_left fun n _ => ?_
  simp [add_comm]

theorem totals_of_isEmpty (hrerolls : d.rerolls.isEmpty) :
    (Chains.ofDie d : Chains Rat).totals.entries = d.evenFaces := by
  have hnd : ((d.faces.map fun face => (face, ((0 : Rat) + 1) / Mass.ofInt d.sides)).map (·.1)).Nodup := by
    rw [List.map_map]
    exact d.nodup_faces.map fun _ _ h => h
  rw [Chains.ofDie_of_isEmpty hrerolls]
  refine (Pool.entries_ofEntries hnd).trans ?_
  rw [List.map_map, evenFaces]
  refine List.map_congr_left fun face _ => ?_
  simp [Mass.ofInt]

theorem listedMasses_of_mapped (hrerolls : d.rerolls.isEmpty) (hmaps : d.maps.isEmpty = false)
    {fair : Distribution Rat} (hfair : Distribution.fair d.sides = .ok fair) :
    d.listedMasses Rat = d.mapMasses fair.entries := by
  rw [listedMasses, hmaps, totals_of_isEmpty hrerolls, entries_fair hfair]
  rfl

theorem mem_listedMasses_iff (hrerolls : d.rerolls.isEmpty) {value : Int} :
    value ∈ (d.listedMasses Rat).map (·.1) ↔ ∃ face ∈ d.faces, d.valueOf face = value := by
  have hkeys : (Chains.ofDie d : Chains Rat).totals.keys = d.faces := by
    rw [← Pool.keys_entries, totals_of_isEmpty hrerolls, evenFaces, List.map_map]
    exact List.map_id _
  rw [← hkeys]
  constructor
  · intro h
    obtain ⟨e, he, rfl⟩ := List.mem_map.mp h
    exact exists_total_of_mem_listedMasses he
  · rintro ⟨face, hface, rfl⟩
    exact valueOf_mem_listedMasses hface

theorem tooWide_listedMasses (hrerolls : d.rerolls.isEmpty)
    (hlow : ∃ face ∈ d.faces, d.valueOf face = low) (hhigh : ∃ face ∈ d.faces, d.valueOf face = high)
    (hwide : maxOutcomes < high - low + 1) : Distribution.TooWide (d.listedMasses Rat) := by
  obtain ⟨e, he, rfl⟩ := List.mem_map.mp ((mem_listedMasses_iff hrerolls).mpr hlow)
  obtain ⟨e', he', rfl⟩ := List.mem_map.mp ((mem_listedMasses_iff hrerolls).mpr hhigh)
  exact ⟨e, he, e', he', hwide⟩

theorem odds_insertRule_of_isEmpty (hi : i ≤ d.rerolls.length) (hidle : d.IsIdle rule)
    (hrerolls : d.rerolls.isEmpty) : ((d.insertRule i rule).odds : Except Fault (Odds Rat)) =
      (Distribution.ofEntries (d.listedMasses Rat)).map fun p => ⟨p, true⟩ := by
  have hused := usedAlike_insertRule hi hidle
  have hcomplete : (Chains.ofDie (d.insertRule i rule) : Chains Rat).complete = true := by
    rw [(Chains.alike_ofDie hused).complete, Chains.ofDie_of_isEmpty hrerolls]
  rw [odds_of_chains rfl (isEmpty_insertRule hi), hused.listedMasses, hcomplete]

theorem mean_listedMasses (hrerolls : d.rerolls.isEmpty) (f : Int → Rat) :
    Law.mean ⟨d.listedMasses Rat⟩ f = (d.toDie.roll Law.uniform).mean fun face => f (d.valueOf face) := by
  have htotals : ∀ g : Int → Rat, (Chains.ofDie d : Chains Rat).totals.law.mean g =
      (d.toDie.roll Law.uniform).mean g := by
    intro g
    rw [Law.mean_roll, Pool.law, totals_of_isEmpty hrerolls, evenFaces]
    simp [Law.mean, Function.comp_def, List.sum_map_mul_left, div_eq_inv_mul]
  rw [← htotals]
  unfold listedMasses
  cases hmaps : d.maps.isEmpty with
  | true =>
    simp only [if_true, valueOf_of_isEmpty hmaps]
    rfl
  | false =>
    simp only [Bool.false_eq_true, if_false, mean_mapMasses, valueOf, hmaps]
    rfl

theorem odds_insertRule_of_tooFar (hi : i ≤ d.rerolls.length) (hidle : d.IsIdle rule)
    (hrerolls : d.rerolls.isEmpty) (hlow : ∃ face ∈ d.faces, d.valueOf face = low)
    (hhigh : ∃ face ∈ d.faces, d.valueOf face = high) (hwide : maxOutcomes < high - low + 1) :
    ((d.insertRule i rule).odds : Except Fault (Odds Rat)) = .error (.limit .resultsTooWide) := by
  rw [odds_insertRule_of_isEmpty hi hidle hrerolls,
    Distribution.ofEntries_of_tooWide (tooWide_listedMasses hrerolls hlow hhigh hwide)]
  rfl

/-- Values that are not too far apart make odds that are exact. -/
theorem exists_odds_insertRule (hi : i ≤ d.rerolls.length) (hidle : d.IsIdle rule)
    (hrerolls : d.rerolls.isEmpty)
    (hwithin : ∀ face ∈ d.faces, low ≤ d.valueOf face ∧ d.valueOf face ≤ high)
    (hlow : ∃ face ∈ d.faces, d.valueOf face = low) (hhigh : ∃ face ∈ d.faces, d.valueOf face = high)
    (hwidth : high - low + 1 ≤ maxOutcomes) :
    ∃ o : Odds Rat, (d.insertRule i rule).odds = .ok o ∧ o.complete ∧
      (∀ f, o.distribution.law.mean f = d.rollLaw.mean f) ∧
      o.distribution.low = low ∧ o.distribution.high = high := by
  have hends : ∀ e ∈ d.listedMasses Rat, low ≤ e.1 ∧ e.1 ≤ high := by
    intro e he
    obtain ⟨face, hface, heq⟩ := (mem_listedMasses_iff hrerolls).mp (List.mem_map_of_mem he)
    exact heq ▸ hwithin face hface
  obtain ⟨p, hp⟩ := Distribution.exists_ofEntries hends (by omega) d.nodup_listedMasses
    (fun e he => (d.pos_listedMasses e he).le) d.sum_listedMasses
  have hmean : ∀ f : Int → Rat,
      p.law.mean f = (d.toDie.roll Law.uniform).mean fun face => f (d.valueOf face) := fun f => by
    rw [Distribution.mean_ofEntries hp d.nodup_listedMasses, mean_listedMasses hrerolls]
  refine ⟨⟨p, true⟩, ?_, rfl, fun f => ?_,
    ends_of_faces (Distribution.nonneg_ofEntries hp) hmean hwithin hlow hhigh⟩
  · rw [odds_insertRule_of_isEmpty hi hidle hrerolls, hp]
    rfl
  · rw [hmean, mean_rollLaw, worth_start_of_isEmpty hrerolls]

/-- Where a die without rules has odds, an idle rule leaves them as they are. -/
theorem odds_insertRule_of_le (hi : i ≤ d.rerolls.length) (hidle : d.IsIdle rule)
    (hrerolls : d.rerolls.isEmpty) (hsides : d.sides ≤ maxFairSides) :
    (d.insertRule i rule).odds = (d.odds : Except Fault (Odds Rat)) := by
  have hpos := d.sides_pos
  obtain ⟨fair, hfair⟩ : ∃ fair : Distribution Rat, Distribution.fair d.sides = .ok fair :=
    ⟨_, fair_of_le hsides⟩
  cases hmaps : d.maps.isEmpty with
  | true =>
    have hodds := odds_of_unmapped hrerolls hmaps hfair
    have hvalue := valueOf_of_isEmpty hmaps
    have hwithin : ∀ face ∈ d.faces, 1 ≤ d.valueOf face ∧ d.valueOf face ≤ d.sides := fun face hface =>
      (hvalue face).symm ▸ Die.mem_faces.mp hface
    have hmost : (maxFairSides : Int) ≤ maxOutcomes := by decide
    obtain ⟨o, ho, hcomplete, hmean, -⟩ := exists_odds_insertRule hi hidle hrerolls hwithin
      ⟨1, Die.mem_faces.mpr (by omega), hvalue 1⟩ ⟨d.sides, d.sides_mem_faces, hvalue _⟩ (by omega)
    have hsame : o.distribution = fair := by
      refine (live_odds ho).ext (live_odds hodds) fun r => ?_
      rw [Distribution.mass_eq_prob, Distribution.mass_eq_prob]
      exact (hmean _).trans (odds_of_isEmpty hrerolls hodds _).symm
    rw [ho, hodds, ← hsame, ← hcomplete]
  | false =>
    rw [odds_insertRule_of_isEmpty hi hidle hrerolls, odds_of_mapped hrerolls hmaps hfair,
      listedMasses_of_mapped hrerolls hmaps hfair]

/-- An idle rule changes nothing beside other rules. A die that has no others is worked out through chains
instead of from its faces: it then has no bounds if its values are too far apart for odds, and it
has odds even with too many faces for fair ones. -/
theorem insertRule_of_isIdle (hi : i ≤ d.rerolls.length) (hidle : d.IsIdle rule) :
    (∀ xs, InRange d.sides xs → (d.insertRule i rule).roll drawNext xs = d.roll drawNext xs) ∧
      (d.rerolls.isEmpty = false →
        (d.insertRule i rule).odds = (d.odds : Except Fault (Odds Rat)) ∧
          (d.insertRule i rule).bounds Rat = d.bounds Rat) ∧
      (d.rerolls.isEmpty → ∃ low high, d.bounds Rat = .ok (low, high) ∧
        (d.insertRule i rule).bounds Rat =
          (if maxOutcomes < high - low + 1 then .error (.limit .resultsTooWide) else .ok (low, high)) ∧
        (d.sides ≤ maxFairSides → (d.insertRule i rule).odds = (d.odds : Except Fault (Odds Rat))) ∧
        (maxFairSides < d.sides →
          (d.odds : Except Fault (Odds Rat)) = .error (.limit (.tooManySides maxFairSides d.sides)) ∧
          if maxOutcomes < high - low + 1 then
            ((d.insertRule i rule).odds : Except Fault (Odds Rat)) = .error (.limit .resultsTooWide)
          else ∃ o : Odds Rat, (d.insertRule i rule).odds = .ok o ∧ o.complete ∧
            ∀ r, o.distribution.mass r = d.rollLaw.prob {r})) := by
  refine ⟨fun xs hxs => roll_insertRule hi hidle hxs,
    fun hrerolls => ⟨odds_insertRule hi hidle hrerolls, bounds_insertRule hi hidle hrerolls⟩,
    fun hrerolls => ?_⟩
  obtain ⟨low, high, hbounds, hwithin, hlow, hhigh⟩ := exists_bounds_of_isEmpty (α := Rat) hrerolls
  have hrules : (d.insertRule i rule).rerolls.isEmpty = false := isEmpty_insertRule hi
  refine ⟨low, high, hbounds, ?_, odds_insertRule_of_le hi hidle hrerolls, fun hsides =>
    ⟨odds_of_tooManySides hrerolls hsides, ?_⟩⟩
  all_goals split <;> rename_i hwide
  · simp only [bounds, hrules, odds_insertRule_of_tooFar hi hidle hrerolls hlow hhigh hwide]
    rfl
  · obtain ⟨o, ho, hcomplete, -, rfl, rfl⟩ := exists_odds_insertRule hi hidle hrerolls hwithin hlow hhigh
      (not_lt.mp hwide)
    simp only [bounds, hrules, ho]
    show (if o.complete then _ else _) = _
    rw [if_pos hcomplete]
    rfl
  · exact odds_insertRule_of_tooFar hi hidle hrerolls hlow hhigh hwide
  · obtain ⟨o, ho, hcomplete, hmean, -⟩ := exists_odds_insertRule hi hidle hrerolls hwithin hlow hhigh
      (not_lt.mp hwide)
    refine ⟨o, ho, hcomplete, fun r => ?_⟩
    rw [Distribution.mass_eq_prob]
    exact hmean _

-- ---------------------------------------------------------------------------
-- A face that is worth ten million
-- ---------------------------------------------------------------------------

def onThree : RerollRule :=
  ⟨.compares .eq 3, .add, RerollRule.defaultLimit, add_ne_basic, by decide, by decide⟩

/-- A coin of which one face is worth ten million and the other nothing. -/
def jackpot : RuledDie :=
  { sides := 2, sides_pos := Nat.two_pos, maps := [⟨.compares .eq 1, { value := 10000000 }⟩] }

theorem isIdle_jackpot : jackpot.IsIdle onThree := by unfold IsIdle; decide

theorem bounds_insertRule_ne_jackpot :
    jackpot.IsIdle onThree ∧ jackpot.bounds Rat = .ok (0, 10000000) ∧
      (jackpot.insertRule 0 onThree).bounds Rat = .error (.limit .resultsTooWide) := by
  refine ⟨isIdle_jackpot, rfl, ?_⟩
  have hlow : ∃ face ∈ jackpot.faces, jackpot.valueOf face = 0 := ⟨2, by decide, by decide⟩
  have hhigh : ∃ face ∈ jackpot.faces, jackpot.valueOf face = 10000000 := ⟨1, by decide, by decide⟩
  have hodds := odds_insertRule_of_tooFar (Nat.zero_le _) isIdle_jackpot rfl hlow hhigh (by decide)
  have hrules : (jackpot.insertRule 0 onThree).rerolls.isEmpty = false := rfl
  simp only [bounds, hrules, hodds]
  rfl

theorem insertRule_of_isIdle_coins :
    1 ≤ coin.rerolls.length ∧ coin.IsIdle onThree ∧ 0 ≤ jackpot.rerolls.length ∧ jackpot.IsIdle onThree ∧
      (∀ xs, InRange 2 xs → (coin.insertRule 1 onThree).roll drawNext xs = coin.roll drawNext xs) ∧
      (coin.insertRule 1 onThree).odds = .ok ⟨Distribution.ofCells 1 [1 / 2, 0, 1 / 4, (1 / 4 : Rat)], true⟩ ∧
      (coin.insertRule 1 onThree).bounds Rat = .ok (1, 4) ∧
      (jackpot.insertRule 0 onThree).odds = (jackpot.odds : Except Fault (Odds Rat)) ∧
      (jackpot.insertRule 0 onThree).bounds Rat = .error (.limit .resultsTooWide) := by
  have hidle : coin.IsIdle onThree := by unfold IsIdle; decide
  obtain ⟨hroll, hrules, -⟩ := insertRule_of_isIdle (d := coin) (i := 1) (le_refl 1) hidle
  obtain ⟨hodds, hbounds⟩ := hrules rfl
  obtain ⟨-, -, halone⟩ := insertRule_of_isIdle (d := jackpot) (i := 0) (Nat.zero_le 0) isIdle_jackpot
  obtain ⟨low, high, hplain, hwide, hfair, -⟩ := halone rfl
  have hends : jackpot.bounds Rat = .ok (0, 10000000) := rfl
  obtain ⟨rfl, rfl⟩ := Prod.mk.inj (Except.ok.inj (hplain.symm.trans hends))
  exact ⟨le_refl 1, hidle, Nat.zero_le 0, isIdle_jackpot, hroll, hodds.trans odds_coin,
    hbounds.trans bounds_coin, hfair (by decide), hwide⟩

end RuledDie

end TabletopDice
