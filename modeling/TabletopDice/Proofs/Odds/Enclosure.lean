import TabletopDice.Proofs.Odds.Dice
import TabletopDice.Proofs.Odds.Ends
import TabletopDice.Proofs.Odds.Excess

/-!
# Bounds around odds

The bounds of dice are worked out beside their odds, by rules of their own: the
faces pushed through the maps, multiplied by the dice that count, the two ends
swapped where dice count negatively. Every step of the odds has its ends within
those of the bounds, and at them where no branch was cut off.
-/

namespace TabletopDice

/-- Bounds that leave out nothing that has mass, and that are the ends where the odds are
complete. -/
structure Enclosing (complete : Prop) (d : Distribution Rat) (low high : Int) : Prop where
  low_le : low ≤ d.low
  high_le : d.high ≤ high
  tight : complete → low = d.low ∧ high = d.high

namespace RuledDie

variable {d : RuledDie} {o : Odds Rat} {low high : Int}

theorem live_odds (h : d.odds = .ok o) : o.distribution.Live := by
  refine Distribution.live_of_total (nonneg_odds h) ?_
  rw [mean_odds_const h]
  exact one_ne_zero

/-- A distribution of the value of one roll ends at the furthest values of the faces. -/
theorem ends_of_faces {p : Distribution Rat} (hnonneg : ∀ q ∈ p.masses, 0 ≤ q)
    (hmean : ∀ f : Int → Rat,
      p.law.mean f = (d.toDie.roll Law.uniform).mean fun face => f (d.valueOf face))
    (hwithin : ∀ face ∈ d.faces, low ≤ d.valueOf face ∧ d.valueOf face ≤ high)
    (hlow : ∃ face ∈ d.faces, d.valueOf face = low) (hhigh : ∃ face ∈ d.faces, d.valueOf face = high) :
    p.low = low ∧ p.high = high := by
  have hmass : ∀ r, p.mass r =
      (d.toDie.roll Law.uniform).mean fun face => Law.indicator {r} (d.valueOf face) := fun r => by
    rw [Distribution.mass_eq_prob, Law.prob, hmean]
  have hface : ∀ face ∈ d.faces, 0 < p.mass (d.valueOf face) := by
    intro face hface
    rw [hmass, Law.mean_roll]
    have hsides : (0 : Rat) < d.sides := Nat.cast_pos.mpr d.sides_pos
    refine div_pos ?_ hsides
    refine lt_of_lt_of_le zero_lt_one ?_
    have hone : Law.indicator {d.valueOf face} (d.valueOf face) = 1 := if_pos rfl
    rw [← hone]
    exact List.single_le_sum (by simp [Law.indicator_nonneg]) _ (List.mem_map_of_mem hface)
  obtain ⟨face, hmem, rfl⟩ := hlow
  obtain ⟨face', hmem', rfl⟩ := hhigh
  refine (Distribution.ends_of_mass (Distribution.mass_nonneg hnonneg) (fun r hr => ?_)
    (hface face hmem) (hface face' hmem')).2
  by_contra hout
  refine hr ((hmass r).trans (Law.mean_eq_zero fun o ho => if_neg ?_))
  intro heq
  have heq : d.valueOf o.1 = r := heq
  exact hout (heq ▸ hwithin o.1 (Law.mem_roll ho).1)

theorem mean_odds_of_isEmpty (hrerolls : d.rerolls.isEmpty) (h : d.odds = .ok o) (f : Int → Rat) :
    o.distribution.law.mean f = (d.toDie.roll Law.uniform).mean fun face => f (d.valueOf face) := by
  rw [odds_of_isEmpty hrerolls h, mean_rollLaw, worth_start_of_isEmpty hrerolls]

theorem exists_face_mapBounds (hmaps : d.maps.isEmpty = false) :
    (∃ face ∈ d.faces, d.valueOf face = (d.mapBounds d.faces).1) ∧
      ∃ face ∈ d.faces, d.valueOf face = (d.mapBounds d.faces).2 := by
  have hvalues : d.faces.map (fun total => (d.mapTotal total).value) = d.faces.map d.valueOf := by
    refine List.map_congr_left fun face _ => ?_
    simp only [valueOf, hmaps, Bool.false_eq_true, if_false]
  have hne : d.faces ≠ [] := List.ne_nil_of_mem (Die.mem_faces.mpr ⟨le_refl 1, by
    have := d.sides_pos
    omega⟩)
  unfold mapBounds
  rw [hvalues]
  split
  · rename_i hnil
    exact absurd (List.map_eq_nil_iff.mp hnil) hne
  · rename_i first more hall
    have hmem := Distribution.bounds_mem first more
    rw [← hall] at hmem
    exact ⟨List.mem_map.mp hmem.1, List.mem_map.mp hmem.2⟩

/-- Without rerolls the bounds are the furthest values of the faces. -/
theorem exists_bounds_of_isEmpty {α : Type} [Mass α] (hrerolls : d.rerolls.isEmpty) :
    ∃ low high, d.bounds α = .ok (low, high) ∧
      (∀ face ∈ d.faces, low ≤ d.valueOf face ∧ d.valueOf face ≤ high) ∧
      (∃ face ∈ d.faces, d.valueOf face = low) ∧ ∃ face ∈ d.faces, d.valueOf face = high := by
  cases hmaps : d.maps.isEmpty with
  | true =>
    have hsides := d.sides_pos
    refine ⟨1, d.sides, by simp only [bounds, hrerolls, hmaps, if_true]; rfl, ?_,
      ⟨1, Die.mem_faces.mpr ?_, valueOf_of_isEmpty hmaps _⟩,
      ⟨d.sides, Die.mem_faces.mpr ?_, valueOf_of_isEmpty hmaps _⟩⟩
    · intro face hface
      rw [valueOf_of_isEmpty hmaps]
      exact Die.mem_faces.mp hface
    · omega
    · omega
  | false =>
    exact ⟨(d.mapBounds d.faces).1, (d.mapBounds d.faces).2, by simp [bounds, hrerolls, hmaps]; rfl,
      fun face hface => valueOf_within_mapBounds hmaps hface, exists_face_mapBounds hmaps⟩

theorem enclosing (h : d.odds = .ok o) (hb : d.bounds Rat = .ok (low, high)) :
    Enclosing o.complete o.distribution low high := by
  cases hrerolls : d.rerolls.isEmpty with
  | true =>
    obtain ⟨low', high', hb', hwithin, hlow, hhigh⟩ := exists_bounds_of_isEmpty (α := Rat) hrerolls
    obtain ⟨rfl, rfl⟩ := Prod.mk.inj (Except.ok.inj (hb'.symm.trans hb))
    have hends := ends_of_faces (nonneg_odds h) (mean_odds_of_isEmpty hrerolls h) hwithin hlow hhigh
    exact ⟨hends.1.ge, hends.2.le, fun _ => ⟨hends.1.symm, hends.2.symm⟩⟩
  | false =>
    obtain ⟨o', ho', hcomplete, hcut⟩ := bounds_ok_of_rerolls hrerolls hb
    obtain rfl : o' = o := Except.ok.inj (ho'.symm.trans h)
    cases hc : o'.complete with
    | true =>
      obtain ⟨rfl, rfl⟩ := hcomplete hc
      exact ⟨le_refl _, le_refl _, fun _ => ⟨rfl, rfl⟩⟩
    | false =>
      obtain ⟨rfl, rfl⟩ := hcut hc
      exact ⟨min_le_left _ _, le_max_left _ _, by simp⟩

end RuledDie

namespace Bunch

variable {b : Bunch} {o : Odds Rat} {low high : Int}

theorem live_odds (h : b.odds = .ok o) : ∃ single : Odds Rat, b.die.odds = .ok single ∧
    o.complete = single.complete ∧ o.distribution.Live ∧
      o.distribution.low = b.counted * single.distribution.low ∧
      o.distribution.high = b.counted * single.distribution.high := by
  obtain ⟨single, hsingle, h⟩ := bind_ok.mp h
  have hlive := RuledDie.live_odds hsingle
  refine ⟨single, hsingle, ?_⟩
  unfold counted
  cases hkeep : b.keep with
  | none =>
    simp only [hkeep, bind_ok, pure_ok] at h
    obtain ⟨p, hp, rfl⟩ := h
    exact ⟨rfl, hlive.repeatSum hp⟩
  | some k =>
    simp only [hkeep, bind_ok, pure_ok] at h
    obtain ⟨p, hp, rfl⟩ := h
    dsimp only
    rcases Nat.lt_or_ge k.count b.count with hlt | hge
    · rw [min_eq_left hlt.le]
      exact ⟨rfl, hlive.keep k.count_pos hlt hp⟩
    · rw [min_eq_right hge]
      exact ⟨rfl, hlive.repeatSum (keep_of_le hge hp)⟩

theorem enclosing (h : b.odds = .ok o) (hb : b.bounds Rat = .ok (low, high)) :
    Enclosing o.complete o.distribution low high := by
  obtain ⟨single, hsingle, hcomplete, -, hlow, hhigh⟩ := live_odds h
  obtain ⟨ends, hends, hb⟩ := bind_ok.mp hb
  obtain ⟨rfl, rfl⟩ := Prod.mk.inj (pure_ok.mp hb)
  have hdie := RuledDie.enclosing hsingle hends
  rw [hcomplete]
  constructor
  · rw [hlow]
    exact mul_le_mul_of_nonneg_left hdie.low_le (Int.natCast_nonneg _)
  · rw [hhigh]
    exact mul_le_mul_of_nonneg_left hdie.high_le (Int.natCast_nonneg _)
  · intro hc
    rw [hlow, hhigh, (hdie.tight hc).1, (hdie.tight hc).2]
    exact ⟨rfl, rfl⟩

end Bunch

namespace Dice

theorem enclosing_addTerm {t : Term} {sum next : Distribution Rat} {ends : Int × Int}
    (hsum : sum.Live) (h : addTerm sum t = .ok next) (hb : termBounds Rat t = .ok ends) :
    next.Live ∧ Enclosing (t.bunch.isComplete Rat = .ok true) next (sum.low + ends.1)
      (sum.high + ends.2) := by
  obtain ⟨o, ho, h⟩ := bind_ok.mp h
  obtain ⟨⟨low, high⟩, hbunch, hb⟩ := bind_ok.mp hb
  obtain rfl := pure_ok.mp hb
  have hinner := Bunch.enclosing ho hbunch
  obtain ⟨single, hsingle, hcomplete, hlive, -⟩ := Bunch.live_odds ho
  obtain ⟨hnext, hlow, hhigh⟩ := hsum.addScaled hlive (mapError_ok.mp h)
  have hle := hsum.low_le_high
  have hle' := hlive.low_le_high
  have hloose := hinner.low_le
  have hloose' := hinner.high_le
  have htight : t.bunch.isComplete Rat = .ok true → low = o.distribution.low ∧ high = o.distribution.high := by
    intro hc
    obtain ⟨single', hsingle', hc⟩ := bind_ok.mp hc
    obtain rfl : single' = single := Except.ok.inj (hsingle'.symm.trans hsingle)
    exact hinner.tight (hcomplete.trans (pure_ok.mp hc))
  rw [one_mul, one_mul, min_eq_left hle] at hlow
  rw [one_mul, one_mul, max_eq_right hle] at hhigh
  refine ⟨hnext, ?_⟩
  -- A factor that is not positive exchanges the ends of the term and its bounds alike.
  split
  · rename_i hm
    have h1 := mul_le_mul_of_nonneg_left hle' hm.le
    have h2 := mul_le_mul_of_nonneg_left hloose hm.le
    have h3 := mul_le_mul_of_nonneg_left hloose' hm.le
    rw [min_eq_left h1] at hlow
    rw [max_eq_right h1] at hhigh
    refine ⟨by omega, by omega, fun hc => ?_⟩
    obtain ⟨rfl, rfl⟩ := htight hc
    exact ⟨hlow.symm, hhigh.symm⟩
  · rename_i hm
    have h1 := mul_le_mul_of_nonpos_left hle' (not_lt.mp hm)
    have h2 := mul_le_mul_of_nonpos_left hloose (not_lt.mp hm)
    have h3 := mul_le_mul_of_nonpos_left hloose' (not_lt.mp hm)
    rw [min_eq_right h1] at hlow
    rw [max_eq_left h1] at hhigh
    refine ⟨by omega, by omega, fun hc => ?_⟩
    obtain ⟨rfl, rfl⟩ := htight hc
    exact ⟨hlow.symm, hhigh.symm⟩

theorem enclosing_terms {terms : List Term} {sum p : Distribution Rat} {ends : List (Int × Int)}
    (hsum : sum.Live) (h : terms.foldlM addTerm sum = .ok p)
    (hb : terms.mapM (termBounds Rat) = .ok ends) :
    p.Live ∧ Enclosing (terms.allM (fun t => t.bunch.isComplete Rat) = .ok true) p
      (sum.low + (ends.map (·.1)).sum) (sum.high + (ends.map (·.2)).sum) := by
  induction terms generalizing sum ends with
  | nil =>
    obtain rfl := pure_ok.mp h
    obtain rfl := pure_ok.mp hb
    exact ⟨hsum, by simp, by simp, by simp⟩
  | cons t ts ih =>
    rw [List.foldlM_cons] at h
    obtain ⟨next, hnext, h⟩ := bind_ok.mp h
    rw [List.mapM_cons] at hb
    obtain ⟨e, he, hb⟩ := bind_ok.mp hb
    obtain ⟨es, hes, hb⟩ := bind_ok.mp hb
    obtain rfl := pure_ok.mp hb
    obtain ⟨hlive, hterm⟩ := enclosing_addTerm hsum hnext he
    obtain ⟨hp, hrest⟩ := ih hlive h hes
    have h1 := hterm.low_le
    have h2 := hterm.high_le
    have h3 := hrest.low_le
    have h4 := hrest.high_le
    simp only [List.map_cons, List.sum_cons]
    refine ⟨hp, by omega, by omega, fun hc => ?_⟩
    obtain ⟨hct, hcts⟩ := isComplete_cons hc
    obtain ⟨h5, h6⟩ := hterm.tight hct
    obtain ⟨h7, h8⟩ := hrest.tight hcts
    constructor
    · omega
    · omega

/-- No result of dice lies outside of their bounds, which complete odds attain on both sides. -/
theorem bounds_enclose_distribution {d : Dice} {p : Distribution Rat} {low high : Int}
    (h : d.distribution = .ok p) (hb : d.bounds Rat = .ok (low, high)) :
    low ≤ p.low ∧ p.low ≤ p.high ∧ p.high ≤ high ∧
      (d.isComplete Rat = .ok true → (low, high) = (p.low, p.high)) := by
  obtain ⟨sum, hsum, h⟩ := bind_ok.mp h
  obtain rfl := pure_ok.mp h
  obtain ⟨ends, hends, hb⟩ := bind_ok.mp hb
  obtain ⟨rfl, rfl⟩ := Prod.mk.inj (pure_ok.mp hb)
  obtain ⟨hlive, henclosing⟩ := enclosing_terms Distribution.live_zero hsum hends
  have hzero : (Distribution.zero : Distribution Rat).low = 0 ∧
      (Distribution.zero : Distribution Rat).high = 0 := by decide +kernel
  have h1 := henclosing.low_le
  have h2 := henclosing.high_le
  have h3 := (hlive.shift d.offset).low_le_high
  have hlow : (sum.shift d.offset).low = sum.low + d.offset := rfl
  have hhigh : (sum.shift d.offset).high = sum.high + d.offset := by
    simp only [Distribution.high, Distribution.width, Distribution.shift]
    omega
  simp only [← List.sum_eq_foldr]
  refine ⟨by omega, h3, by omega, fun hc => ?_⟩
  obtain ⟨h5, h6⟩ := henclosing.tight hc
  exact Prod.ext (by omega) (by omega)

theorem bounds_coins : coins.bounds Rat = .ok (-1, 2) := by
  simp only [bounds, coins, List.mapM_cons, List.mapM_nil, termBounds, Bunch.bounds,
    RuledDie.bounds_coin]
  rfl

theorem bounds_enclose_distribution_coins :
    (-1, 2) = ((Distribution.ofCells (-1) [7 / 16, 5 / 16, 0, (1 / 4 : Rat)]).low,
      (Distribution.ofCells (-1) [7 / 16, 5 / 16, 0, (1 / 4 : Rat)]).high) :=
  (bounds_enclose_distribution distribution_coins bounds_coins).2.2.2 isComplete_coins

end Dice

end TabletopDice
