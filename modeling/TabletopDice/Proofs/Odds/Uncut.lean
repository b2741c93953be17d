import TabletopDice.Proofs.Odds.Reach

/-!
# Chains that are never cut

Every roll of a chain but the first takes one of the uses that the rules have
left, and leaves the branches it pools no lighter than a face of the branch it
came from. So a die with few uses has all of its chains followed to their ends
before the last permitted roll, and, where its faces are few enough as well, no
branch gets too light on the way. Its odds are then the law of its rolls.
-/

namespace TabletopDice

namespace Chains

variable {d : RuledDie} {c : Chains Rat} {n : Nat}

/-- After so many rolls that called for another one nothing was cut, each branch has as many uses
less, and none is lighter than a single chain of faces. -/
structure Paced (d : RuledDie) (n : Nat) (c : Chains Rat) : Prop extends Sound c where
  complete : c.complete
  spent : ∀ b ∈ c.branches.keys, b.left.sum + n = d.uses.sum
  heavy : ∀ e ∈ c.branches.entries, 1 ≤ e.2 * d.sides ^ n

theorem paced_ofStart (d : RuledDie) : (ofStart d).Paced d 0 where
  toSound := sound_ofStart d
  complete := rfl
  spent b hb := by
    obtain rfl | hb := (Pool.sound_empty.mem_keys_add ..).mp hb
    · rfl
    · cases hb
  heavy e he := by
    rw [ofStart, Pool.sound_empty.entries_add, Pool.entries_empty, Pool.bump, List.mem_singleton] at he
    subst he
    norm_num

/-- A face keeps the pace if it is followed wherever a rule answers it. -/
theorem Paced.rollFace (h : c.Paced d (n + 1)) {mayFollow : Bool} {b : Branch} {p : Rat} (face : Int)
    (hspent : b.left.sum + n = d.uses.sum) (hheavy : 1 ≤ p * d.sides ^ (n + 1))
    (hfollow : n < d.uses.sum → mayFollow = true) : (rollFace d mayFollow b p c face).Paced d (n + 1) := by
  have hsound := h.toSound.rollFace d mayFollow b p face
  rw [rollFace_eq] at hsound ⊢
  cases ha : b.after d face with
  | none =>
    rw [ha] at hsound
    exact ⟨hsound, h.complete, h.spent, h.heavy⟩
  | some b' =>
    -- A rule answered, so it had a use left and the branch is to be followed.
    have hsum := Branch.after_sum ha
    obtain rfl : mayFollow = true := hfollow (by omega)
    rw [ha] at hsound
    refine ⟨hsound, h.complete, fun b'' hb'' => ?_, ?_⟩
    · obtain rfl | hb'' := (h.branches.mem_keys_add ..).mp hb''
      · omega
      · exact h.spent b'' hb''
    · simp only [if_true, follow, h.branches.entries_add]
      exact Pool.forall_bump (P := fun q : Rat => 1 ≤ q * d.sides ^ (n + 1)) h.heavy b'
        (by rwa [zero_add]) fun q hq => by
          rw [add_mul]
          linarith

theorem floor_le {p : Rat} {m : Nat} (hp : 1 ≤ p * m) (hm : m ≤ 10 ^ 16) : (floor : Rat) ≤ p := by
  have hfloor : (floor : Rat) = 1 / 10 ^ 16 := rfl
  have hpos : 0 < p := by
    by_contra hneg
    have hle : p * m ≤ 0 := mul_nonpos_of_nonpos_of_nonneg (not_lt.mp hneg) (Nat.cast_nonneg m)
    linarith
  have hm : (m : Rat) ≤ 10 ^ 16 := by exact_mod_cast hm
  rw [hfloor, div_le_iff₀ (by norm_num)]
  exact hp.trans (mul_le_mul_of_nonneg_left hm hpos.le)

theorem Paced.rollAll (h : c.Paced d n) {isLast : Bool} (hmass : d.sides ^ d.uses.sum ≤ 10 ^ 16)
    (hlast : isLast = true → d.uses.sum ≤ n) : (c.rollAll d isLast).Paced d (n + 1) := by
  have hsides : (d.sides : Rat) ≠ 0 := Nat.cast_ne_zero.mpr d.sides_pos.ne'
  refine rollAll_induction (Q := fun c' : Chains Rat => c'.Paced d (n + 1)) d isLast
    ⟨h.toSound.closed, h.complete, nofun, nofun⟩ fun c' e he face _ hc' => ?_
  have heach : 1 ≤ e.2 / d.sides * d.sides ^ (n + 1) := by
    rw [pow_succ', ← mul_assoc, div_mul_cancel₀ _ hsides]
    exact h.heavy e he
  refine hc'.rollFace face (h.spent e.1 ?_) heach fun hn => ?_
  · rw [← Pool.keys_entries]
    exact List.mem_map_of_mem he
  · have hpow : d.sides ^ (n + 1) ≤ 10 ^ 16 := (Nat.pow_le_pow_right d.sides_pos hn).trans hmass
    have hfloor : (floor : Rat) ≤ e.2 / d.sides := floor_le (by exact_mod_cast heach) hpow
    have hmore : isLast = false := by
      cases isLast with
      | false => rfl
      | true => exact absurd (hlast rfl) (by omega)
    simp only [mayFollow, hmore, Bool.not_false, Bool.true_and, Bool.not_eq_true', decide_eq_false_iff_not]
    exact not_lt.mpr hfloor

theorem Paced.complete_rollOn (h : c.Paced d n) (hmass : d.sides ^ d.uses.sum ≤ 10 ^ 16) {more : Nat}
    (huses : d.uses.sum ≤ n + more) : (rollOn d more c).complete := by
  induction more generalizing c n with
  | zero => exact (h.rollAll hmass fun _ => huses).complete
  | succ more ih =>
    have hall : (c.rollAll d false).Paced d (n + 1) := h.rollAll hmass nofun
    simp only [rollOn]
    split
    · exact hall.complete
    · exact ih hall (by omega)

theorem complete_ofDie (huses : d.uses.sum ≤ 19) (hmass : d.sides ^ d.uses.sum ≤ 10 ^ 16) :
    (ofDie d : Chains Rat).complete :=
  (paced_ofStart d).complete_rollOn hmass (huses.trans_eq (Nat.zero_add 19).symm)

end Chains

namespace RuledDie

theorem complete_of_isEmpty {d : RuledDie} {o : Odds Rat} (hrerolls : d.rerolls.isEmpty)
    (h : d.odds = .ok o) : o.complete := by
  simp only [odds, hrerolls, if_true, bind_ok] at h
  obtain ⟨fair, -, h⟩ := h
  split at h
  · obtain rfl := pure_ok.mp h
    rfl
  · obtain ⟨p, -, h⟩ := bind_ok.mp h
    obtain rfl := pure_ok.mp h
    rfl

/-- A die with few uses of rules and few faces has complete odds, which are the law of its rolls. -/
theorem odds_complete_of_uses_le {d : RuledDie} {o : Odds Rat} (huses : d.uses.sum ≤ 19)
    (hmass : d.sides ^ d.uses.sum ≤ 10 ^ 16) (h : d.odds = .ok o) :
    o.complete ∧ ∀ r, o.distribution.mass r = d.rollLaw.prob {r} := by
  have hcomplete : o.complete := by
    cases hrerolls : d.rerolls.isEmpty with
    | true => exact complete_of_isEmpty hrerolls h
    | false =>
      rw [(odds_ok_of_rerolls hrerolls h).1]
      exact Chains.complete_ofDie huses hmass
  refine ⟨hcomplete, fun r => ?_⟩
  rw [Distribution.mass_eq_prob]
  exact mean_odds_of_complete h hcomplete _

def exploding (sides limit : Nat) (hsides : 0 < sides) (hlimit : 0 < limit) : RuledDie :=
  { sides, sides_pos := hsides
    rerolls := [⟨.compares .eq sides, .add, limit, add_ne_basic, hlimit, nofun⟩] }

/-- A coin that uses the last roll that is permitted, and a die whose longest chain is as light as
one may be. -/
theorem odds_complete_of_uses_le_exploding :
    (∃ o : Odds Rat, (exploding 2 19 (by decide) (by decide)).odds = .ok o ∧ o.complete ∧
      ∀ r, o.distribution.mass r = (exploding 2 19 (by decide) (by decide)).rollLaw.prob {r}) ∧
    ∃ o : Odds Rat, (exploding 10 16 (by decide) (by decide)).odds = .ok o ∧ o.complete ∧
      ∀ r, o.distribution.mass r = (exploding 10 16 (by decide) (by decide)).rollLaw.prob {r} := by
  obtain ⟨p, hp⟩ := exists_odds (d := exploding 2 19 (by decide) (by decide)) rfl rfl (by decide)
  obtain ⟨q, hq⟩ := exists_odds (d := exploding 10 16 (by decide) (by decide)) rfl rfl (by decide)
  exact ⟨⟨_, hp, odds_complete_of_uses_le (by decide) (by decide) hp⟩,
    ⟨_, hq, odds_complete_of_uses_le (by decide) (by decide) hq⟩⟩

end RuledDie

end TabletopDice
