import TabletopDice.Proofs.Odds.Support

/-!
# How far chains are followed

A chain that is followed has only so many rolls, and each of them moves its
total by the number of faces at most. So a die that can end further away than
that has odds that are cut. Over fractions the odds of a die without maps are
listed within that distance, and the die has bounds unless the table of the
results grows too wide.
-/

namespace TabletopDice

/-- A roll moves the total by what it shows at most. -/
theorem Running.abs_joined_le {s : Running} {roll most : Int}
    (h : ∀ total, s.total = some total → |total| ≤ most) (hmost : 0 ≤ most) (hroll : 0 ≤ roll)
    (reason : Effect) : |s.joined roll reason| ≤ most + roll := by
  rw [abs_le]
  unfold joined
  cases htotal : s.total with
  | none =>
    constructor <;> dsimp only <;> omega
  | some total =>
    obtain ⟨hlow, hhigh⟩ := abs_le.mp (h total htotal)
    cases s.applied reason <;> constructor <;> dsimp only <;> omega

namespace Chains

-- ---------------------------------------------------------------------------
-- Rolls so far
-- ---------------------------------------------------------------------------

section
variable {α : Type} [Mass α] {d : RuledDie} {c : Chains α} {n : Nat}

/-- No total is further away than so many rolls can take it. -/
structure Rolled (d : RuledDie) (n : Nat) (c : Chains α) : Prop extends Sound c where
  totals_le : ∀ t ∈ c.totals.keys, |t| ≤ n * d.sides
  branches_le : ∀ b ∈ c.branches.keys, ∀ total, b.running.total = some total → |total| ≤ n * d.sides

theorem rolled_ofStart (d : RuledDie) : (ofStart d : Chains α).Rolled d 0 where
  toSound := sound_ofStart d
  totals_le := nofun
  branches_le b hb total htotal := by
    obtain rfl | hb := (Pool.sound_empty.mem_keys_add ..).mp hb
    · cases htotal
    · cases hb

theorem Rolled.mono {n' : Nat} (h : c.Rolled d n) (hn : n ≤ n') : c.Rolled d n' := by
  have hle : (n : Int) * d.sides ≤ n' * d.sides := by gcongr
  exact ⟨h.toSound, fun t ht => (h.totals_le t ht).trans hle,
    fun b hb total htotal => (h.branches_le b hb total htotal).trans hle⟩

theorem Rolled.rollFace (h : c.Rolled d n) (mayFollow : Bool) {b : Branch} (p : α) {face : Int}
    (hb : |b.total face| ≤ n * d.sides) : (rollFace d mayFollow b p c face).Rolled d n := by
  have htotals : ∀ t ∈ (c.totals.add (b.total face) p).keys, |t| ≤ n * d.sides := by
    intro t ht
    obtain rfl | ht := (h.totals.mem_keys_add ..).mp ht
    · exact hb
    · exact h.totals_le t ht
  refine ⟨h.toSound.rollFace d mayFollow b p face, ?_, ?_⟩ <;> rw [rollFace_eq]
  · cases b.after d face with
    | none => exact htotals
    | some b' =>
      cases mayFollow with
      | false => exact htotals
      | true => exact h.totals_le
  · cases ha : b.after d face with
    | none => exact h.branches_le
    | some b' =>
      obtain ⟨-, -, rfl⟩ := Option.map_eq_some_iff.mp ha
      cases mayFollow with
      | false => exact h.branches_le
      | true =>
        intro b' hb' total htotal
        obtain rfl | hb' := (h.branches.mem_keys_add ..).mp hb'
        · obtain rfl := Option.some.inj htotal
          exact hb
        · exact h.branches_le b' hb' total htotal

theorem Rolled.rollAll (h : c.Rolled d n) (isLast : Bool) :
    (c.rollAll d isLast).Rolled d (n + 1) := by
  have hmore : ((n + 1 : Nat) : Int) * d.sides = n * d.sides + d.sides := by push_cast; ring
  have hmono := h.mono (Nat.le_succ n)
  refine rollAll_induction (Q := fun c' : Chains α => c'.Rolled d (n + 1)) d isLast
    ⟨h.closed, hmono.totals_le, nofun⟩ fun c' e he face hface hc' => hc'.rollFace _ _ ?_
  obtain ⟨hlow, hhigh⟩ := Die.mem_faces.mp hface
  have hbranch : e.1 ∈ c.branches.keys := by
    rw [← Pool.keys_entries]
    exact List.mem_map_of_mem he
  calc |e.1.total face|
      ≤ n * d.sides + face :=
        Running.abs_joined_le (h.branches_le e.1 hbranch) (by positivity) (by omega) _
    _ ≤ (n + 1 : Nat) * d.sides := by omega

theorem Rolled.rollOn (h : c.Rolled d n) (more : Nat) :
    (rollOn d more c).Rolled d (n + more + 1) := by
  induction more generalizing c n with
  | zero => exact h.rollAll true
  | succ more ih =>
    simp only [Chains.rollOn]
    split
    · exact (h.rollAll false).mono (by omega)
    · exact (ih (h.rollAll false)).mono (by omega)

/-- No chain that is followed gets further than its rolls can take it. -/
theorem abs_totals_ofDie_le {t : Int} (ht : t ∈ (ofDie d : Chains α).totals.keys) :
    |t| ≤ maxChainRolls * d.sides :=
  ((rolled_ofStart d).rollOn (maxChainRolls - 1)).totals_le t ht

theorem cut_of_endings {t : Int} (ht : t ∈ d.endings) (hfar : maxChainRolls * d.sides < t) :
    (ofDie d : Chains α).complete = false := by
  by_contra hc
  have hle := abs_totals_ofDie_le (mem_totals_of_endings (Bool.eq_true_of_not_eq_false hc) ht)
  have := le_abs_self t
  omega

end

end Chains

namespace RuledDie

variable {d : RuledDie}

theorem sum_totals_ofDie (d : RuledDie) :
    ((Chains.ofDie d : Chains Rat).totals.entries.map (·.2)).sum = 1 := by
  have hworth : (Chains.ofDie d : Chains Rat).worth d (fun _ => 1) = 1 := by
    refine (Chains.worth_rollOn_const (Chains.fair_ofStart d) d _ 1).trans ?_
    rw [Chains.worth_ofStart, Branch.worth_const]
  rw [Chains.worth_ofDie] at hworth
  simpa [Law.mean, Pool.law] using hworth

theorem sum_listedMasses (d : RuledDie) : ((d.listedMasses Rat).map (·.2)).sum = 1 := by
  unfold listedMasses
  split
  · exact d.sum_totals_ofDie
  · have hmapped := mean_mapMasses d (Chains.ofDie d : Chains Rat).totals.entries fun _ => 1
    simp only [Law.mean, mul_one] at hmapped
    exact hmapped.trans d.sum_totals_ofDie

/-- Over fractions a die without maps has odds, unless it has too many faces for all results of its
chains to be listed. -/
theorem exists_odds (hmaps : d.maps.isEmpty) (hrerolls : d.rerolls.isEmpty = false)
    (hsides : 2 * (maxChainRolls * d.sides) < maxOutcomes) :
    ∃ p : Distribution Rat, d.odds = .ok ⟨p, (Chains.ofDie d : Chains Rat).complete⟩ := by
  have hlisted : d.listedMasses Rat = (Chains.ofDie d : Chains Rat).totals.entries := if_pos hmaps
  have hends : ∀ e ∈ d.listedMasses Rat,
      -(maxChainRolls * d.sides) ≤ e.1 ∧ e.1 ≤ maxChainRolls * d.sides := by
    intro e he
    rw [hlisted] at he
    refine abs_le.mp (Chains.abs_totals_ofDie_le (α := Rat) ?_)
    rw [← Pool.keys_entries]
    exact List.mem_map_of_mem he
  obtain ⟨p, hp⟩ := Distribution.exists_ofEntries hends (by omega) d.nodup_listedMasses
    (fun e he => (d.pos_listedMasses e he).le) d.sum_listedMasses
  refine ⟨p, ?_⟩
  rw [odds_of_chains rfl hrerolls, hp]
  rfl

/-- The same of its bounds. -/
theorem exists_bounds (hmaps : d.maps.isEmpty) (hsides : 2 * (maxChainRolls * d.sides) < maxOutcomes) :
    ∃ low high, d.bounds Rat = .ok (low, high) := by
  unfold bounds
  cases hrerolls : d.rerolls.isEmpty with
  | true => exact ⟨_, _, by simp [hmaps]; rfl⟩
  | false =>
    obtain ⟨p, hodds⟩ := exists_odds hmaps hrerolls hsides
    rw [hodds]
    cases hc : (Chains.ofDie d : Chains Rat).complete with
    | true => exact ⟨p.low, p.high, rfl⟩
    | false => exact ⟨min p.low d.chainBounds.1, max p.high d.chainBounds.2, rfl⟩

end RuledDie

end TabletopDice
