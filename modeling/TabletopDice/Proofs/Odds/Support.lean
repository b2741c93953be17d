import TabletopDice.Proofs.Odds.Die
import TabletopDice.Proofs.Roll.Ending

/-!
# What complete odds reach

Chains of which none is cut list every total that a roll can end at, whatever
numbers their masses are. A listed result whose mass is not zero is never
trimmed, so it lies between the lowest and the highest result of the odds.
-/

namespace TabletopDice

namespace Chains

variable {α : Type} [Mass α] {d : RuledDie} {c : Chains α} {b : Branch} {face t : Int}

-- ---------------------------------------------------------------------------
-- One roll
-- ---------------------------------------------------------------------------

/-- Where a face leads to is listed: its total, or the branch that it is followed by. -/
def Lists (c : Chains α) (d : RuledDie) (b : Branch) (face : Int) : Prop :=
  match b.after d face with
  | none => b.total face ∈ c.totals.keys
  | some b' => b' ∈ c.branches.keys

theorem Sound.keys_rollFace (h : c.Sound) (mayFollow : Bool) (b : Branch) (p : α) (face : Int) :
    (∀ t ∈ c.totals.keys, t ∈ (Chains.rollFace d mayFollow b p c face).totals.keys) ∧
      ∀ b' ∈ c.branches.keys, b' ∈ (Chains.rollFace d mayFollow b p c face).branches.keys := by
  rw [rollFace_eq]
  cases b.after d face with
  | none => exact ⟨fun t ht => (h.totals.mem_keys_add ..).mpr (.inr ht), fun _ hb => hb⟩
  | some b' =>
    cases mayFollow with
    | false => exact ⟨fun t ht => (h.totals.mem_keys_add ..).mpr (.inr ht), fun _ hb => hb⟩
    | true => exact ⟨fun _ ht => ht, fun b hb => (h.branches.mem_keys_add ..).mpr (.inr hb)⟩

theorem Lists.rollFace (hl : c.Lists d b face) (h : c.Sound) (mayFollow : Bool) (b' : Branch)
    (p : α) (face' : Int) : (rollFace d mayFollow b' p c face').Lists d b face := by
  obtain ⟨htotals, hbranches⟩ := h.keys_rollFace (d := d) mayFollow b' p face'
  unfold Lists at hl ⊢
  cases ha : b.after d face with
  | none =>
    rw [ha] at hl
    exact htotals _ hl
  | some b' =>
    rw [ha] at hl
    exact hbranches _ hl

theorem Sound.lists_rollFace (h : c.Sound) {mayFollow : Bool} (hcut : b.isCut d mayFollow face = false)
    (p : α) : (Chains.rollFace d mayFollow b p c face).Lists d b face := by
  rw [rollFace_eq]
  unfold Lists
  cases ha : b.after d face with
  | none => exact (h.totals.mem_keys_add ..).mpr (.inl rfl)
  | some b' =>
    have hfollow : mayFollow = true := by simpa [Branch.isCut, ha] using hcut
    rw [hfollow]
    exact (h.branches.mem_keys_add ..).mpr (.inl rfl)

theorem Sound.rollBranch (h : c.Sound) (d : RuledDie) (isLast : Bool) (e : Branch × α) :
    (rollBranch d isLast c e).Sound :=
  List.foldlRecOn _ _ h fun _ hc' face _ => hc'.rollFace d _ e.1 _ face

theorem Sound.lists_rollAll (h : c.Sound) {isLast : Bool} (hc : (c.rollAll d isLast).complete)
    (hb : b ∈ c.branches.keys) (hface : face ∈ d.faces) : (c.rollAll d isLast).Lists d b face := by
  rw [← Pool.keys_entries] at hb
  obtain ⟨e, he, rfl⟩ := List.mem_map.mp hb
  have hcut := isCut_of_complete hc he hface
  rw [rollAll_eq]
  refine foldl_of_mem (Q := Sound) (P := fun c' => c'.Lists d e.1 face) h.closed
    (fun c' e' hc' => hc'.rollBranch d isLast e') (fun c' e' hc' hl => ?_) he fun c' hc' => ?_
  · refine (List.foldlRecOn (motive := fun c' => Sound c' ∧ c'.Lists d e.1 face) _ _ ⟨hc', hl⟩
      fun c'' hc'' face' _ => ?_).2
    exact ⟨hc''.1.rollFace d _ e'.1 _ face', hc''.2.rollFace hc''.1 _ e'.1 _ face'⟩
  · exact foldl_of_mem (Q := Sound) (P := fun c' => c'.Lists d e.1 face) hc'
      (fun c'' face' hc'' => hc''.rollFace d _ e.1 _ face')
      (fun c'' face' hc'' hl => hl.rollFace hc'' _ e.1 _ face') hface
      fun c'' hc'' => hc''.lists_rollFace hcut _

theorem Sound.totals_rollAll (h : c.Sound) (isLast : Bool) (ht : t ∈ c.totals.keys) :
    t ∈ (c.rollAll d isLast).totals.keys := by
  refine (rollAll_induction (Q := fun c' : Chains α => c'.Sound ∧ t ∈ c'.totals.keys) d isLast
    ⟨h.closed, ht⟩ fun c' e _ face _ hc' => ?_).2
  exact ⟨hc'.1.rollFace d _ e.1 _ face, (hc'.1.keys_rollFace _ e.1 _ face).1 t hc'.2⟩

-- ---------------------------------------------------------------------------
-- All rolls
-- ---------------------------------------------------------------------------

def Reaches (c : Chains α) (d : RuledDie) (t : Int) : Prop :=
  t ∈ c.totals.keys ∨ ∃ b ∈ c.branches.keys, b.Ends d t

theorem Reaches.rollAll (ht : c.Reaches d t) (h : c.Sound) {isLast : Bool}
    (hc : (c.rollAll d isLast).complete) : (c.rollAll d isLast).Reaches d t := by
  rcases ht with ht | ⟨b, hb, ht⟩
  · exact .inl (h.totals_rollAll isLast ht)
  · cases ht with
    | done hface ha =>
      have hl := h.lists_rollAll hc hb hface
      rw [Lists, ha] at hl
      exact .inl hl
    | more hface ha ht =>
      have hl := h.lists_rollAll hc hb hface
      rw [Lists, ha] at hl
      exact .inr ⟨_, hl, ht⟩

theorem Reaches.of_isEmpty (ht : c.Reaches d t) (h : c.branches.isEmpty) : t ∈ c.totals.keys := by
  refine ht.resolve_right ?_
  rintro ⟨b, hb, -⟩
  have hkeys : c.branches.keys = [] := by simpa [Pool.isEmpty, Pool.keys] using h
  rw [hkeys] at hb
  cases hb

theorem Reaches.rollOn {more : Nat} (ht : c.Reaches d t) (h : c.Sound)
    (hc : (rollOn d more c).complete) : (Chains.rollOn d more c).Reaches d t := by
  induction more generalizing c with
  | zero => exact ht.rollAll h hc
  | succ more ih =>
    simp only [Chains.rollOn] at hc ⊢
    split at hc <;> rename_i hempty
    · rw [if_pos hempty]
      exact ht.rollAll h hc
    · rw [if_neg hempty]
      exact ih (ht.rollAll h (complete_of_rollOn hc)) (h.rollAll d false) hc

/-- Chains of which none is cut list every total that the die can end at. -/
theorem mem_totals_of_endings (hc : (ofDie d : Chains α).complete) (ht : t ∈ d.endings) :
    t ∈ (ofDie d : Chains α).totals.keys := by
  have hstart : (ofStart d : Chains α).Reaches d t :=
    .inr ⟨_, (Pool.sound_empty.mem_keys_add ..).mpr (.inl rfl), Branch.mem_settle_drawAny.mp ht⟩
  exact (hstart.rollOn (sound_ofStart d) hc).of_isEmpty (isEmpty_rollOn ..)

end Chains

namespace RuledDie

section
variable {α : Type} [Mass α] {d : RuledDie}

-- ---------------------------------------------------------------------------
-- Exact odds
-- ---------------------------------------------------------------------------

/-- No chain of the die is cut and no mass of its odds is rounded to zero. -/
structure HasExactOdds (α : Type) [Mass α] (d : RuledDie) : Prop where
  complete : (Chains.ofDie d : Chains α).complete
  nonzero : ∀ e ∈ d.listedMasses α, (e.2 == 0) = false

theorem valueOf_mem_listedMasses {t : Int} (ht : t ∈ (Chains.ofDie d : Chains α).totals.keys) :
    d.valueOf t ∈ (d.listedMasses α).map (·.1) := by
  rw [← Pool.keys_entries] at ht
  unfold listedMasses valueOf
  split
  · exact ht
  · obtain ⟨e, he, rfl⟩ := List.mem_map.mp ht
    rw [mapMasses, Pool.keys_entries]
    exact Pool.mem_keys_ofEntries (e := ((d.mapTotal e.1).value, e.2))
      (List.mem_map.mpr ⟨e, he, rfl⟩)

theorem exists_total_of_mem_listedMasses {e : Int × α} (he : e ∈ d.listedMasses α) :
    ∃ t ∈ (Chains.ofDie d : Chains α).totals.keys, d.valueOf t = e.1 := by
  unfold listedMasses at he
  unfold valueOf
  split at he
  · rename_i hmaps
    refine ⟨e.1, ?_, if_pos hmaps⟩
    rw [← Pool.keys_entries]
    exact List.mem_map_of_mem he
  · rename_i hmaps
    have hkey : e.1 ∈ (d.mapMasses (Chains.ofDie d : Chains α).totals.entries).map (·.1) :=
      List.mem_map_of_mem he
    rw [mapMasses, Pool.keys_entries] at hkey
    obtain ⟨e', he', hvalue⟩ := Pool.exists_of_mem_keys_ofEntries hkey
    obtain ⟨o, ho, rfl⟩ := List.mem_map.mp he'
    refine ⟨o.1, ?_, by rw [if_neg hmaps]; exact hvalue⟩
    rw [← Pool.keys_entries]
    exact List.mem_map_of_mem ho

theorem HasExactOdds.within (h : d.HasExactOdds α) {o : Odds α} (ho : d.odds = .ok o)
    (hrerolls : d.rerolls.isEmpty = false) {t : Int} (ht : t ∈ d.endings) :
    o.distribution.low ≤ d.valueOf t ∧ d.valueOf t ≤ o.distribution.high := by
  obtain ⟨-, hp⟩ := odds_ok_of_rerolls hrerolls ho
  have hvalue := valueOf_mem_listedMasses (α := α) (Chains.mem_totals_of_endings h.complete ht)
  obtain ⟨e, he, hvalue⟩ := List.mem_map.mp hvalue
  rw [← hvalue]
  exact Distribution.ofEntries_within hp d.nodup_listedMasses he (h.nonzero e he)

end

theorem pos_listedMasses (d : RuledDie) : ∀ e ∈ d.listedMasses Rat, 0 < e.2 := by
  intro e he
  have hfair := (Chains.fair_ofStart d).rollOn d (maxChainRolls - 1)
  unfold listedMasses at he
  split at he
  · exact hfair.totals_positive e he
  · refine Pool.positive_ofEntries (fun e' he' => ?_) e he
    obtain ⟨e'', he'', rfl⟩ := List.mem_map.mp he'
    exact hfair.totals_positive e'' he''

/-- Fractions are never rounded, so odds over them are exact where they are complete. -/
theorem hasExactOdds_of_complete {d : RuledDie} (h : (Chains.ofDie d : Chains Rat).complete) :
    d.HasExactOdds Rat :=
  ⟨h, fun e he => by simpa using (d.pos_listedMasses e he).ne'⟩

end RuledDie

end TabletopDice
