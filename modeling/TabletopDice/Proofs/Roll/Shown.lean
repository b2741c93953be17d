import Mathlib.Algebra.Order.BigOperators.Group.List
import Mathlib.Data.List.Forall2
import TabletopDice.Proofs.Odds.Dice
import TabletopDice.Proofs.Odds.Reach
import TabletopDice.Proofs.Roll.Idle
import TabletopDice.Report

/-!
# The numbers of a roll

What a report of a roll shows are faces, totals, values and sums of these. None
is further from zero than the sides, uses and mapped values of the dice allow,
wherever the draws come from.
-/

namespace TabletopDice

-- ---------------------------------------------------------------------------
-- Wordings
-- ---------------------------------------------------------------------------

def Piece.size : Piece → Nat
  | .words _ => 0
  | .number n => n.natAbs

namespace Wording

def UpTo (n : Nat) (w : Wording) : Prop := ∀ p ∈ w, p.size ≤ n

variable {n n' : Nat} {w w' : Wording}

@[simp] theorem upTo_nil : UpTo n [] := nofun

@[simp] theorem upTo_cons {p : Piece} : UpTo n (p :: w) ↔ p.size ≤ n ∧ w.UpTo n := List.forall_mem_cons

@[simp] theorem upTo_append : UpTo n (w ++ w') ↔ w.UpTo n ∧ w'.UpTo n := List.forall_mem_append

theorem UpTo.mono (h : w.UpTo n) (hn : n ≤ n') : w.UpTo n' := fun p hp => (h p hp).trans hn

theorem join_cons_cons (separator : String) (w w' : Wording) (ws : List Wording) :
    join separator (w :: w' :: ws) = w ++ .words separator :: join separator (w' :: ws) := by
  simp [join, List.intercalate]

theorem join_cons (separator : String) (w : Wording) (ws : List Wording) :
    join separator (w :: ws) = w ++ ws.flatMap (.words separator :: ·) := by
  induction ws generalizing w with
  | nil => simp [join]
  | cons w' ws ih => simp [join_cons_cons, ih]

theorem upTo_join (separator : String) {ws : List Wording} (h : ∀ w ∈ ws, w.UpTo n) :
    (join separator ws).UpTo n := by
  cases ws with
  | nil => exact upTo_nil
  | cons w ws =>
    rw [List.forall_mem_cons] at h
    rw [join_cons, upTo_append]
    refine ⟨h.1, fun p hp => ?_⟩
    obtain ⟨w', hw', hp⟩ := List.mem_flatMap.mp hp
    exact upTo_cons.mpr ⟨Nat.zero_le n, h.2 w' hw'⟩ p hp

theorem writable_of_upTo (h : w.UpTo n) (hn : n < Nat.pow 10 Decimal.digitLimit) : w.Writable := by
  intro p hp
  cases p with
  | words s => trivial
  | number k => exact (h _ hp).trans_lt hn

end Wording

-- ---------------------------------------------------------------------------
-- Draws
-- ---------------------------------------------------------------------------

/-- Whatever state its draws begin in, the computation returns such a value. -/
def Returns {σ β : Type} (P : β → Prop) (x : StateM σ β) : Prop := ∀ s, P (x s).1

namespace Returns

variable {σ β γ : Type} {P : β → Prop} {Q : γ → Prop}

theorem pure {b : β} (h : P b) : Returns P (Pure.pure b : StateM σ β) := fun _ => h

theorem bind {x : StateM σ β} {f : β → StateM σ γ} (hx : Returns P x) (hf : ∀ b, P b → Returns Q (f b)) :
    Returns Q (x >>= f) := fun s => hf _ (hx s) _

theorem mapM {R : β → γ → Prop} {f : β → StateM σ γ} {bs : List β} (h : ∀ b ∈ bs, Returns (R b) (f b)) :
    Returns (List.Forall₂ R bs) (bs.mapM f) := by
  induction bs with
  | nil => exact pure .nil
  | cons b bs ih =>
    rw [List.forall_mem_cons] at h
    rw [List.mapM_cons]
    exact h.1.bind fun c hc => (ih h.2).bind fun cs hcs => pure (.cons hc hcs)

end Returns

def DrawsInRange {σ : Type} (draw : Nat → StateM σ Int) : Prop :=
  ∀ n : Nat, 0 < n → Returns (fun x : Int => 0 ≤ x ∧ x < n) (draw n)

-- ---------------------------------------------------------------------------
-- Dice
-- ---------------------------------------------------------------------------

/-- So many rolls of a die: their faces, and a total that they can come to. -/
structure History.Rolled (d : RuledDie) (n : Nat) (h : History) : Prop where
  rolls : ∀ step ∈ h.steps.toList, step.roll ∈ d.faces
  total : ∀ t, h.total = some t → |t| ≤ n * d.sides
  unmapped : h.mapped = none

structure History.UpTo (n : Nat) (h : History) : Prop where
  rolls : ∀ step ∈ h.steps.toList, step.roll.natAbs ≤ n
  total : ∀ t, h.total = some t → t.natAbs ≤ n
  value : h.value.natAbs ≤ n

namespace RuledDie

variable {σ : Type} {draw : Nat → StateM σ Int} {d : RuledDie} {h : History}

def mostTotal (d : RuledDie) : Nat := (d.uses.sum + 1) * d.sides

def mostShown (d : RuledDie) : Nat := d.mostTotal + (d.maps.map fun rule => rule.mapped.value.natAbs).sum

theorem returns_face (hdraw : DrawsInRange draw) : Returns (· ∈ d.faces) (d.toDie.roll draw) :=
  (hdraw d.sides d.sides_pos).bind fun x hx => .pure (Die.mem_faces.mpr ⟨by omega, by omega⟩)

theorem rolled_add {n : Nat} (hh : h.Rolled d n) {face : Int} (hface : face ∈ d.faces) (reason : Effect) :
    (h.add face reason).Rolled d (n + 1) := by
  obtain ⟨hlow, hhigh⟩ := Die.mem_faces.mp hface
  refine ⟨?_, ?_, rfl⟩
  · intro step hstep
    rw [show (h.add face reason).steps.toList = _ from Array.toList_push, List.mem_append] at hstep
    rcases hstep with hstep | hstep
    · exact hh.rolls step hstep
    · obtain rfl := List.mem_singleton.mp hstep
      exact hface
  · intro t ht
    obtain rfl := Option.some.inj ht
    have hjoined := Running.abs_joined_le (s := h.running) hh.total (by positivity) (show 0 ≤ face by omega) reason
    push_cast
    linarith

theorem returns_rollOn (hdraw : DrawsInRange draw) {n fuel : Nat} (left : List Nat) (face : Int)
    (hh : h.Rolled d n) : Returns (fun h => ∃ n' ≤ n + fuel, h.Rolled d n') (d.rollOn draw fuel left face h) := by
  induction fuel generalizing n left face h with
  | zero => exact .pure ⟨n, le_rfl, hh⟩
  | succ fuel ih =>
    rw [rollOn_succ]
    split
    · exact .pure ⟨n, by omega, hh⟩
    · refine (returns_face hdraw).bind fun face hface => ?_
      have hmore := ih ‹List Nat› face (rolled_add hh hface ‹Effect›)
      rwa [show n + 1 + fuel = n + (fuel + 1) by omega] at hmore

theorem returns_roll (hdraw : DrawsInRange draw) :
    Returns (fun h => ∃ h' n, n ≤ d.uses.sum + 1 ∧ h'.Rolled d n ∧ h = d.finish h') (d.roll draw) := by
  have hnone : History.Rolled d 0 {} := ⟨nofun, nofun, rfl⟩
  rw [roll, ← List.sum_eq_foldr]
  refine (returns_face hdraw).bind fun face hface => ?_
  refine (returns_rollOn hdraw _ _ (rolled_add hnone hface .basic)).bind fun h hh => ?_
  obtain ⟨n, hn, hh⟩ := hh
  exact .pure ⟨h, n, by omega, hh, rfl⟩

theorem natAbs_mapTotal_le (d : RuledDie) (total : Int) :
    (d.mapTotal total).value.natAbs ≤ (d.maps.map fun rule => rule.mapped.value.natAbs).sum := by
  unfold mapTotal
  cases hfind : d.maps.findSome? (·.map? total) with
  | none => exact Nat.zero_le _
  | some mapped =>
    obtain ⟨rule, hrule, hmap⟩ := List.exists_of_findSome?_eq_some hfind
    unfold MapRule.map? at hmap
    split at hmap
    · obtain rfl := Option.some.inj hmap
      exact List.le_sum_of_mem (List.mem_map_of_mem hrule)
    · cases hmap

/-- Mapped or not, so many rolls of the die show nothing that is further from zero. -/
theorem upTo_finish {n : Nat} (hn : n ≤ d.uses.sum + 1) (hh : h.Rolled d n) : (d.finish h).UpTo d.mostShown := by
  have htotal : ∀ t, h.total = some t → t.natAbs ≤ d.mostTotal := by
    intro t ht
    have hle : n * d.sides ≤ d.mostTotal := Nat.mul_le_mul_right d.sides hn
    have hnear : (t.natAbs : Int) ≤ (n * d.sides : Nat) := by
      rw [Int.natCast_natAbs]
      exact_mod_cast hh.total t ht
    exact (Int.ofNat_le.mp hnear).trans hle
  have hrolls : ∀ step ∈ h.steps.toList, step.roll.natAbs ≤ d.mostShown := by
    intro step hstep
    have hface := Die.mem_faces.mp (hh.rolls step hstep)
    have hsides : d.sides ≤ d.mostTotal := Nat.le_mul_of_pos_left d.sides (Nat.succ_pos _)
    unfold mostShown
    omega
  unfold finish
  split
  · refine ⟨hrolls, fun t ht => (htotal t ht).trans (Nat.le_add_right ..), ?_⟩
    rw [History.value, History.value?, hh.unmapped]
    cases ht : h.total with
    | none => exact Nat.zero_le _
    | some t => exact (htotal t ht).trans (Nat.le_add_right ..)
  · exact ⟨hrolls, fun t ht => (htotal t ht).trans (Nat.le_add_right ..),
      (d.natAbs_mapTotal_le _).trans (Nat.le_add_left ..)⟩

theorem returns_upTo (hdraw : DrawsInRange draw) : Returns (History.UpTo d.mostShown) (d.roll draw) := by
  intro s
  obtain ⟨h, n, hn, hh, hroll⟩ := returns_roll hdraw s
  rw [hroll]
  exact upTo_finish hn hh

end RuledDie

namespace History

variable {n : Nat} {h : History}

theorem upTo_labelSuffix (h : History) : h.labelSuffix.UpTo n := by
  unfold labelSuffix
  split <;> simp [Piece.size]

theorem UpTo.ofNumber? (hh : h.UpTo n) : (Wording.ofNumber? h.total).UpTo n := by
  cases ht : h.total with
  | none => simp [Wording.ofNumber?, Piece.size]
  | some t => simpa [Wording.ofNumber?, Piece.size] using hh.total t ht

theorem UpTo.explain (hh : h.UpTo n) : h.explain.UpTo n := by
  have hsteps : ∀ steps : List RollStep, (∀ step ∈ steps, step.roll.natAbs ≤ n) → (stepsText steps).UpTo n := by
    intro steps hrolls
    cases steps with
    | nil => exact Wording.upTo_nil
    | cons first later =>
      rw [List.forall_mem_cons] at hrolls
      refine Wording.upTo_cons.mpr ⟨hrolls.1, fun p hp => ?_⟩
      obtain ⟨step, hstep, hp⟩ := List.mem_flatMap.mp hp
      rcases List.mem_cons.mp hp with rfl | hp
      · exact Nat.zero_le n
      · obtain rfl := List.mem_singleton.mp hp
        exact hrolls.2 step hstep
  refine Wording.upTo_append.mpr ⟨?_, h.upTo_labelSuffix⟩
  unfold breakdown
  dsimp only
  split
  · exact hh.ofNumber?
  · simp [Piece.size, hsteps _ hh.rolls, hh.ofNumber?]

theorem UpTo.explainTotal (hh : h.UpTo n) : h.explainTotal.UpTo n :=
  Wording.upTo_append.mpr ⟨hh.ofNumber?, h.upTo_labelSuffix⟩

end History

-- ---------------------------------------------------------------------------
-- Bunches
-- ---------------------------------------------------------------------------

theorem natAbs_sum_le {n : Nat} {xs : List Int} (h : ∀ x ∈ xs, x.natAbs ≤ n) :
    xs.sum.natAbs ≤ xs.length * n := by
  induction xs with
  | nil => exact Nat.zero_le _
  | cons x xs ih =>
    rw [List.forall_mem_cons] at h
    have hsum := ih h.2
    have hadd := Int.natAbs_add_le x xs.sum
    rw [List.sum_cons, List.length_cons, Nat.succ_mul]
    omega

/-- The values that are kept stand together in some order of all. -/
theorem Keep.exists_infix_divide {β : Type} (k : Keep) (value : β → Int) (xs : List β) :
    ∃ l, (k.divide value xs).1 <:+: l ∧ l.Perm xs := by
  unfold divide
  cases k.mode with
  | best => exact ⟨_, (List.drop_suffix ..).isInfix, List.mergeSort_perm ..⟩
  | worst => exact ⟨_, (List.take_prefix ..).isInfix, List.mergeSort_perm ..⟩

namespace Bunch

variable {σ : Type} {draw : Nat → StateM σ Int} {b : Bunch} {r : BunchRoll}

def mostShown (b : Bunch) : Nat := b.count * b.die.mostShown

/-- As many histories as there are dice, and no more kept, show nothing that is further from zero. -/
structure Shows (b : Bunch) (r : BunchRoll) : Prop where
  details : ∀ h ∈ r.details, h.UpTo b.die.mostShown
  kept : ∀ h ∈ r.kept, h.UpTo b.die.mostShown
  few : r.kept.length ≤ b.count

theorem shows_choose {details : List History} (h : ∀ h ∈ details, h.UpTo b.die.mostShown)
    (hlen : details.length = b.count) : b.Shows (b.choose details) := by
  unfold choose
  cases b.keep with
  | none => exact ⟨h, h, hlen.le⟩
  | some keep =>
    dsimp only
    split
    · exact ⟨h, h, hlen.le⟩
    · obtain ⟨l, hpart, hperm⟩ := keep.exists_infix_divide History.value details
      exact ⟨h, fun x hx => h x (hperm.mem_iff.mp (hpart.subset hx)),
        hpart.length_le.trans (hperm.length_eq.trans hlen).le⟩

theorem returns_shows (hdraw : DrawsInRange draw) : Returns b.Shows (b.roll draw) := by
  refine (Returns.mapM (R := fun _ h => h.UpTo b.die.mostShown) fun die hdie => ?_).bind fun details hall => ?_
  · rw [List.eq_of_mem_replicate hdie]
    exact RuledDie.returns_upTo hdraw
  · refine .pure (shows_choose ?_ (hall.length_eq.symm.trans List.length_replicate))
    exact forall_of_forall₂ hall

theorem Shows.result (h : b.Shows r) : r.result.natAbs ≤ b.mostShown := by
  rw [BunchRoll.result, ← List.sum_eq_foldr]
  refine (natAbs_sum_le (n := b.die.mostShown) ?_).trans ?_
  · simpa using fun x hx => (h.kept x hx).value
  · rw [List.length_map]
    exact Nat.mul_le_mul_right _ h.few

theorem Shows.explain (h : b.Shows r) : (b.explain r).UpTo b.mostShown := by
  have hmost : b.die.mostShown ≤ b.mostShown := Nat.le_mul_of_pos_left _ b.count_pos
  have hdetails : ∀ w ∈ r.details.map History.explain, w.UpTo b.mostShown := by
    simpa using fun x hx => (h.details x hx).explain.mono hmost
  have hkept : ∀ w ∈ r.kept.map History.explainTotal, w.UpTo b.mostShown := by
    simpa using fun x hx => (h.kept x hx).explainTotal.mono hmost
  have hjoin := fun separator => Wording.upTo_join separator hdetails
  have hresult := h.result
  unfold Bunch.explain
  dsimp only
  split
  · split
    · simp [Piece.size, hjoin, hresult]
    · split <;> simp [Piece.size, hjoin, hresult]
  · split
    · simp [Piece.size, hjoin, hresult, Wording.upTo_join _ hkept]
    · split <;> simp [Piece.size, hjoin, hresult, Wording.upTo_join _ hkept]

end Bunch

-- ---------------------------------------------------------------------------
-- Reports
-- ---------------------------------------------------------------------------

namespace Dice

variable {σ : Type} {draw : Nat → StateM σ Int} {d : Dice}

def mostShown (d : Dice) : Nat :=
  d.offset.natAbs + (d.terms.map fun t => (t.multiplier.natAbs + 1) * t.bunch.mostShown).sum

theorem mostShown_term {t : Term} (ht : t ∈ d.terms) :
    (t.multiplier.natAbs + 1) * t.bunch.mostShown ≤ d.mostShown := by
  have hle := List.le_sum_of_mem
    (List.mem_map_of_mem (f := fun t : Term => (t.multiplier.natAbs + 1) * t.bunch.mostShown) ht)
  exact hle.trans (Nat.le_add_left ..)

theorem natAbs_scaled_le {t : Term} {r : BunchRoll} (h : t.bunch.Shows r) :
    (t.multiplier * r.result).natAbs ≤ (t.multiplier.natAbs + 1) * t.bunch.mostShown := by
  rw [Int.natAbs_mul]
  exact Nat.mul_le_mul (Nat.le_succ _) h.result

theorem natAbs_scaledSum_le {terms : List Term} {rolls : List BunchRoll}
    (h : List.Forall₂ (fun t r => t.bunch.Shows r) terms rolls) :
    (scaledSum terms rolls).natAbs ≤ (terms.map fun t => (t.multiplier.natAbs + 1) * t.bunch.mostShown).sum := by
  induction h with
  | nil => exact Nat.zero_le _
  | @cons t r terms rolls hr _ ih =>
    have hadd := Int.natAbs_add_le (t.multiplier * r.result) (scaledSum terms rolls)
    rw [List.map_cons, List.sum_cons]
    exact hadd.trans (Nat.add_le_add (natAbs_scaled_le hr) ih)

theorem upTo_sumText {n : Nat} {total : Wording} {summands : List Summand} (htotal : total.UpTo n)
    (h : ∀ s ∈ summands, s.size.UpTo n) : (sumText total summands).UpTo n := by
  cases summands with
  | nil => exact Wording.upTo_nil
  | cons first more =>
    rw [List.forall_mem_cons] at h
    have hmore : Wording.UpTo n
        (more.flatMap fun s => .words (if s.isNegative then " - " else " + ") :: s.size) := by
      intro p hp
      obtain ⟨s, hs, hp⟩ := List.mem_flatMap.mp hp
      rcases List.mem_cons.mp hp with rfl | hp
      · exact Nat.zero_le n
      · exact h.2 s hs p hp
    have hfirst : Wording.UpTo n (if first.isNegative then .words "-" :: first.size else first.size) := by
      split <;> simp [Piece.size, h.1]
    simp [sumText, Piece.size, hfirst, htotal, hmore]

section
variable {rolls : List BunchRoll} (h : List.Forall₂ (fun t r => t.bunch.Shows r) d.terms rolls)
include h

theorem natAbs_result_le : (d.total rolls).result.natAbs ≤ d.mostShown := by
  have hadd := Int.natAbs_add_le d.offset (scaledSum d.terms rolls)
  rw [total, ← List.sum_eq_foldr]
  exact hadd.trans (Nat.add_le_add_left (natAbs_scaledSum_le h) _)

theorem natAbs_summand_le {x : Int}
    (hx : x ∈ d.scaledResults rolls ++ (if d.offset = 0 then [] else [d.offset])) :
    x.natAbs ≤ d.mostShown := by
  rcases List.mem_append.mp hx with hx | hx
  · obtain ⟨⟨t, r⟩, htr, rfl⟩ := List.mem_map.mp hx
    exact (natAbs_scaled_le (List.forall₂_zip h htr)).trans (mostShown_term (List.of_mem_zip htr).1)
  · obtain rfl := List.mem_singleton.mp (List.mem_ite_nil_left.mp hx).2
    exact Nat.le_add_right ..

theorem upTo_part {w : Wording} (hw : w ∈ (d.terms.zip rolls).map fun e => e.1.bunch.explainLabelled e.2) :
    w.UpTo d.mostShown := by
  obtain ⟨⟨t, r⟩, htr, rfl⟩ := List.mem_map.mp hw
  have hr := List.forall₂_zip h htr
  have hmost := mostShown_term (List.of_mem_zip htr).1
  refine Wording.upTo_cons.mpr ⟨Nat.zero_le _, hr.explain.mono (le_trans ?_ hmost)⟩
  exact Nat.le_mul_of_pos_left _ (Nat.succ_pos _)

theorem upTo_explain : (d.explain (d.total rolls)).UpTo d.mostShown := by
  unfold explain
  split
  · have hoffset : d.offset.natAbs ≤ d.mostShown := Nat.le_add_right ..
    simpa [Piece.size] using hoffset
  · refine Wording.upTo_join _ fun w hw => ?_
    rcases List.mem_append.mp hw with hw | hw
    · exact upTo_part h hw
    · obtain rfl := List.mem_singleton.mp (List.mem_ite_nil_right.mp hw).2
      refine upTo_sumText (by simpa [Piece.size] using natAbs_result_le h) fun s hs => ?_
      obtain ⟨x, hx, rfl⟩ := List.mem_map.mp hs
      exact Wording.upTo_cons.mpr ⟨natAbs_summand_le h hx, Wording.upTo_nil⟩

/-- A report of a roll shows no number that is further from zero. -/
theorem upTo_report (style : Style) : (Report.roll style d (some (d.total rolls))).UpTo d.mostShown := by
  unfold Report.roll Report.line
  cases style <;> simp [Style.bold, Piece.size, natAbs_result_le h, upTo_explain h]

end

/-- The same wherever the draws come from. -/
theorem returns_report (hdraw : DrawsInRange draw) (style : Style) :
    Returns (fun r => (Report.roll style d (some r)).UpTo d.mostShown) (d.roll draw) :=
  (Returns.mapM (R := fun t r => t.bunch.Shows r) fun t _ => t.bunch.returns_shows hdraw).bind
    fun _ hall => .pure (upTo_report hall style)

end Dice

end TabletopDice
