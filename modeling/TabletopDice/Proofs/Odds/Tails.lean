import Mathlib.Order.Interval.Finset.Basic
import TabletopDice.Proofs.Odds.Ceiling
import TabletopDice.Odds.Tails

/-!
# Tails of distributions

A tail that is kept is never other than the one that would be added up anew, so
no answer depends on what was asked before it. Where the masses come to one, the
shares of both sides of a result are sums of masses at every result, at the ends
and beyond them as well as inside.
-/

namespace TabletopDice.Distribution

-- ---------------------------------------------------------------------------
-- What is kept
-- ---------------------------------------------------------------------------

section
variable {α : Type} [Mass α] {d : Distribution α} {known : Tails α}

structure Tails.Right (known : Tails α) (d : Distribution α) : Prop where
  atLeast : ∀ {t p}, known.atLeast.lookup t = some p → d.checkAtLeast t = .ok () ∧ d.atLeast t = p
  atMost : ∀ {t p}, known.atMost.lookup t = some p → d.checkAtMost t = .ok () ∧ d.atMost t = p

theorem right_empty : ({} : Tails α).Right d := ⟨nofun, nofun⟩

/-- An answer from what is kept is the answer without it, and right tails stay right. -/
structure Agrees (d : Distribution α) (anew : Except Fault α) (recalled : Except Fault (α × Tails α)) :
    Prop where
  answer : recalled.map Prod.fst = anew
  right : ∀ {p known}, recalled = .ok (p, known) → known.Right d

theorem agrees_ok {p : α} (h : known.Right d) : Agrees d (.ok p) (.ok (p, known)) where
  answer := rfl
  right hp := by
    cases hp
    exact h

theorem agrees_error (f : Fault) : Agrees d (.error f) (.error f) where
  answer := rfl
  right hp := by cases hp

omit [Mass α] in
theorem lookup_cons_cases {kept : List (Int × α)} {s t : Int} {p q : α}
    (h : ((t, q) :: kept).lookup s = some p) : (s = t ∧ q = p) ∨ kept.lookup s = some p := by
  rw [List.lookup_cons] at h
  split at h
  · exact .inl ⟨eq_of_beq ‹_›, Option.some.inj h⟩
  · exact .inr h

theorem agrees_recallAtLeast (hnil : Mass.totalFault? ([] : List α) = none) (h : known.Right d) (t : Int) :
    Agrees d ((d.checkAtLeast t).map fun _ => d.atLeast t) (d.recallAtLeast t known) := by
  unfold recallAtLeast
  split
  · rename_i hlow
    rw [checkAtLeast, if_pos hlow, atLeast, if_pos hlow]
    exact agrees_ok h
  rename_i hlow
  split
  · rename_i hhigh
    have hnone : d.massesFrom t = [] := List.drop_eq_nil_of_le (by
      unfold high width at hhigh
      omega)
    rw [checkAtLeast, if_neg hlow, hnone, checkSummable, hnil, atLeast, if_neg hlow, if_pos hhigh]
    exact agrees_ok h
  rename_i hhigh
  have hcheck : d.checkAtLeast t = checkSummable (d.massesFrom t) := if_neg hlow
  have htotal : d.atLeast t = Mass.total (d.massesFrom t) := by rw [atLeast, if_neg hlow, if_neg hhigh]
  split
  · rename_i p hp
    obtain ⟨hok, rfl⟩ := h.atLeast hp
    rw [hok]
    exact agrees_ok h
  · rw [hcheck, htotal]
    cases hsum : checkSummable (d.massesFrom t) with
    | error f => exact agrees_error f
    | ok =>
      -- The one tail that is new is kept under the result that it was added up for.
      refine agrees_ok ⟨fun hp => ?_, h.atMost⟩
      rcases lookup_cons_cases hp with ⟨rfl, rfl⟩ | hp
      · exact ⟨hcheck.trans hsum, htotal⟩
      · exact h.atLeast hp

theorem agrees_recallAtMost (hnil : Mass.totalFault? ([] : List α) = none) (h : known.Right d) (t : Int) :
    Agrees d ((d.checkAtMost t).map fun _ => d.atMost t) (d.recallAtMost t known) := by
  unfold recallAtMost
  split
  · rename_i hhigh
    rw [checkAtMost, if_pos hhigh, atMost, if_pos hhigh]
    exact agrees_ok h
  rename_i hhigh
  split
  · rename_i hlow
    have hnone : d.massesTo t = [] := by
      rw [massesTo, show (t - d.low + 1).toNat = 0 by omega, List.take_zero]
    rw [checkAtMost, if_neg hhigh, hnone, checkSummable, hnil, atMost, if_neg hhigh, if_pos hlow]
    exact agrees_ok h
  rename_i hlow
  have hcheck : d.checkAtMost t = checkSummable (d.massesTo t) := if_neg hhigh
  have htotal : d.atMost t = Mass.total (d.massesTo t) := by rw [atMost, if_neg hhigh, if_neg hlow]
  split
  · rename_i p hp
    obtain ⟨hok, rfl⟩ := h.atMost hp
    rw [hok]
    exact agrees_ok h
  · rw [hcheck, htotal]
    cases hsum : checkSummable (d.massesTo t) with
    | error f => exact agrees_error f
    | ok =>
      refine agrees_ok ⟨h.atLeast, fun hp => ?_⟩
      rcases lookup_cons_cases hp with ⟨rfl, rfl⟩ | hp
      · exact ⟨hcheck.trans hsum, htotal⟩
      · exact h.atMost hp

theorem agrees_consult (hnil : Mass.totalFault? ([] : List α) = none) (h : known.Right d) (q : Query)
    (t : Int) : Agrees d (d.answer q t) (d.consult q t known) := by
  cases q with
  | mass => exact agrees_ok h
  | above => exact agrees_recallAtLeast hnil h (t + 1)
  | atLeast => exact agrees_recallAtLeast hnil h t
  | below => exact agrees_recallAtMost hnil h (t - 1)
  | atMost => exact agrees_recallAtMost hnil h t

-- ---------------------------------------------------------------------------
-- Questions one after another
-- ---------------------------------------------------------------------------

/-- The tails that are kept after a question; one that has no answer leaves them as they were. -/
def keepFor (d : Distribution α) (known : Tails α) (question : Query × Int) : Tails α :=
  match d.consult question.1 question.2 known with
  | .ok (_, known) => known
  | .error _ => known

def keptAfter (d : Distribution α) (asked : List (Query × Int)) : Tails α := asked.foldl d.keepFor {}

theorem right_keepFor (hnil : Mass.totalFault? ([] : List α) = none) (h : known.Right d)
    (question : Query × Int) : (d.keepFor known question).Right d := by
  unfold keepFor
  split
  · exact (agrees_consult hnil h _ _).right ‹_›
  · exact h

theorem right_keptAfter (hnil : Mass.totalFault? ([] : List α) = none) (d : Distribution α)
    (asked : List (Query × Int)) : (d.keptAfter asked).Right d :=
  List.foldlRecOn (motive := fun known => known.Right d) asked d.keepFor right_empty
    fun _ h question _ => right_keepFor hnil h question

/-- No answer depends on what was asked before. -/
theorem consult_keptAfter (hnil : Mass.totalFault? ([] : List α) = none) (d : Distribution α)
    (asked : List (Query × Int)) (q : Query) (t : Int) :
    (d.consult q t (d.keptAfter asked)).map Prod.fst = d.answer q t :=
  (agrees_consult hnil (right_keptAfter hnil d asked) q t).answer

end

-- ---------------------------------------------------------------------------
-- Shares
-- ---------------------------------------------------------------------------

section
variable {d : Distribution Rat} {P Q : Int → Bool}

def share (d : Distribution Rat) (P : Int → Bool) : Rat := (d.law.only P).mean fun _ => 1

theorem share_eq_sum (d : Distribution Rat) (P : Int → Bool) :
    d.share P = ∑ r ∈ Finset.Icc d.low d.high with P r, d.mass r := by
  rw [share, Law.mean_only, mean_eq_sum, Finset.sum_filter]
  exact Finset.sum_congr rfl fun r _ => by simp

theorem only_congr (h : ∀ r, d.low ≤ r → r ≤ d.high → P r = Q r) (f : Int → Rat) :
    (d.law.only P).mean f = (d.law.only Q).mean f := by
  rw [Law.mean_only, Law.mean_only]
  exact Law.mean_congr fun o ho => by rw [h o.1 (cells_within ho).1 (cells_within ho).2]

theorem share_congr (h : ∀ r, d.low ≤ r → r ≤ d.high → P r = Q r) : d.share P = d.share Q :=
  only_congr h _

theorem share_of_forall (h : ∀ r, d.low ≤ r → r ≤ d.high → P r) : d.share P = d.total :=
  Law.mean_only_of_forall (fun o ho => h o.1 (cells_within ho).1 (cells_within ho).2) _

theorem share_of_forall_not (h : ∀ r, d.low ≤ r → r ≤ d.high → P r = false) : d.share P = 0 :=
  Law.mean_only_of_forall_not (fun o ho => h o.1 (cells_within ho).1 (cells_within ho).2) _

theorem share_add_compl (h : ∀ r, Q r = !P r) : d.share P + d.share Q = d.total := by
  obtain rfl : Q = (!P ·) := funext h
  exact (Law.mean_eq_only_add d.law P _).symm

theorem share_split (d : Distribution Rat) (P Q : Int → Bool) :
    d.share P = d.share (fun r => P r && Q r) + d.share fun r => P r && !Q r := by
  rw [share, Law.mean_eq_only_add _ Q, Law.only_only, Law.only_only]
  rfl

theorem share_mono (hd : ∀ p ∈ d.masses, 0 ≤ p) (h : ∀ r, P r → Q r) : d.share P ≤ d.share Q := by
  rw [share, share, Law.mean_only, Law.mean_only]
  refine (nonneg_law hd).mean_mono fun o _ => ?_
  by_cases hP : P o.1
  · rw [if_pos hP, if_pos (h o.1 hP)]
  · rw [if_neg hP]
    split <;> norm_num

theorem share_nonneg (hd : ∀ p ∈ d.masses, 0 ≤ p) (P : Int → Bool) : 0 ≤ d.share P :=
  ((nonneg_law hd).only P).mean_nonneg fun _ => zero_le_one

theorem atLeast_eq_share (h : d.total = 1) (t : Int) : d.atLeast t = d.share (t ≤ ·) := by
  rcases le_or_gt t d.low with ht | ht
  · rw [atLeast, if_pos ht, share_of_forall fun r hr _ => decide_eq_true (ht.trans hr), h]
  · have habove := d.above_eq_mean (q := t - 1) (by omega)
    rw [above, sub_add_cancel] at habove
    exact habove.trans (share_congr fun r _ _ => by simp only [Int.sub_one_lt_iff])

theorem atMost_eq_share (h : d.total = 1) (t : Int) : d.atMost t = d.share (· ≤ t) := by
  rcases le_or_gt d.high t with ht | ht
  · rw [atMost, if_pos ht, share_of_forall fun r _ hr => decide_eq_true (hr.trans ht), h]
  · have hbelow := d.below_eq_mean (q := t + 1) (by omega)
    rw [below, add_sub_cancel_right] at hbelow
    exact hbelow.trans (share_congr fun r _ _ => by simp only [Int.lt_add_one_iff])

theorem above_eq_share (h : d.total = 1) (t : Int) : d.above t = d.share (t < ·) :=
  d.atLeast_eq_share h (t + 1)

theorem below_eq_share (h : d.total = 1) (t : Int) : d.below t = d.share (· < t) := by
  rw [below, d.atMost_eq_share h]
  exact share_congr fun r _ _ => by simp only [Int.le_sub_one_iff]

theorem share_eq_mass (d : Distribution Rat) (r : Int) : d.share (· = r) = d.mass r := by
  rw [share, Law.mean_only, mass_eq_prob, Law.prob]
  exact Law.mean_congr fun o _ => by simp [Law.indicator]

def likelihood (d : Distribution Rat) (q : Query) (t : Int) : Rat :=
  match q with
  | .mass => d.mass t
  | .above => d.above t
  | .atLeast => d.atLeast t
  | .below => d.below t
  | .atMost => d.atMost t

/-- Fractions always have a total, so every question has its answer. -/
theorem answer_rat (d : Distribution Rat) (q : Query) (t : Int) : d.answer q t = .ok (d.likelihood q t) := by
  cases q <;>
    simp only [answer, checkAbove_rat, checkAtLeast_rat, checkBelow_rat, checkAtMost_rat] <;> rfl

/-- Where the masses come to one, every question is answered, and the same way whatever was asked
before: with the sum of the masses on its side, which complements the other side and leaves out
what the strict question leaves out. -/
theorem tails_add_up (hd : ∀ p ∈ d.masses, 0 ≤ p) (hsum : d.masses.sum = 1) :
    ∃ p : Query → Int → Rat,
      (∀ asked q t, (d.consult q t (d.keptAfter asked)).map Prod.fst = .ok (p q t)) ∧
      (∀ t, p .mass t = d.mass t ∧
        p .atLeast t = ∑ r ∈ Finset.Icc d.low d.high with t ≤ r, d.mass r ∧
        p .atMost t = ∑ r ∈ Finset.Icc d.low d.high with r ≤ t, d.mass r ∧
        p .atLeast t + p .below t = 1 ∧ p .atMost t + p .above t = 1 ∧
        p .atLeast t - p .above t = p .mass t) ∧
      Antitone (p .atLeast) ∧ Monotone (p .atMost) := by
  have htotal : d.total = 1 := d.sum_masses.symm.trans hsum
  have hatLeast : ∀ t, d.atLeast t = d.share (t ≤ ·) := d.atLeast_eq_share htotal
  have hatMost : ∀ t, d.atMost t = d.share (· ≤ t) := d.atMost_eq_share htotal
  refine ⟨d.likelihood, fun asked q t => (consult_keptAfter rfl d asked q t).trans (d.answer_rat q t),
    fun t => ?_, fun s t hst => ?_, fun s t hst => ?_⟩
  · refine ⟨rfl, (hatLeast t).trans (by simp only [share_eq_sum, decide_eq_true_eq]),
      (hatMost t).trans (by simp only [share_eq_sum, decide_eq_true_eq]), ?_, ?_, ?_⟩
    · show d.atLeast t + d.below t = 1
      rw [hatLeast, d.below_eq_share htotal, ← htotal]
      exact share_add_compl fun r => by grind
    · show d.atMost t + d.above t = 1
      rw [hatMost, d.above_eq_share htotal, ← htotal]
      exact share_add_compl fun r => by grind
    · show d.atLeast t - d.above t = d.mass t
      rw [hatLeast, d.above_eq_share htotal, sub_eq_iff_eq_add, ← d.share_eq_mass,
        d.share_split (t ≤ ·) (· = t)]
      exact congrArg₂ (· + ·) (share_congr fun r _ _ => by grind) (share_congr fun r _ _ => by grind)
  · show d.atLeast t ≤ d.atLeast s
    rw [hatLeast, hatLeast]
    exact share_mono hd fun r hr => by
      simp only [decide_eq_true_eq] at hr ⊢
      exact hst.trans hr
  · show d.atMost s ≤ d.atMost t
    rw [hatMost, hatMost]
    exact share_mono hd fun r hr => by
      simp only [decide_eq_true_eq] at hr ⊢
      exact hr.trans hst

def gapped : Distribution Rat := ofCells (-3) [1 / 8, 0, 0, 1 / 8, 0, 3 / 4]

/-- One side of zero after the other, with both tails kept by then. -/
theorem tails_add_up_gapped :
    (gapped.consult .atLeast 0 (gapped.keptAfter [(.above, -1), (.atMost, 1)])).map Prod.fst = .ok (7 / 8) ∧
      (gapped.consult .below 0 (gapped.keptAfter [(.atLeast, 0)])).map Prod.fst = .ok (1 / 8) := by
  obtain ⟨p, hp, hlaws, -⟩ :=
    tails_add_up (d := gapped) (by decide +kernel) (by decide +kernel)
  obtain ⟨-, hatLeast, -, hbelow, -⟩ := hlaws 0
  have hseven : p .atLeast 0 = 7 / 8 := hatLeast.trans (by decide +kernel)
  refine ⟨(hp _ _ _).trans (congrArg _ hseven), (hp _ _ _).trans (congrArg _ ?_)⟩
  linarith

end

end TabletopDice.Distribution
