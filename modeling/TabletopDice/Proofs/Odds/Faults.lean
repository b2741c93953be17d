import Mathlib.Data.List.TakeWhile
import TabletopDice.Proofs.Odds.Ceiling
import TabletopDice.Proofs.Odds.Idle

/-!
# Why dice have no odds

Odds that would grow too large are refused. Beyond that they fail only for the
numbers that they are worked out with: whole numbers and sums that are out of
their bounds, and rounded masses that are more than a whole. Fractions have
neither bounds nor rounding, so over them nothing but the size is in the way.
-/

namespace TabletopDice

-- ---------------------------------------------------------------------------
-- Sums and powers
-- ---------------------------------------------------------------------------

theorem failsAs_mapError {β : Type} (x : Except LimitFault β) :
    FailsAs (fun f => ∃ l, f = .limit l) (x.mapError Fault.limit) := by
  cases x with
  | error l => exact .error ⟨l, rfl⟩
  | ok b => exact .ok b

namespace Distribution

section
variable {α : Type} [Mass α]

/-- The masses beyond a result that has mass itself, on one side of it. -/
inductive Tail (p : Distribution α) : List α → Prop
  | above {e : Int × α} (he : e ∈ p.entries) : Tail p (p.massesFrom (e.1 + 1))
  | below {e : Int × α} (he : e ∈ p.entries) : Tail p (p.massesTo (e.1 - 1))

/-- What the cases are weighed by in which a result is the last one kept: its mass and the ones beyond it. -/
inductive Weight (p : Distribution α) : α → Prop
  | own {e : Int × α} (he : e ∈ p.entries) : Weight p e.2
  | above {e : Int × α} (he : e ∈ p.entries) : Weight p (p.above e.1)
  | below {e : Int × α} (he : e ∈ p.entries) : Weight p (p.below e.1)

inductive KeepFault (p : Distribution α) (n : Nat) : Fault → Prop
  | limit (l : LimitFault) : KeepFault p n (.limit l)
  | total {ps : List α} (hps : p.Tail ps) {f : TotalFault} (h : Mass.totalFault? ps = some f) :
      KeepFault p n f.fault
  | power {x : α} (hx : p.Weight x) {m : Nat} (hm : m ≤ n) (h : Mass.powOverflows x m) :
      KeepFault p n (.range .power)

/-- The results weighed by their masses, as far as these numbers hold them. -/
def heldTerms (p : Distribution α) : List α :=
  (p.entries.takeWhile fun e => Mass.holds α e.1).map fun e => Mass.ofInt e.1 * e.2

variable {p : Distribution α} {n : Nat} {e : Int × α}

theorem failsAs_checkSummable {ps : List α} (hps : p.Tail ps) : FailsAs (KeepFault p n) (checkSummable ps) := by
  unfold checkSummable
  split
  · exact .ok ()
  · exact .error (.total hps ‹_›)

theorem failsAs_checkAbove (he : e ∈ p.entries) : FailsAs (KeepFault p n) (p.checkAbove e.1) :=
  .ite (fun _ => .ok ()) fun _ => failsAs_checkSummable (.above he)

theorem failsAs_checkBelow (he : e ∈ p.entries) : FailsAs (KeepFault p n) (p.checkBelow e.1) :=
  .ite (fun _ => .ok ()) fun _ => failsAs_checkSummable (.below he)

theorem failsAs_givenAtLeast (he : e ∈ p.entries) (h : 0 < p.above e.1) :
    FailsAs (KeepFault p n) (p.givenAtLeast (e.1 + 1)) := by
  have hlow := (entries_within he).1
  have htarget : max (e.1 + 1) p.low = e.1 + 1 := max_eq_left (by omega)
  unfold givenAtLeast
  rw [htarget]
  exact (failsAs_checkAbove he).bind fun _ _ => .ite (fun _ => .ok _) fun hzero => absurd h hzero

theorem failsAs_givenAtMost (he : e ∈ p.entries) (h : 0 < p.below e.1) :
    FailsAs (KeepFault p n) (p.givenAtMost (e.1 - 1)) := by
  have hhigh := (entries_within he).2
  have htarget : min (e.1 - 1) p.high = e.1 - 1 := min_eq_left (by omega)
  unfold givenAtMost
  rw [htarget]
  exact (failsAs_checkBelow he).bind fun _ _ => .ite (fun _ => .ok _) fun hzero => absurd h hzero

/-- Results are taken for preferred only where they have mass, so they have a distribution. -/
theorem failsAs_preferred? (he : e ∈ p.entries) (mode : KeepMode) :
    FailsAs (KeepFault p n) (p.preferred? e.1 mode) := by
  cases mode with
  | best =>
    exact (failsAs_checkAbove he).bind fun _ _ =>
      .ite (fun hpos => (failsAs_givenAtLeast he hpos).map) fun _ => .ok none
  | worst =>
    exact (failsAs_checkBelow he).bind fun _ _ =>
      .ite (fun hpos => (failsAs_givenAtMost he hpos).map) fun _ => .ok none

theorem failsAs_repeatSum (p : Distribution α) {n : Nat} (hn : 0 < n) :
    FailsAs (fun f => ∃ l, f = .limit l) (p.repeatSum n) := by
  rw [repeatSum, if_neg (by omega)]
  exact .ite (fun _ => .error ⟨_, rfl⟩) fun _ => failsAs_mapError _

theorem KeepFault.of_limit {f : Fault} (h : ∃ l, f = .limit l) : KeepFault p n f := by
  obtain ⟨l, rfl⟩ := h
  exact .limit l

theorem failsAs_keptSums (he : e ∈ p.entries) (k : Nat) (mode : KeepMode) :
    FailsAs (KeepFault p n) (p.keptSums k e.1 mode) := by
  refine (failsAs_preferred? he mode).bind fun o _ => ?_
  cases o with
  | none => exact .ok _
  | some preferred =>
    refine FailsAs.bind (.mapM fun i _ => ?_) fun _ _ => .ok _
    exact ((failsAs_repeatSum preferred i.succ_pos).mono fun _ => .of_limit).bind fun _ _ => .ok _

/-- No power has an exponent beyond the number of results. -/
theorem exists_of_powersOverflow {k : Nat} (hk : k ≤ n) {pTied pRejected pPreferred : α}
    (h : powersOverflow (n - k) k pTied pRejected pPreferred = true) :
    ∃ x m, (x = pTied ∨ x = pRejected ∨ x = pPreferred) ∧ m ≤ n ∧ Mass.powOverflows x m := by
  simp only [powersOverflow, Bool.or_eq_true, Bool.and_eq_true] at h
  rcases h with (h | h) | ⟨h | h, -⟩
  · exact ⟨_, _, .inr (.inr rfl), by omega, h⟩
  · exact ⟨_, _, .inl rfl, hk, h⟩
  · exact ⟨_, _, .inl rfl, Nat.sub_le n k, h⟩
  · exact ⟨_, _, .inr (.inl rfl), Nat.sub_le n k, h⟩

theorem weight_of_tails (he : e ∈ p.entries) (mode : KeepMode) {x : α}
    (h : x = e.2 ∨ x = (p.tails e.1 mode).1 ∨ x = (p.tails e.1 mode).2) : p.Weight x := by
  rcases h with rfl | rfl | rfl
  · exact .own he
  · cases mode with
    | best => exact .below he
    | worst => exact .above he
  · cases mode with
    | best => exact .above he
    | worst => exact .below he

theorem failsAs_addLastKept (he : e ∈ p.entries) {k : Nat} (hk : k ≤ n) (mode : KeepMode) (t : Table α) :
    FailsAs (KeepFault p n) (p.addLastKept n k mode t e.1 e.2) := by
  refine (failsAs_keptSums he k mode).bind fun _ _ => (failsAs_checkBelow he).bind fun _ _ =>
    (failsAs_checkAbove he).bind fun _ _ => ?_
  refine .ite (fun hpow => ?_) fun _ => .ok _
  obtain ⟨x, m, hx, hm, hover⟩ := exists_of_powersOverflow hk hpow
  exact .error (.power (weight_of_tails he mode hx) hm hover)

theorem failsAs_keep (p : Distribution α) {n k : Nat} (hn : 0 < n) (hk : 0 < k) (mode : KeepMode) :
    FailsAs (KeepFault p n) (p.keep n k mode) := by
  rw [keep, if_neg (by omega), if_neg (by omega)]
  refine .ite (fun _ => .error (.limit _)) fun _ => .ite (fun _ => ?_) fun hlt => ?_
  · exact (failsAs_repeatSum p hn).mono fun _ => .of_limit
  · have hle : k ≤ n := by omega
    exact FailsAs.bind (.foldlM (fun t e he => failsAs_addLastKept he hle mode t) _) fun _ _ => .ok _

/-- A mean fails for a result that its numbers do not hold, or for the sum of the ones before it. -/
theorem failsAs_mean (p : Distribution α) : FailsAs (fun f =>
    (∃ e ∈ p.entries, Mass.holds α e.1 = false ∧ f = .range .tooLarge) ∨
      ∃ g : TotalFault, Mass.totalFault? p.heldTerms = some g ∧ f = g.fault) p.mean := by
  unfold mean
  dsimp only
  split
  · exact .error (.inr ⟨_, ‹_›, rfl⟩)
  · rename_i hlen _
    refine .error (.inl ?_)
    by_contra hall
    have hheld : (p.entries.takeWhile fun e => Mass.holds α e.1) = p.entries :=
      List.takeWhile_eq_self_iff.mpr fun e he => by
        by_contra hout
        exact hall ⟨e, he, Bool.eq_false_iff.mpr hout, rfl⟩
    rw [hheld, beq_self_eq_true] at hlen
    cases hlen
  · exact .error (.inr ⟨_, ‹_›, rfl⟩)
  · exact .ok _

end

end Distribution

-- ---------------------------------------------------------------------------
-- Number faults
-- ---------------------------------------------------------------------------

/-- Why the numbers that masses are do not carry the odds of dice: the sides or the masses of a die, a sum or a
power of the masses that keeping some dice of a bunch takes, a result, or the sum that the mean is. -/
inductive NumberFault (α : Type) [Mass α] (d : Dice) : Fault → Prop
  | sides {t : Term} (ht : t ∈ d.terms) (hrerolls : t.bunch.die.rerolls.isEmpty = false)
      (h : Mass.holds α t.bunch.die.sides = false) : NumberFault α d (.range .tooLarge)
  | masses {t : Term} (ht : t ∈ d.terms) {f : ValueFault}
      (h : (t.bunch.die.odds : Except Fault (Odds α)) = .error (.value f)) : NumberFault α d (.value f)
  | total {t : Term} (ht : t ∈ d.terms) (hkeep : t.bunch.keep.isSome) {o : Odds α}
      (ho : t.bunch.die.odds = .ok o) {ps : List α} (hps : o.distribution.Tail ps) {f : TotalFault}
      (h : Mass.totalFault? ps = some f) : NumberFault α d f.fault
  | power {t : Term} (ht : t ∈ d.terms) (hkeep : t.bunch.keep.isSome) {o : Odds α}
      (ho : t.bunch.die.odds = .ok o) {x : α} (hx : o.distribution.Weight x) {n : Nat}
      (hn : n ≤ t.bunch.count) (h : Mass.powOverflows x n) : NumberFault α d (.range .power)
  | result {p : Distribution α} (hp : d.distribution = .ok p) {e : Int × α} (he : e ∈ p.entries)
      (h : Mass.holds α e.1 = false) : NumberFault α d (.range .tooLarge)
  | mean {p : Distribution α} (hp : d.distribution = .ok p) {f : TotalFault}
      (h : Mass.totalFault? p.heldTerms = some f) : NumberFault α d f.fault

def OddsFault (α : Type) [Mass α] (d : Dice) (f : Fault) : Prop := (∃ l, f = .limit l) ∨ NumberFault α d f

section
variable {α : Type} [Mass α] {d : Dice}

/-- A session does not tell of faults of numbers. -/
theorem NumberFault.not_reported {f : Fault} (h : NumberFault α d f) : f.isReported = false := by
  have htotal : ∀ f : TotalFault, f.fault.isReported = false := fun f => by cases f <;> rfl
  cases h with
  | sides | masses | result | power => rfl
  | total | mean => exact htotal _

theorem OddsFault.of_keep {t : Term} (ht : t ∈ d.terms) (hkeep : t.bunch.keep.isSome) {o : Odds α}
    (ho : t.bunch.die.odds = .ok o) {f : Fault} (h : o.distribution.KeepFault t.bunch.count f) :
    OddsFault α d f := by
  cases h with
  | limit l => exact .inl ⟨l, rfl⟩
  | total hps h => exact .inr (.total ht hkeep ho hps h)
  | power hx hm h => exact .inr (.power ht hkeep ho hx hm h)

-- ---------------------------------------------------------------------------
-- Dice
-- ---------------------------------------------------------------------------

theorem Bunch.failsAs_odds {t : Term} (ht : t ∈ d.terms) :
    FailsAs (OddsFault α d) (t.bunch.odds : Except Fault (Odds α)) := by
  have hdie : FailsAs (OddsFault α d) (t.bunch.die.odds : Except Fault (Odds α)) := by
    rcases t.bunch.die.odds_cases (α := α) with ⟨o, ho⟩ | ⟨l, hl⟩ | ⟨f, hf⟩ | ⟨hrerolls, hholds, hf⟩
    · rw [ho]
      exact .ok o
    · rw [hl]
      exact .error (.inl ⟨l, rfl⟩)
    · rw [hf]
      exact .error (.inr (.masses ht hf))
    · rw [hf]
      exact .error (.inr (.sides ht hrerolls hholds))
  refine hdie.bind fun single hsingle => ?_
  cases hkeep : t.bunch.keep with
  | none =>
    exact ((Distribution.failsAs_repeatSum _ t.bunch.count_pos).mono fun _ => .inl).bind fun _ _ => .ok _
  | some keep =>
    have hsome : t.bunch.keep.isSome := by rw [hkeep, Option.isSome_some]
    refine FailsAs.bind ?_ fun _ _ => .ok _
    exact (Distribution.failsAs_keep _ t.bunch.count_pos keep.count_pos keep.mode).mono
      fun _ => .of_keep ht hsome hsingle

/-- Dice have a distribution unless it grows too large or its numbers do not carry it. -/
theorem Dice.failsAs_distribution (d : Dice) :
    FailsAs (OddsFault α d) (d.distribution : Except Fault (Distribution α)) := by
  refine FailsAs.bind (.foldlM (fun sum t ht => ?_) _) fun _ _ => .ok _
  exact (Bunch.failsAs_odds ht).bind fun _ _ => (failsAs_mapError _).mono fun _ => .inl

/-- A mean fails for a result that its numbers do not hold, or for a sum of them. -/
theorem Dice.failsAs_mean {p : Distribution α} (hp : d.distribution = .ok p) :
    FailsAs (NumberFault α d) p.mean := by
  intro f hf
  rcases p.failsAs_mean f hf with ⟨e, he, hheld, rfl⟩ | ⟨g, hg, rfl⟩
  · exact .result hp he hheld
  · exact .mean hp hg

/-- Dice that have a distribution are complete or not. -/
theorem Dice.exists_isComplete {p : Distribution α} (h : d.distribution = .ok p) : ∃ c, d.isComplete α = .ok c := by
  obtain ⟨sum, hsum, -⟩ := bind_ok.mp h
  have hterm : ∀ t ∈ d.terms, ∃ c, t.bunch.isComplete α = .ok c := by
    intro t ht
    obtain ⟨x, y, hxy⟩ := foldlM_ok hsum ht
    obtain ⟨o, ho, -⟩ := bind_ok.mp hxy
    obtain ⟨single, hsingle, -⟩ := bind_ok.mp ho
    exact ⟨single.complete, bind_ok.mpr ⟨single, hsingle, rfl⟩⟩
  exact exists_allM hterm

end

-- ---------------------------------------------------------------------------
-- Fractions
-- ---------------------------------------------------------------------------

theorem Distribution.exists_mean (p : Distribution Rat) : ∃ x, p.mean = .ok x := by
  have hheld : (p.entries.takeWhile fun e => Mass.holds Rat e.1) = p.entries :=
    List.takeWhile_eq_self_iff.mpr fun _ _ => rfl
  refine ⟨Mass.total (p.entries.map fun e => Mass.ofInt e.1 * e.2), ?_⟩
  simp only [mean, hheld, beq_self_eq_true]
  rfl

namespace RuledDie

theorem ofEntries_listedMasses_cases (d : RuledDie) : (∃ p, Distribution.ofEntries (d.listedMasses Rat) = .ok p) ∨
    Distribution.ofEntries (d.listedMasses Rat) = .error (.limit .resultsTooWide) := by
  by_cases hwide : Distribution.TooWide (d.listedMasses Rat)
  · exact .inr (Distribution.ofEntries_of_tooWide hwide)
  · exact .inl (Distribution.exists_ofEntries_of_not_tooWide hwide d.nodup_listedMasses
      (fun e he => (d.pos_listedMasses e he).le) d.sum_listedMasses)

/-- Fractions of a whole are never refused. -/
theorem odds_ne_value (d : RuledDie) (f : ValueFault) :
    (d.odds : Except Fault (Odds Rat)) ≠ .error (.value f) := by
  have hlisted : ∀ complete, (d.odds : Except Fault (Odds Rat)) =
      (Distribution.ofEntries (d.listedMasses Rat)).map (fun p => ⟨p, complete⟩) →
      (d.odds : Except Fault (Odds Rat)) ≠ .error (.value f) := by
    intro complete h
    rw [h]
    rcases d.ofEntries_listedMasses_cases with ⟨p, hp⟩ | hl
    · rw [hp]
      nofun
    · rw [hl]
      nofun
  cases hrerolls : d.rerolls.isEmpty with
  | false => exact hlisted _ (odds_of_chains rfl hrerolls)
  | true =>
    by_cases hsides : d.sides ≤ maxFairSides
    · cases hmaps : d.maps.isEmpty with
      | true =>
        rw [odds_of_unmapped hrerolls hmaps (fair_of_le hsides)]
        nofun
      | false =>
        refine hlisted true ?_
        rw [odds_of_mapped hrerolls hmaps (fair_of_le hsides),
          listedMasses_of_mapped hrerolls hmaps (fair_of_le hsides)]
    · rw [odds_of_tooManySides hrerolls (not_le.mp hsides)]
      nofun

end RuledDie

theorem not_numberFault (d : Dice) (f : Fault) : ¬ NumberFault Rat d f := by
  intro h
  cases h with
  | sides _ _ h => cases h
  | masses _ h => exact RuledDie.odds_ne_value _ _ h
  | result _ _ h => cases h
  | total _ _ _ _ h => cases h
  | power _ _ _ _ _ h => cases h
  | mean _ h => cases h

/-- Over fractions dice have a distribution unless it grows too large. -/
theorem Dice.distribution_cases (d : Dice) : (∃ p : Distribution Rat, d.distribution = .ok p) ∨
    ∃ l, (d.distribution : Except Fault (Distribution Rat)) = .error (.limit l) := by
  cases h : (d.distribution : Except Fault (Distribution Rat)) with
  | ok p => exact .inl ⟨p, rfl⟩
  | error f =>
    obtain ⟨l, rfl⟩ := (d.failsAs_distribution f h).resolve_right (not_numberFault d f)
    exact .inr ⟨l, rfl⟩

end TabletopDice
