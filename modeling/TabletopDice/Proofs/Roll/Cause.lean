import Mathlib.Algebra.BigOperators.Fin
import Mathlib.Algebra.Order.BigOperators.Group.Finset
import TabletopDice.Proofs.Roll.Idle
import TabletopDice.Proofs.Roll.Record

/-!
# Why a die is rolled again

Each roll after the first one is caused by a rule: of those that apply to the
last face and have uses left, the first one. A die is rolled until there is
none. How many rolls that takes is not known before, but every roll uses a rule,
and a rule has only so many uses; so the rolls end, whatever is drawn.
-/

namespace TabletopDice

-- ---------------------------------------------------------------------------
-- The rule that is used
-- ---------------------------------------------------------------------------

section
variable {rules : List RerollRule} {left left' : List Nat} {face : Int} {isFirst : Bool} {effect : Effect}

/-- The rule that is used is the first one that answers the face with uses left. -/
theorem useRule_first (h : useRule rules left face isFirst = some (effect, left')) :
    ∃ i rule uses, rules[i]? = some rule ∧ left[i]? = some (uses + 1) ∧ rule.effect = effect ∧
      rule.answers face isFirst ∧ left' = left.set i uses ∧
      ∀ j < i, ∀ r u, rules[j]? = some r → left[j]? = some (u + 1) → r.answers face isFirst = false := by
  induction rules generalizing left left' with
  | nil => cases left <;> cases h
  | cons rule rules ih =>
    cases left with
    | nil => cases h
    | cons uses left =>
      rw [useRule_cons] at h
      split at h
      · rename_i hrule
        simp only [Option.some.injEq, Prod.mk.injEq, Bool.and_eq_true, decide_eq_true_eq] at h hrule
        obtain ⟨rfl, rfl⟩ := h
        refine ⟨0, rule, uses - 1, rfl, ?_, rfl, hrule.1, rfl, nofun⟩
        rw [Nat.sub_add_cancel hrule.2]
        rfl
      · rename_i hrule
        obtain ⟨⟨e, l⟩, hl, he⟩ := Option.map_eq_some_iff.mp h
        obtain ⟨rfl, rfl⟩ := Prod.mk.inj he
        obtain ⟨i, rule', uses', hi, hi', heffect, hanswers, rfl, hbefore⟩ := ih hl
        refine ⟨i + 1, rule', uses', hi, hi', heffect, hanswers, rfl, fun j hj r u hr hu => ?_⟩
        cases j with
        | zero =>
          obtain rfl := Option.some.inj hr
          obtain rfl := Option.some.inj hu
          simpa using hrule
        | succ j => exact hbefore j (Nat.lt_of_succ_lt_succ hj) r u hr hu

theorem useRule_none (h : useRule rules left face isFirst = none) {j : Nat} {r : RerollRule} {u : Nat}
    (hr : rules[j]? = some r) (hu : left[j]? = some (u + 1)) : r.answers face isFirst = false := by
  induction rules generalizing left j with
  | nil => cases hr
  | cons rule rules ih =>
    cases left with
    | nil => cases hu
    | cons uses left =>
      rw [useRule_cons] at h
      split at h
      · cases h
      · rename_i hrule
        cases j with
        | zero =>
          obtain rfl := Option.some.inj hr
          obtain rfl := Option.some.inj hu
          simpa using hrule
        | succ j => exact ih (Option.map_eq_none_iff.mp h) hr hu

end

-- ---------------------------------------------------------------------------
-- Causes
-- ---------------------------------------------------------------------------

namespace RuledDie

/-- After the rolls with these causes a rule may cause one more: it has uses left, it applies to the
last face, and if it subtracts there has been no roll but the first. -/
def MayCause (d : RuledDie) (causes : List (Fin d.rerolls.length)) (face : Int)
    (i : Fin d.rerolls.length) : Prop :=
  causes.count i < d.rerolls[i].limit ∧ d.rerolls[i].applies face ∧
    (d.rerolls[i].effect = .subtract → causes = [])

/-- The rule causes the next roll: it is the first one that may. -/
def IsCause (d : RuledDie) (causes : List (Fin d.rerolls.length)) (face : Int)
    (i : Fin d.rerolls.length) : Prop :=
  d.MayCause causes face i ∧ ∀ j < i, ¬ d.MayCause causes face j

/-- Every roll after the first one, with its cause, when the draws come from a stream. -/
def Causes (d : RuledDie) (xs : Nat → Int) (causes : List (Fin d.rerolls.length)) : Prop :=
  ∀ j (h : j < causes.length), d.IsCause (causes.take j) (xs j + 1) causes[j]

def record (d : RuledDie) (xs : Nat → Int) (causes : List (Fin d.rerolls.length)) : History :=
  causes.zipIdx.foldl (fun h e => h.add (xs (e.2 + 1) + 1) d.rerolls[e.1].effect) (.ofRoll (xs 0 + 1))

def usesAfter (d : RuledDie) (causes : List (Fin d.rerolls.length)) : List Nat :=
  List.ofFn fun i => d.rerolls[i].limit - causes.count i

variable {d : RuledDie} {causes : List (Fin d.rerolls.length)} {face : Int} {xs : Nat → Int}
  {i : Fin d.rerolls.length}

-- ---------------------------------------------------------------------------
-- What is recorded
-- ---------------------------------------------------------------------------

theorem record_concat (xs : Nat → Int) (causes : List (Fin d.rerolls.length)) (i : Fin d.rerolls.length) :
    d.record xs (causes ++ [i]) =
      (d.record xs causes).add (xs (causes.length + 1) + 1) d.rerolls[i].effect := by
  simp [record, List.zipIdx_append]

theorem rolls_record (xs : Nat → Int) (causes : List (Fin d.rerolls.length)) :
    (d.record xs causes).rolls = (List.range (causes.length + 1)).map fun j => xs j + 1 := by
  induction causes using List.reverseRecOn with
  | nil => rfl
  | append_singleton causes i ih =>
    rw [record_concat, History.rolls_add, ih]
    simp [List.range_succ]

theorem size_record (xs : Nat → Int) (causes : List (Fin d.rerolls.length)) :
    (d.record xs causes).steps.size = causes.length + 1 := by
  have hlen := congrArg List.length (rolls_record xs causes)
  simpa [History.rolls] using hlen

theorem isSome_total_record (xs : Nat → Int) (causes : List (Fin d.rerolls.length)) :
    (d.record xs causes).total.isSome := by
  induction causes using List.reverseRecOn with
  | nil => rfl
  | append_singleton causes i _ =>
    rw [record_concat]
    rfl

theorem rolls_finish (d : RuledDie) (h : History) : (d.finish h).rolls = h.rolls := by
  unfold finish
  split <;> rfl

-- ---------------------------------------------------------------------------
-- Uses left
-- ---------------------------------------------------------------------------

theorem usesAfter_nil (d : RuledDie) : d.usesAfter [] = d.uses :=
  List.ext_getElem (by simp [usesAfter, uses]) fun j _ _ => by simp [usesAfter, uses]

theorem getElem?_usesAfter (causes : List (Fin d.rerolls.length)) (i : Fin d.rerolls.length) :
    (d.usesAfter causes)[(i : Nat)]? = some (d.rerolls[i].limit - causes.count i) := by
  simp [usesAfter]

theorem usesAfter_concat (causes : List (Fin d.rerolls.length)) (i : Fin d.rerolls.length) :
    d.usesAfter (causes ++ [i]) = (d.usesAfter causes).set i (d.rerolls[i].limit - causes.count i - 1) := by
  refine List.ext_getElem (by simp [usesAfter]) fun j hj _ => ?_
  obtain ⟨i, hi⟩ := i
  rw [List.getElem_set]
  simp only [usesAfter, List.getElem_ofFn, List.count_append, List.count_singleton]
  rcases eq_or_ne i j with rfl | hij
  · simp [Nat.sub_sub]
  · simp [hij]

theorem mayCause_iff : d.MayCause causes face i ↔
    (∃ u, (d.usesAfter causes)[(i : Nat)]? = some (u + 1)) ∧ d.rerolls[i].answers face (causes = []) := by
  rw [getElem?_usesAfter]
  simp only [MayCause, RerollRule.answers, Option.some.injEq, Bool.and_eq_true, Bool.or_eq_true, decide_eq_true_eq]
  constructor
  · rintro ⟨hcount, happlies, hsubtract⟩
    exact ⟨⟨d.rerolls[i].limit - causes.count i - 1, by omega⟩, (not_or_of_imp hsubtract), happlies⟩
  · rintro ⟨⟨u, hu⟩, hsubtract, happlies⟩
    exact ⟨by omega, happlies, fun h => hsubtract.resolve_left (not_not.mpr h)⟩

/-- The rule that is used is the cause of the next roll. -/
theorem isCause_of_useRule {effect : Effect} {left' : List Nat}
    (h : useRule d.rerolls (d.usesAfter causes) face (causes = []) = some (effect, left')) :
    ∃ i, d.IsCause causes face i ∧ d.rerolls[i].effect = effect ∧ left' = d.usesAfter (causes ++ [i]) := by
  obtain ⟨i, rule, uses, hrule, huses, rfl, hanswers, rfl, hbefore⟩ := useRule_first h
  obtain ⟨hi, rfl⟩ := List.getElem?_eq_some_iff.mp hrule
  have hleft := (getElem?_usesAfter causes ⟨i, hi⟩).symm.trans huses
  refine ⟨⟨i, hi⟩, ⟨mayCause_iff.mpr ⟨⟨uses, huses⟩, hanswers⟩, fun j hj hmay => ?_⟩, rfl, ?_⟩
  · obtain ⟨⟨u, hu⟩, hanswers⟩ := mayCause_iff.mp hmay
    exact Bool.false_ne_true ((hbefore j hj _ u (List.getElem?_eq_getElem j.isLt) hu).symm.trans hanswers)
  · rw [usesAfter_concat, Option.some.inj hleft]
    rfl

theorem not_mayCause_of_useRule (h : useRule d.rerolls (d.usesAfter causes) face (causes = []) = none)
    (i : Fin d.rerolls.length) : ¬ d.MayCause causes face i := by
  intro hmay
  obtain ⟨⟨u, hu⟩, hanswers⟩ := mayCause_iff.mp hmay
  exact Bool.false_ne_true ((useRule_none h (List.getElem?_eq_getElem i.isLt) hu).symm.trans hanswers)

-- ---------------------------------------------------------------------------
-- Rolls
-- ---------------------------------------------------------------------------

theorem causes_concat_iff :
    d.Causes xs (causes ++ [i]) ↔ d.Causes xs causes ∧ d.IsCause causes (xs causes.length + 1) i := by
  constructor
  · intro h
    refine ⟨fun j hj => ?_, by simpa using h causes.length (by simp)⟩
    have hj' := h j (by simp; omega)
    rwa [List.take_append_of_le_length hj.le, List.getElem_append_left hj] at hj'
  · rintro ⟨h, hi⟩ j hj
    rw [List.length_append, List.length_singleton] at hj
    rcases Nat.lt_succ_iff_lt_or_eq.mp hj with hj | rfl
    · rw [List.take_append_of_le_length hj.le, List.getElem_append_left hj]
      exact h j hj
    · simpa using hi

/-- No rule is used more often than its limit allows. -/
theorem Causes.count_le (h : d.Causes xs causes) (i : Fin d.rerolls.length) :
    causes.count i ≤ d.rerolls[i].limit := by
  induction causes using List.reverseRecOn with
  | nil => exact Nat.zero_le _
  | append_singleton causes j ih =>
    obtain ⟨hcauses, hj⟩ := causes_concat_iff.mp h
    rw [List.count_append, List.count_singleton]
    split
    · rename_i hij
      obtain rfl := beq_iff_eq.mp hij
      exact hj.1.1
    · exact ih hcauses

/-- There are no more rolls after the first one than the rules have uses. -/
theorem Causes.length_le (h : d.Causes xs causes) : causes.length ≤ d.uses.sum := by
  have hcount : ∑ i, causes.count i = causes.length := by
    simpa using Multiset.sum_count_eq_card (s := Finset.univ) (m := Multiset.ofList causes)
  calc causes.length
      = ∑ i, causes.count i := hcount.symm
    _ ≤ ∑ i : Fin d.rerolls.length, d.rerolls[i].limit := Finset.sum_le_sum fun i _ => h.count_le i
    _ = d.uses.sum := by rw [← usesAfter_nil, usesAfter, List.sum_ofFn]; rfl

/-- A roll goes on from where it stands until no rule may cause one more. -/
theorem rollOn_causes (h : d.Causes xs causes) :
    ∃ all, d.rollOn drawNext (d.usesAfter causes).sum (d.usesAfter causes) (xs causes.length + 1)
        (d.record xs causes) (fun k => xs (k + (causes.length + 1))) =
          (d.record xs all, fun k => xs (k + (all.length + 1))) ∧
      d.Causes xs all ∧ ∀ i, ¬ d.MayCause all (xs all.length + 1) i := by
  -- by the uses that are left, of which every roll takes one
  induction hn : (d.usesAfter causes).sum using Nat.strongRecOn generalizing causes with
  | _ n ih =>
    have hfirst : decide ((d.record xs causes).steps.size = 1) = decide (causes = []) := by
      simp [size_record]
    rw [← hn, rollOn_eq, hfirst]
    cases hrule : useRule d.rerolls (d.usesAfter causes) (xs causes.length + 1) (causes = []) with
    | none => exact ⟨causes, rfl, h, not_mayCause_of_useRule hrule⟩
    | some next =>
      obtain ⟨effect, left⟩ := next
      have hsum := useRule_sum hrule
      obtain ⟨i, hi, rfl, rfl⟩ := isCause_of_useRule hrule
      obtain ⟨all, hall, hrest⟩ := ih _ (by omega) (causes_concat_iff.mpr ⟨h, hi⟩) rfl
      refine ⟨all, ?_, hrest⟩
      rw [← hall, record_concat, List.length_append, List.length_singleton]
      show d.rollOn drawNext _ _ (xs (0 + (causes.length + 1)) + 1)
        ((d.record xs causes).add (xs (0 + (causes.length + 1)) + 1) _)
        (fun k => xs (k + 1 + (causes.length + 1))) = _
      have hlater : (fun k => xs (k + 1 + (causes.length + 1))) = fun k => xs (k + (causes.length + 1 + 1)) :=
        funext fun k => congrArg xs (by omega)
      rw [Nat.zero_add, hlater]

/-- Whatever numbers the stream holds, a roll ends and has a total: it draws one number for its first
face and one for each cause, which are no more than the rules have uses, and records the faces in the
order that they were drawn in, each with the effect of the rule that caused it. A cause is the first rule
that may cause a roll then. No rule is used more often than its limit allows, and in the end no rule may
cause a roll. -/
theorem roll_caused (d : RuledDie) (xs : Nat → Int) :
    ∃ causes : List (Fin d.rerolls.length),
      d.roll drawNext xs = (d.finish (d.record xs causes), fun k => xs (k + (causes.length + 1))) ∧
      causes.length ≤ (d.rerolls.map (·.limit)).sum ∧
      (d.record xs causes).total.isSome ∧
      (d.rollFrom xs).rolls = (List.range (causes.length + 1)).map (fun j => xs j + 1) ∧
      (∀ j (h : j < causes.length), d.IsCause (causes.take j) (xs j + 1) causes[j]) ∧
      (∀ i : Fin d.rerolls.length, causes.count i ≤ d.rerolls[i].limit) ∧
      ∀ i, ¬ d.MayCause causes (xs causes.length + 1) i := by
  have hnone : d.Causes xs [] := fun j hj => absurd hj (Nat.not_lt_zero j)
  obtain ⟨causes, hon, hcauses, hend⟩ := rollOn_causes hnone
  rw [usesAfter_nil, List.sum_eq_foldr] at hon
  have hroll : d.roll drawNext xs = (d.finish (d.record xs causes), fun k => xs (k + (causes.length + 1))) :=
    congrArg (fun e : History × (Nat → Int) => (d.finish e.1, e.2)) hon
  refine ⟨causes, hroll, hcauses.length_le, isSome_total_record xs causes, ?_, hcauses, hcauses.count_le, hend⟩
  rw [rollFrom, hroll, rolls_finish, rolls_record]

end RuledDie

end TabletopDice
