import TabletopDice.Proofs.Odds.Bounds
import TabletopDice.Proofs.Odds.Reach

/-!
# Rolls beyond the formula

Where every face has one rule at most, the formula for the highest total fails
as soon as some face is kept that is higher than every trigger of some adding
rule. Such a face is rolled first. The next roll brings up the highest trigger
of the adding rule, which the kept face outdoes, and from then on every use of
every adding rule adds its highest trigger. So the bounds of a die whose odds
are cut are no bounds of its rolls then, unless a chain that is followed happens
to end beyond the formula, too, or maps hide it.
-/

namespace TabletopDice.RuledDie

variable {d : RuledDie}

def HasUse (d : RuledDie) (left : List Nat) (rule : RerollRule) : Prop :=
  ∃ uses, (rule, uses + 1) ∈ d.rerolls.zip left

/-- No face is answered by two rules. -/
def Separate (d : RuledDie) : Prop :=
  ∀ face ∈ d.faces, ∀ rule ∈ d.rerolls, ∀ rule' ∈ d.rerolls,
    rule.applies face → rule'.applies face → rule' = rule

-- ---------------------------------------------------------------------------
-- Uses
-- ---------------------------------------------------------------------------

section
variable {left left' : List Nat} {rule : RerollRule} {face : Int} {first : Bool} {effect : Effect}

theorem HasUse.mem (h : d.HasUse left rule) : rule ∈ d.rerolls := by
  obtain ⟨uses, h⟩ := h
  exact (List.of_mem_zip h).1

theorem hasUse_uses (h : rule ∈ d.rerolls) : d.HasUse d.uses rule := by
  refine ⟨rule.limit - 1, ?_⟩
  rw [Nat.sub_add_cancel rule.limit_pos, uses, ← List.map_prod_left_eq_zip]
  exact List.mem_map_of_mem h

theorem hasUse_of_useRule (h : useRule d.rerolls left face first = some (effect, left')) :
    ∃ rule, d.HasUse left rule ∧ rule.effect = effect ∧ rule.answers face first := by
  obtain ⟨before, rule, after, used, uses, unused, hrules, rfl, -, hlen, heffect, hanswers⟩ :=
    useRule_some h
  refine ⟨rule, ⟨uses, ?_⟩, heffect, hanswers⟩
  rw [hrules, List.zip_append hlen.symm, List.zip_cons_cons]
  exact List.mem_append_right _ List.mem_cons_self

theorem useRule_isSome {rules : List RerollRule} {uses : Nat}
    (h : (rule, uses + 1) ∈ rules.zip left) (hanswers : rule.answers face first) :
    (useRule rules left face first).isSome := by
  induction rules generalizing left with
  | nil => cases h
  | cons rule' rules ih =>
    cases left with
    | nil => cases h
    | cons uses' left =>
      unfold useRule
      split
      · rfl
      · rename_i hrule
        rw [List.zip_cons_cons, List.mem_cons] at h
        rcases h with h | h
        · obtain ⟨rfl, rfl⟩ := Prod.mk.inj h
          exact absurd (by simp [hanswers]) hrule
        · rw [Option.isSome_map]
          exact ih h

theorem mem_zip_split {before after : List RerollRule} {used unused : List Nat} {uses : Nat}
    (hlen : used.length = before.length) (e : RerollRule × Nat) :
    e ∈ (before ++ rule :: after).zip (used ++ uses :: unused) ↔
      e ∈ before.zip used ∨ e = (rule, uses) ∨ e ∈ after.zip unused := by
  rw [List.zip_append hlen.symm, List.zip_cons_cons, List.mem_append, List.mem_cons]

theorem HasUse.keep (h : d.HasUse left rule)
    (hrule : useRule d.rerolls left face first = some (effect, left')) (hne : rule.effect ≠ effect) :
    d.HasUse left' rule := by
  obtain ⟨uses, h⟩ := h
  obtain ⟨before, rule', after, used, uses', unused, hrules, rfl, rfl, hlen, rfl, -⟩ :=
    useRule_some hrule
  refine ⟨uses, ?_⟩
  rw [hrules, mem_zip_split hlen] at h ⊢
  rcases h with h | h | h
  · exact .inl h
  · exact absurd (congrArg (fun e => e.1.effect) h) hne
  · exact .inr (.inr h)

theorem HasUse.of_useRule (h : d.HasUse left' rule)
    (hrule : useRule d.rerolls left face first = some (effect, left')) : d.HasUse left rule := by
  obtain ⟨uses, h⟩ := h
  obtain ⟨before, rule', after, used, uses', unused, hrules, rfl, rfl, hlen, rfl, -⟩ :=
    useRule_some hrule
  rw [hrules, mem_zip_split hlen] at h
  rcases h with h | h | h
  · exact ⟨uses, by rw [hrules, mem_zip_split hlen]; exact .inl h⟩
  · obtain ⟨rfl, rfl⟩ := Prod.mk.inj h
    exact ⟨uses + 1, by rw [hrules, mem_zip_split hlen]; exact .inr (.inl rfl)⟩
  · exact ⟨uses, by rw [hrules, mem_zip_split hlen]; exact .inr (.inr h)⟩

theorem HasUse.used (h : d.HasUse left rule) (hd : d.Separate) (hface : face ∈ d.faces)
    (happlies : rule.applies face) (hne : rule.effect ≠ .subtract) (first : Bool) :
    ∃ left', useRule d.rerolls left face first = some (rule.effect, left') ∧
      d.toAdd left' + d.added rule = d.toAdd left := by
  obtain ⟨uses, hmem⟩ := h
  have hanswers : rule.answers face first := by simp [RerollRule.answers, hne, happlies]
  obtain ⟨⟨effect, left'⟩, hrule⟩ := Option.isSome_iff_exists.mp (useRule_isSome hmem hanswers)
  obtain ⟨rule', hmem', rfl, hanswers', hadd⟩ := toAdd_useRule hrule
  obtain rfl := hd face hface rule (HasUse.mem ⟨uses, hmem⟩) rule' hmem' happlies
    (Bool.and_eq_true_iff.mp hanswers').2
  exact ⟨left', hrule, hadd⟩

theorem added_pos (h : 0 < d.added rule) :
    rule.effect = .add ∧ d.added rule ∈ d.faces ∧ rule.applies (d.added rule) := by
  unfold added at h ⊢
  split at h
  · rename_i heffect hends
    simp only [heffect]
    exact ⟨trivial, List.mem_filter.mp (triggerBounds?_mem hends).2⟩
  · exact absurd h (lt_irrefl 0)

theorem toAdd_eq_zero (h : ∀ rule, d.HasUse left rule → d.added rule ≤ 0) : d.toAdd left = 0 := by
  refine List.sum_eq_zero fun x hx => ?_
  obtain ⟨⟨rule, uses⟩, he, rfl⟩ := List.mem_map.mp hx
  cases uses with
  | zero => exact mul_zero _
  | succ uses =>
    have hzero : d.added rule = 0 := le_antisymm (h rule ⟨uses, he⟩) (d.added_nonneg rule)
    show d.added rule * _ = 0
    rw [hzero, zero_mul]

end

-- ---------------------------------------------------------------------------
-- Highest totals
-- ---------------------------------------------------------------------------

theorem after_of_useRule {b : Branch} {face : Int} {effect : Effect} {left : List Nat}
    (h : useRule d.rerolls b.left face b.running.total.isNone = some (effect, left)) :
    b.after d face = some ⟨b.running.join face b.effect, left, effect⟩ := by
  rw [Branch.after, h]
  rfl

section
variable {total : Int}

theorem exists_ends_of_kept (htop : ∀ rule ∈ d.rerolls, rule.applies d.sides → rule.effect = .useBest)
    {b : Branch} (hrunning : b.running = ⟨some total, false⟩) (heffect : b.effect = .useBest) :
    ∃ t, total ≤ t ∧ b.Ends d t := by
  induction b using Branch.after_induction (d := d) generalizing total with
  | _ b ih =>
    have hjoin : b.running.join d.sides b.effect = ⟨some (max total d.sides), false⟩ := by
      rw [hrunning, heffect]
      rfl
    cases ha : b.after d d.sides with
    | none =>
      have htotal : b.total d.sides = max total d.sides := Option.some.inj (congrArg (·.total) hjoin)
      exact ⟨_, htotal ▸ le_max_left total _, .done d.sides_mem_faces ha⟩
    | some b' =>
      obtain ⟨⟨effect, left⟩, hrule, hb'⟩ := Option.map_eq_some_iff.mp ha
      obtain ⟨rule, huse, rfl, hanswers⟩ := hasUse_of_useRule hrule
      have happlies : rule.applies d.sides := (Bool.and_eq_true_iff.mp hanswers).2
      subst hb'
      obtain ⟨t, ht, hends⟩ := ih d.sides _ ha hjoin (htop rule huse.mem happlies)
      exact ⟨t, (le_max_left _ _).trans ht, .more d.sides_mem_faces ha hends⟩

/-- Rules add their highest triggers until none has a use left; the top face is the last. -/
theorem exists_ends_of_adding (hd : d.Separate) {b : Branch}
    (hrunning : b.running = ⟨some total, false⟩) (heffect : b.effect = .add)
    (hspent : ∀ rule, d.HasUse b.left rule → rule.applies d.sides →
      rule.effect ≠ .replace ∧ rule.effect ≠ .useWorst) :
    ∃ t, total + d.toAdd b.left + d.sides ≤ t ∧ b.Ends d t := by
  induction b using Branch.after_induction (d := d) generalizing total with
  | _ b ih =>
    have hjoin : ∀ face, b.running.join face b.effect = ⟨some (total + face), false⟩ := fun face => by
      rw [hrunning, heffect]
      rfl
    by_cases hadd : ∃ rule, d.HasUse b.left rule ∧ 0 < d.added rule
    · obtain ⟨rule, huse, hpos⟩ := hadd
      obtain ⟨hruleEffect, hface, happlies⟩ := added_pos hpos
      obtain ⟨left, hrule, hleft⟩ :=
        huse.used hd hface happlies (by simp [hruleEffect]) b.running.total.isNone
      have ha := after_of_useRule hrule
      obtain ⟨t, ht, hends⟩ := ih _ _ ha (hjoin _) hruleEffect
        fun rule' huse' => hspent rule' (huse'.of_useRule hrule)
      refine ⟨t, ?_, .more hface ha hends⟩
      calc total + d.toAdd b.left + d.sides
          = total + d.added rule + d.toAdd left + d.sides := by rw [← hleft]; ring
        _ ≤ t := ht
    · push Not at hadd
      have hleft : d.toAdd b.left = 0 := toAdd_eq_zero hadd
      cases ha : b.after d d.sides with
      | none =>
        have htotal : b.total d.sides = total + d.sides :=
          Option.some.inj (congrArg (·.total) (hjoin d.sides))
        exact ⟨_, by omega, .done d.sides_mem_faces ha⟩
      | some b' =>
        obtain ⟨⟨effect, left⟩, hrule, hb'⟩ := Option.map_eq_some_iff.mp ha
        obtain ⟨rule, huse, rfl, hanswers⟩ := hasUse_of_useRule hrule
        have happlies : rule.applies d.sides := (Bool.and_eq_true_iff.mp hanswers).2
        -- An adding rule would still have something to add, and no roll is the first one here.
        have hruleEffect : rule.effect = .useBest := by
          cases heff : rule.effect with
          | basic => exact absurd heff rule.not_basic
          | add =>
            obtain ⟨ends, -, hadded, -, hge⟩ :=
              added_of_applies huse.mem heff d.sides_mem_faces happlies
            have := hadd rule huse
            have := d.sides_pos
            omega
          | subtract => simp [RerollRule.answers, heff, hrunning] at hanswers
          | replace => exact absurd heff (hspent rule huse happlies).1
          | useWorst => exact absurd heff (hspent rule huse happlies).2
          | useBest => rfl
        have htop : ∀ rule' ∈ d.rerolls, rule'.applies d.sides → rule'.effect = .useBest :=
          fun rule' hmem happlies' => by
            rw [hd d.sides d.sides_mem_faces rule huse.mem rule' hmem happlies happlies', hruleEffect]
        subst hb'
        obtain ⟨t, ht, hends⟩ := exists_ends_of_kept htop
          (b := ⟨b.running.join d.sides b.effect, left, rule.effect⟩) (hjoin d.sides) hruleEffect
        exact ⟨t, by omega, .more d.sides_mem_faces ha hends⟩

/-- A face is kept while an adding rule is used, and every use after this one adds its most. -/
theorem exists_ends_above (hd : d.Separate) {best adding : RerollRule} {x : Int}
    (heffect : best.effect = .useBest) (hface : x ∈ d.faces) (happlies : best.applies x)
    (hpos : 0 < d.added adding) (hlt : d.added adding < x) {b : Branch}
    (hjoin : ∀ face ∈ d.faces, b.running.join face b.effect = ⟨some face, false⟩)
    (hbest : d.HasUse b.left best) (hadding : d.HasUse b.left adding) :
    ∃ t, d.toAdd b.left + d.sides + (x - d.added adding) ≤ t ∧ b.Ends d t := by
  obtain ⟨haddEffect, haddFace, haddApplies⟩ := added_pos hpos
  induction b using Branch.after_induction (d := d) with
  | _ b ih =>
    by_cases hspent : ∀ rule, d.HasUse b.left rule → rule.applies d.sides →
        rule.effect ≠ .replace ∧ rule.effect ≠ .useWorst
    -- Nothing undoes the kept face: it outdoes the next roll, and every use that is left adds its most.
    · obtain ⟨left, hrule, hleft⟩ :=
        hbest.used hd hface happlies (by simp [heffect]) b.running.total.isNone
      have hkept := after_of_useRule hrule
      rw [hjoin x hface] at hkept
      have hadding := hadding.keep hrule (by simp [heffect, haddEffect])
      obtain ⟨left', hrule', hleft'⟩ :=
        hadding.used hd haddFace haddApplies (by simp [haddEffect]) false
      have hoverlaid := after_of_useRule (b := ⟨⟨some x, false⟩, left, best.effect⟩) hrule'
      have hmax : max x (d.added adding) = x := max_eq_left hlt.le
      have hrunning : (⟨some x, false⟩ : Running).join (d.added adding) best.effect =
          ⟨some x, false⟩ := by
        rw [heffect]
        show (⟨some (max x (d.added adding)), false⟩ : Running) = _
        rw [hmax]
      obtain ⟨t, ht, hends⟩ := exists_ends_of_adding hd
        (b := ⟨_, left', adding.effect⟩) hrunning haddEffect
        fun rule huse => hspent rule ((huse.of_useRule hrule').of_useRule hrule)
      have hzero : d.added best = 0 := by rw [added, heffect]
      refine ⟨t, ?_, .more hface hkept (.more haddFace hoverlaid hends)⟩
      calc d.toAdd b.left + d.sides + (x - d.added adding)
          = x + d.toAdd left' + d.sides := by rw [← hleft, ← hleft', hzero]; ring
        _ ≤ t := ht
    · -- The top face is rolled until the rule that would undo the last roll has no use left.
      push Not at hspent
      obtain ⟨rule, huse, htop, hundo⟩ := hspent
      have hundo : rule.effect = .replace ∨ rule.effect = .useWorst := by
        by_cases hreplace : rule.effect = .replace
        · exact .inl hreplace
        · exact .inr (hundo hreplace)
      obtain ⟨left, hrule, hleft⟩ := huse.used hd d.sides_mem_faces htop
        (by rcases hundo with h | h <;> simp [h]) b.running.total.isNone
      have hzero : d.added rule = 0 := by rcases hundo with h | h <;> rw [added, h]
      have ha := after_of_useRule hrule
      rw [hjoin d.sides d.sides_mem_faces] at ha
      have hjoin' : ∀ face ∈ d.faces,
          (⟨some (d.sides : Int), false⟩ : Running).join face rule.effect = ⟨some face, false⟩ := by
        intro face hface
        rcases hundo with h | h <;> rw [h]
        · rfl
        · show (⟨some (min (d.sides : Int) face), false⟩ : Running) = _
          rw [min_eq_right (Die.mem_faces.mp hface).2]
      obtain ⟨t, ht, hends⟩ := ih _ _ ha hjoin'
        (hbest.keep hrule (by rcases hundo with h | h <;> simp [h, heffect]))
        (hadding.keep hrule (by rcases hundo with h | h <;> simp [h, haddEffect]))
      refine ⟨t, ?_, .more d.sides_mem_faces ha hends⟩
      rw [← hleft, hzero, add_zero]
      exact ht

end

/-- A face that is kept, higher than every trigger of some adding rule, leads to a total beyond
the formula, by as much as it is higher. -/
theorem exists_ending_above (hd : d.Separate) {ends : Int × Int} (hends : ends ∈ d.adding) {x : Int}
    (hx : x ∈ d.triggered .useBest) (hlt : ends.2 < x) :
    ∃ t ∈ d.endings, d.highTotal + (x - ends.2) ≤ t := by
  obtain ⟨adding, hadding, hbounds⟩ := List.mem_filterMap.mp hends
  obtain ⟨hface, hbest⟩ := List.mem_filter.mp hx
  obtain ⟨best, hbest, h⟩ := List.any_eq_true.mp hbest
  obtain ⟨heffect, happlies⟩ := Bool.and_eq_true_iff.mp h
  split at hbounds
  · rename_i haddEffect
    have hadded : d.added adding = ends.2 := by rw [added, haddEffect, hbounds]
    have hpos := Die.mem_faces.mp (List.mem_filter.mp (triggerBounds?_mem hbounds).2).1
    rw [← hadded] at hlt hpos ⊢
    obtain ⟨t, ht, hends⟩ := exists_ends_above hd (of_decide_eq_true heffect) hface happlies
      (by omega) hlt (b := Branch.start d) (fun _ _ => rfl) (hasUse_uses hbest) (hasUse_uses hadding)
    refine ⟨t, Branch.mem_settle_drawAny.mpr hends, ?_⟩
    rw [highTotal, add_comm (d.sides : Int)]
    exact ht
  · cases hbounds

/-- Some stream leads to a roll beyond the formula. -/
theorem exists_roll_above (hd : d.Separate) {ends : Int × Int} (hends : ends ∈ d.adding) {x : Int}
    (hx : x ∈ d.triggered .useBest) (hlt : ends.2 < x) :
    ∃ xs, InRange d.sides xs ∧ ∃ t, d.highTotal + (x - ends.2) ≤ t ∧ (d.rollFrom xs).value = d.valueOf t := by
  obtain ⟨t, ht, hle⟩ := exists_ending_above hd hends hx hlt
  by_contra! hall
  exact (d.forall_rollFrom_iff (· ≠ d.valueOf t)).mp (fun xs hxs => hall xs hxs t hle) t ht rfl

/-- No roll is replaced or overruled by a lower one where a rule subtracts. -/
def Steady (d : RuledDie) : Prop :=
  d.leastSubtraction?.isSome → d.triggered .useWorst = [] ∧ d.triggered .replace = []

/-- The formula covers rules that are steady if no kept face outdoes a use of an adding rule. -/
theorem covered_of_best (hsteady : d.Steady)
    (h : ∀ ends ∈ d.adding, ∀ x ∈ d.triggered .useBest, x ≤ ends.2) : d.Covered where
  best := h
  worst least hleast ends _ x hx := by
    rw [(hsteady (Option.isSome_of_eq_some hleast)).1] at hx
    cases hx
  fresh least hleast hne := by
    obtain ⟨hworst, hreplace⟩ := hsteady (Option.isSome_of_eq_some hleast)
    rcases hne with hne | hne
    · exact absurd hworst hne
    · exact absurd hreplace hne

-- ---------------------------------------------------------------------------
-- The bounds of a die
-- ---------------------------------------------------------------------------

/-- Totals beyond the formula have values beyond the highest result. -/
def Exposes (d : RuledDie) (high : Int) : Prop := ∀ t, d.highTotal < t → high < d.valueOf t

/-- Totals beyond the formula, on either side, have values within the bounds. -/
def Hides (d : RuledDie) (low high : Int) : Prop :=
  ∀ t, t < d.lowTotal ∨ d.highTotal < t → low ≤ d.valueOf t ∧ d.valueOf t ≤ high

/-- The odds are cut, no face is answered by two rules, and the rules are steady. -/
structure Plain (α : Type) [Mass α] (d : RuledDie) : Prop where
  cut : (Chains.ofDie d : Chains α).complete = false
  separate : d.Separate
  steady : d.Steady

section
variable {α : Type} [Mass α] {low high : Int}

/-- Without maps a total is its own value, and no result is beyond the formula unless a chain that is
followed ends there. -/
theorem exposes_of_isEmpty (hmaps : d.maps.isEmpty) (hcut : (Chains.ofDie d : Chains α).complete = false)
    (hchains : ∀ t ∈ (Chains.ofDie d : Chains α).totals.keys, t ≤ d.highTotal)
    (h : d.bounds α = .ok (low, high)) : d.Exposes high := by
  have hhigh : high ≤ d.highTotal := by
    cases hrerolls : d.rerolls.isEmpty with
    | true =>
      simp only [bounds, hrerolls, hmaps, if_true, pure_ok, Prod.mk.injEq] at h
      obtain ⟨-, rfl⟩ := h
      exact le_add_of_nonneg_right (d.toAdd_nonneg d.uses)
    | false =>
      obtain ⟨o, ho, -, hbounds⟩ := bounds_ok_of_rerolls hrerolls h
      obtain ⟨hcomplete, hentries⟩ := odds_ok_of_rerolls hrerolls ho
      obtain ⟨-, rfl⟩ := hbounds (hcomplete.trans hcut)
      rw [chainBounds_eq, if_pos hmaps]
      refine max_le (Distribution.ofEntries_high_le hentries fun e he => hchains e.1 ?_) le_rfl
      rw [listedMasses, if_pos hmaps] at he
      rw [← Pool.keys_entries]
      exact List.mem_map_of_mem he
  intro t ht
  rw [valueOf_of_isEmpty hmaps]
  exact hhigh.trans_lt ht

/-- What is beyond the formula does no harm where its values are not. -/
theorem Hides.rollsWithin (hd : d.Hides low high) (hcut : (Chains.ofDie d : Chains α).complete = false)
    (h : d.bounds α = .ok (low, high)) : d.RollsWithin low high := by
  refine rollsWithin_iff.mpr fun t ht => ?_
  by_cases hwithin : d.lowTotal ≤ t ∧ t ≤ d.highTotal
  · exact valueOf_within_bounds hcut h ht hwithin.1 hwithin.2
  · exact hd t (by omega)

theorem Plain.rollsWithin_iff (hd : d.Plain α) (hexposes : d.Exposes high) (h : d.bounds α = .ok (low, high)) :
    d.RollsWithin low high ↔ d.Covered := by
  constructor
  · intro hall
    refine covered_of_best hd.steady fun ends hends x hx => ?_
    by_contra! hlt
    obtain ⟨xs, hxs, t, hle, hvalue⟩ := exists_roll_above hd.separate hends hx hlt
    have habove := hexposes t (by omega)
    rw [← hvalue] at habove
    exact absurd habove (not_lt.mpr (hall xs hxs).2)
  · intro hcovered
    exact hcovered.rollsWithin hd.cut h

/-- The bounds of a die hold for all rolls if they hold for the totals that rolls end at. That is so where the
odds are exact, and where they are cut and the formula covers the rules or maps hide what is beyond it. For a
plain die whose maps show this, or one without maps, they hold only where the formula covers the rules. -/
theorem roll_within_bounds_iff (h : d.bounds α = .ok (low, high)) :
    (d.RollsWithin low high ↔ ∀ t ∈ d.endings, low ≤ d.valueOf t ∧ d.valueOf t ≤ high) ∧
      (d.HasExactOdds α → d.RollsWithin low high) ∧
      ((Chains.ofDie d : Chains α).complete = false → d.Covered ∨ d.Hides low high → d.RollsWithin low high) ∧
      (d.Plain α → d.Exposes high → (d.RollsWithin low high ↔ d.Covered)) ∧
      (d.Plain α → d.maps.isEmpty → (∀ t ∈ (Chains.ofDie d : Chains α).totals.keys, t ≤ d.highTotal) →
        (d.RollsWithin low high ↔ d.Covered)) := by
  refine ⟨rollsWithin_iff, fun hd => hd.rollsWithin h, fun hcut hd => ?_, fun hd hexposes => ?_,
    fun hd hmaps hchains => ?_⟩
  · rcases hd with hd | hd
    · exact hd.rollsWithin hcut h
    · exact hd.rollsWithin hcut h
  · exact hd.rollsWithin_iff hexposes h
  · exact hd.rollsWithin_iff (exposes_of_isEmpty hmaps hd.cut hchains h) h

end

theorem bounds_coin : coin.bounds Rat = .ok (1, 4) := by
  have hends : ((Distribution.ofCells 1 [1 / 2, 0, 1 / 4, (1 / 4 : Rat)]).low,
      (Distribution.ofCells 1 [1 / 2, 0, 1 / 4, (1 / 4 : Rat)]).high) = (1, 4) := by decide +kernel
  show (coin.odds >>= _) = _
  rw [odds_coin]
  exact congrArg Except.ok hends

/-- A coin whose second face is kept once, while the first is rolled again and added. -/
def keptCoin : RuledDie :=
  { sides := 2, sides_pos := Nat.two_pos
    rerolls := [⟨.compares .eq 2, .useBest, 1, by decide, Nat.one_pos, by decide⟩,
      ⟨.compares .eq 1, .add, 40, add_ne_basic, by decide, by decide⟩] }

theorem separate_keptCoin : keptCoin.Separate := by
  unfold Separate
  decide

theorem highTotal_keptCoin : keptCoin.highTotal = 42 := by decide

theorem totals_keptCoin : ∀ t ∈ (Chains.ofDie keptCoin : Chains Rat).totals.keys, t ≤ keptCoin.highTotal := by
  intro t ht
  rw [highTotal_keptCoin]
  exact (le_abs_self t).trans ((Chains.abs_totals_ofDie_le ht).trans (by decide))

theorem plain_keptCoin : keptCoin.Plain Rat where
  cut := by
    have hadds : (1, 1) ∈ keptCoin.adding := by decide
    have hkeeps : 2 ∈ keptCoin.triggered .useBest := by decide
    obtain ⟨t, ht, hle⟩ := exists_ending_above separate_keptCoin hadds hkeeps (by decide)
    rw [highTotal_keptCoin] at hle
    exact Chains.cut_of_endings ht (lt_of_lt_of_le (by decide) hle)
  separate := separate_keptCoin
  steady := fun hsub => absurd hsub (by decide)

theorem not_covered_keptCoin : ¬ keptCoin.Covered := fun hd =>
  absurd (hd.best (1, 1) (by decide) 2 (by decide)) (by decide)

theorem roll_within_bounds_coins :
    coin.RollsWithin 1 4 ∧ ∃ low high, keptCoin.bounds Rat = .ok (low, high) ∧
      ¬ keptCoin.RollsWithin low high := by
  have hexact : coin.HasExactOdds Rat := hasExactOdds_of_complete (by rw [ofDie_coin]; rfl)
  obtain ⟨low, high, h⟩ := exists_bounds (d := keptCoin) rfl (by decide)
  refine ⟨(roll_within_bounds_iff bounds_coin).2.1 hexact, low, high, h, fun hall => ?_⟩
  have hiff := (roll_within_bounds_iff h).2.2.2.2 plain_keptCoin rfl totals_keptCoin
  exact not_covered_keptCoin (hiff.mp hall)

end TabletopDice.RuledDie
