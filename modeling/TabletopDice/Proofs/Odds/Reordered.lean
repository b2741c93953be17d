import TabletopDice.Proofs.Odds.Alike
import TabletopDice.Proofs.Odds.Excess

/-!
# Rules in another order

The first rule that answers a face is the one that is used, and the first that
holds of a total maps it. Where no face is answered by two rules and no total is
mapped by two, the order of the rules is of no account: the same draws make the
same roll, and the odds and the bounds are the same.
-/

namespace TabletopDice

-- ---------------------------------------------------------------------------
-- Lists in another order
-- ---------------------------------------------------------------------------

/-- The first that something is found for is the same if it is found for one at most. -/
theorem findSome?_perm {β γ : Type} {f : β → Option γ} {bs bs' : List β} (h : bs.Perm bs')
    (hf : ∀ b ∈ bs, ∀ b' ∈ bs, (f b).isSome → (f b').isSome → b' = b) :
    bs'.findSome? f = bs.findSome? f := by
  cases hfound : bs.findSome? f with
  | none =>
    rw [List.findSome?_eq_none_iff] at hfound ⊢
    exact fun b hb => hfound b (h.mem_iff.mpr hb)
  | some c =>
    obtain ⟨b, hb, hbc⟩ := List.exists_of_findSome?_eq_some hfound
    obtain ⟨c', hfound'⟩ : ∃ c', bs'.findSome? f = some c' := by
      rw [← Option.isSome_iff_exists, List.findSome?_isSome_iff]
      exact ⟨b, h.mem_iff.mp hb, by rw [hbc]; rfl⟩
    obtain ⟨b', hb', hbc'⟩ := List.exists_of_findSome?_eq_some hfound'
    obtain rfl := hf b hb b' (h.mem_iff.mpr hb') (by rw [hbc]; rfl) (by rw [hbc']; rfl)
    rw [hfound', ← hbc', hbc]

theorem Distribution.bounds_perm {first first' : Int} {more more' : List Int}
    (h : (first :: more).Perm (first' :: more')) : bounds first' more' = bounds first more := by
  have hmem := bounds_mem first more
  have hmem' := bounds_mem first' more'
  have hle := bounds_le first' more' (h.mem_iff.mp hmem.1)
  have hge := bounds_le first' more' (h.mem_iff.mp hmem.2)
  have hle' := bounds_le first more (h.mem_iff.mpr hmem'.1)
  have hge' := bounds_le first more (h.mem_iff.mpr hmem'.2)
  exact Prod.ext (le_antisymm hle.1 hle'.1) (le_antisymm hge'.2 hge.2)

-- ---------------------------------------------------------------------------
-- Uses in another order
-- ---------------------------------------------------------------------------

def exchangeFirst : List Nat → List Nat
  | x :: y :: left => y :: x :: left
  | left => left

theorem exchangeFirst_exchangeFirst (left : List Nat) : exchangeFirst (exchangeFirst left) = left := by
  match left with
  | [] => rfl
  | [_] => rfl
  | _ :: _ :: _ => rfl

/-- Other places for the uses of all rules but the first. -/
def besideFirst (place : List Nat → List Nat) : List Nat → List Nat
  | [] => []
  | uses :: left => uses :: place left

/-- Rules in another order, used alike by some faces once their uses are in that order, too. -/
structure UsesPlaced (faces : List Int) (rules rules' : List RerollRule) (place : List Nat → List Nat) :
    Prop where
  injective : Function.Injective place
  length : ∀ left, (place left).length = left.length
  uses : rules'.map (·.limit) = place (rules.map (·.limit))
  use : ∀ left, left.length = rules.length → ∀ face ∈ faces, ∀ isFirst,
    useRule rules' (place left) face isFirst =
      (useRule rules left face isFirst).map (Prod.map id place)

namespace UsesPlaced

variable {faces : List Int} {rules rules' rules'' : List RerollRule} {place place' : List Nat → List Nat}

theorem refl (faces : List Int) (rules : List RerollRule) : UsesPlaced faces rules rules id where
  injective := Function.injective_id
  length _ := rfl
  uses := rfl
  use left _ face _ isFirst := by simp

theorem cons (h : UsesPlaced faces rules rules' place) (rule : RerollRule) :
    UsesPlaced faces (rule :: rules) (rule :: rules') (besideFirst place) where
  injective left left' heq := by
    cases left <;> cases left' <;> simp_all [besideFirst, h.injective.eq_iff]
  length left := by
    cases left with
    | nil => rfl
    | cons uses left => exact congrArg (· + 1) (h.length left)
  uses := congrArg (rule.limit :: ·) h.uses
  use left hleft face hface isFirst := by
    match left, hleft with
    | uses :: left, hleft =>
      rw [besideFirst, useRule_cons, useRule_cons]
      split
      · rfl
      · rw [h.use left (Nat.succ.inj hleft) face hface, Option.map_map, Option.map_map]
        rfl

/-- Of two neighbours that answer no face together either may be the first. -/
theorem swap {rule rule' : RerollRule} (h : ∀ face ∈ faces, rule.applies face → ¬ rule'.applies face)
    (rules : List RerollRule) :
    UsesPlaced faces (rule :: rule' :: rules) (rule' :: rule :: rules) exchangeFirst where
  injective := Function.LeftInverse.injective exchangeFirst_exchangeFirst
  length left := by
    match left with
    | [] => rfl
    | [_] => rfl
    | _ :: _ :: _ => rfl
  uses := rfl
  use left hleft face hface isFirst := by
    match left, hleft with
    | x :: y :: left, _ =>
      -- At most one of the two answers, so each takes its use wherever it stands.
      have hone : rule.answers face isFirst = true → rule'.answers face isFirst = false := by
        intro hanswers
        have hnot := h face hface (Bool.and_eq_true_iff.mp hanswers).2
        simp [RerollRule.answers, hnot]
      simp only [exchangeFirst, useRule_cons]
      cases hrule : rule.answers face isFirst with
      | true =>
        rw [hone hrule]
        cases decide (0 < x) <;> simp [Option.map_map, Function.comp_def, exchangeFirst]
      | false =>
        cases rule'.answers face isFirst && decide (0 < y) <;>
          simp [Option.map_map, Function.comp_def, exchangeFirst]

theorem trans (h : UsesPlaced faces rules rules' place) (h' : UsesPlaced faces rules' rules'' place')
    (hlen : rules'.length = rules.length) : UsesPlaced faces rules rules'' (place' ∘ place) where
  injective := h'.injective.comp h.injective
  length left := (h'.length (place left)).trans (h.length left)
  uses := by rw [h'.uses, h.uses]; rfl
  use left hleft face hface isFirst := by
    have hplaced : (place left).length = rules'.length := by rw [h.length, hleft, hlen]
    rw [Function.comp_apply, h'.use (place left) hplaced face hface, h.use left hleft face hface, Option.map_map]
    rfl

/-- Rules of which no two answer one face may be in any order. -/
theorem of_perm (h : rules.Perm rules')
    (hsep : ∀ face ∈ faces, ∀ rule ∈ rules, ∀ rule' ∈ rules,
      rule.applies face → rule'.applies face → rule' = rule) : ∃ place, UsesPlaced faces rules rules' place := by
  induction h with
  | nil => exact ⟨id, refl faces []⟩
  | cons rule _ ih =>
    obtain ⟨place, hplace⟩ := ih fun face hface r hr r' hr' =>
      hsep face hface r (List.mem_cons_of_mem rule hr) r' (List.mem_cons_of_mem rule hr')
    exact ⟨besideFirst place, hplace.cons rule⟩
  | swap rule' rule rules =>
    -- A rule that is listed twice may answer a face in both places, and either place will do.
    by_cases hne : rule' = rule
    · subst hne
      exact ⟨id, refl faces _⟩
    · refine ⟨exchangeFirst, swap (fun face hface hr hr' => hne ?_) rules⟩
      exact hsep face hface rule (by simp) rule' (by simp) hr hr'
  | trans hperm _ ih ih' =>
    obtain ⟨place, hplace⟩ := ih hsep
    obtain ⟨place', hplace'⟩ := ih' fun face hface r hr r' hr' =>
      hsep face hface r (hperm.mem_iff.mpr hr) r' (hperm.mem_iff.mpr hr')
    exact ⟨place' ∘ place, hplace.trans hplace' hperm.length_eq.symm⟩

end UsesPlaced

namespace RuledDie

-- ---------------------------------------------------------------------------
-- Dice with their rules in another order
-- ---------------------------------------------------------------------------

structure Reordered (d d' : RuledDie) : Prop where
  die : d'.toDie = d.toDie
  rerolls : d.rerolls.Perm d'.rerolls
  maps : d.maps.Perm d'.maps

def MappedOnce (d : RuledDie) : Prop :=
  ∀ total, ∀ rule ∈ d.maps, ∀ rule' ∈ d.maps,
    rule.condition.holds total → rule'.condition.holds total → rule' = rule

variable {d d' : RuledDie}

namespace Reordered

theorem isEmpty_rerolls (h : Reordered d d') : d'.rerolls.isEmpty = d.rerolls.isEmpty :=
  (h.rerolls.isEmpty_eq).symm

theorem isEmpty_maps (h : Reordered d d') : d'.maps.isEmpty = d.maps.isEmpty :=
  (h.maps.isEmpty_eq).symm

theorem mapTotal (h : Reordered d d') (hmaps : d.MappedOnce) : d'.mapTotal = d.mapTotal := by
  funext total
  have hholds : ∀ rule : MapRule, (rule.map? total).isSome → rule.condition.holds total := by
    intro rule hsome
    by_contra hnot
    rw [MapRule.map?, if_neg hnot] at hsome
    cases hsome
  rw [RuledDie.mapTotal, RuledDie.mapTotal, findSome?_perm h.maps fun rule hr rule' hr' hsome hsome' =>
    hmaps total rule hr rule' hr' (hholds rule hsome) (hholds rule' hsome')]

/-- Separate rules are used alike in any order. -/
theorem usedAlike (h : Reordered d d') (hsep : d.Separate) (hmaps : d.MappedOnce) :
    ∃ place, UsedAlike place (fun left => left.length = d.rerolls.length) d d' := by
  obtain ⟨place, hplace⟩ := UsesPlaced.of_perm h.rerolls hsep
  exact ⟨place,
    { die := h.die
      injective := hplace.injective
      uses := hplace.uses
      fits := List.length_map _
      use := hplace.use
      keeps := fun left hleft _ _ _ _ huse => (useRule_length huse).trans hleft
      isEmpty_maps := h.isEmpty_maps
      mapTotal := h.mapTotal hmaps }⟩

-- ---------------------------------------------------------------------------
-- The formula
-- ---------------------------------------------------------------------------

theorem triggerBounds? (h : Reordered d d') : d'.triggerBounds? = d.triggerBounds? := by
  funext rule
  simp only [RuledDie.triggerBounds?, h.die]

theorem toAdd_uses (h : Reordered d d') : d'.toAdd d'.uses = d.toAdd d.uses := by
  have hmost : d'.mostAdded = d.mostAdded := by
    funext rule
    simp only [mostAdded, h.triggerBounds?]
  rw [RuledDie.toAdd_uses, RuledDie.toAdd_uses, hmost]
  exact (h.rerolls.map d.mostAdded).sum_eq.symm

theorem leastSubtraction? (h : Reordered d d') : d'.leastSubtraction? = d.leastSubtraction? := by
  have hleast : d'.leastSubtracted? = d.leastSubtracted? := by
    funext rule
    simp only [leastSubtracted?, h.triggerBounds?]
  have hperm := h.rerolls.filterMap d.leastSubtracted?
  unfold RuledDie.leastSubtraction?
  rw [hleast]
  cases hrules : d.rerolls.filterMap d.leastSubtracted? with
  | nil => rw [hrules] at hperm; rw [hperm.nil_eq.symm]
  | cons first more =>
    cases hrules' : d'.rerolls.filterMap d.leastSubtracted? with
    | nil => rw [hrules, hrules'] at hperm; cases hperm.length_eq
    | cons first' more' =>
      rw [hrules, hrules'] at hperm
      exact congrArg (fun ends : Int × Int => some ends.1) (Distribution.bounds_perm hperm)

theorem chainBounds (h : Reordered d d') (hmaps : d.MappedOnce) : d'.chainBounds = d.chainBounds := by
  have hhigh : d'.highTotal = d.highTotal := by rw [highTotal, highTotal, h.toAdd_uses, h.die]
  have hlow : d'.lowTotal = d.lowTotal := by rw [lowTotal, lowTotal, h.leastSubtraction?, hhigh]
  have hvalues : d'.mapBounds = d.mapBounds := by
    funext totals
    simp only [mapBounds, h.mapTotal hmaps]
  rw [chainBounds_eq, chainBounds_eq, h.isEmpty_maps, hhigh, hlow, hvalues]

end Reordered

-- ---------------------------------------------------------------------------
-- Rolls, odds and bounds
-- ---------------------------------------------------------------------------

/-- Where no face is answered by two rules and no total is mapped by two, the rules may be in any order: no
roll is another one, and the odds and the bounds, or what they fail with, are the same. -/
theorem same_of_reordered {α : Type} [Mass α] (h : Reordered d d') (hsep : d.Separate) (hmaps : d.MappedOnce) :
    (∀ xs, InRange d.sides xs → d'.roll drawNext xs = d.roll drawNext xs) ∧
      (d'.odds : Except Fault (Odds α)) = d.odds ∧ d'.bounds α = d.bounds α := by
  obtain ⟨place, halike⟩ := h.usedAlike hsep hmaps
  exact ⟨fun xs hxs => halike.roll hxs, halike.odds h.isEmpty_rerolls,
    halike.bounds h.isEmpty_rerolls (h.chainBounds hmaps)⟩

def hitOrMiss : RuledDie :=
  { keptCoin with
    maps := [⟨.compares .ge 3, { value := 0, label := "miss" }⟩,
      ⟨.compares .lt 3, { value := 1, label := "hit" }⟩] }

def missOrHit : RuledDie :=
  { hitOrMiss with rerolls := hitOrMiss.rerolls.reverse, maps := hitOrMiss.maps.reverse }

theorem mappedOnce_hitOrMiss : hitOrMiss.MappedOnce := by
  intro total rule hrule rule' hrule' hholds hholds'
  simp only [hitOrMiss, List.mem_cons, List.not_mem_nil, or_false] at hrule hrule'
  rcases hrule with rfl | rfl <;> rcases hrule' with rfl | rfl
  · rfl
  · simp only [Condition.holds, Comparison.holds, decide_eq_true_eq] at hholds hholds'
    omega
  · simp only [Condition.holds, Comparison.holds, decide_eq_true_eq] at hholds hholds'
    omega
  · rfl

theorem same_of_reordered_hitOrMiss :
    Reordered hitOrMiss missOrHit ∧ hitOrMiss.Separate ∧ hitOrMiss.MappedOnce ∧
      missOrHit.rerolls ≠ hitOrMiss.rerolls ∧ missOrHit.maps ≠ hitOrMiss.maps ∧
      (∀ xs, InRange 2 xs → missOrHit.roll drawNext xs = hitOrMiss.roll drawNext xs) ∧
      missOrHit.odds = (hitOrMiss.odds : Except Fault (Odds Rat)) ∧
      missOrHit.bounds Rat = hitOrMiss.bounds Rat := by
  have hreordered : Reordered hitOrMiss missOrHit :=
    ⟨rfl, (List.reverse_perm _).symm, (List.reverse_perm _).symm⟩
  have hsep : hitOrMiss.Separate := separate_keptCoin
  exact ⟨hreordered, hsep, mappedOnce_hitOrMiss, by decide, by decide,
    same_of_reordered hreordered hsep mappedOnce_hitOrMiss⟩

end RuledDie

end TabletopDice
