import TabletopDice.Proofs.Odds.Pool
import TabletopDice.Proofs.Roll.Branch

/-!
# Chains against rolls

The chains of a die hold totals and open branches by their masses. What they
are worth together, with every open branch worth what rolling it on is worth,
does not change when all branches are rolled once more, but for the branches
that are cut: each of those changes it by its own mass at most. Rolled to the
end, the totals are therefore off from the law of the roll by no more than the
mass that was cut.
-/

namespace TabletopDice

open Branch (start)

namespace Branch

def isCut (d : RuledDie) (mayFollow : Bool) (b : Branch) (face : Int) : Bool :=
  !mayFollow && (b.after d face).isSome

/-- What a face is worth where branches that may not be followed end at their total. -/
def kept (d : RuledDie) (mayFollow : Bool) (f : Int → Rat) (b : Branch) (face : Int) : Rat :=
  if b.isCut d mayFollow face then f (b.total face) else b.worthAfter d f face

theorem kept_const (d : RuledDie) (mayFollow : Bool) (c : Rat) (b : Branch) (face : Int) :
    b.kept d mayFollow (fun _ => c) face = c := by
  unfold kept worthAfter
  split
  · rfl
  · cases b.after d face with
    | none => rfl
    | some b' => exact worth_const d c b'

theorem worthAfter_mem (d : RuledDie) {f : Int → Rat} (hf : ∀ t, 0 ≤ f t ∧ f t ≤ 1) (b : Branch)
    (face : Int) : 0 ≤ b.worthAfter d f face ∧ b.worthAfter d f face ≤ 1 := by
  unfold worthAfter
  cases b.after d face with
  | none => exact hf _
  | some b' =>
    constructor
    · rw [← worth_const d 0 b']
      exact worth_mono d (fun t => (hf t).1) b'
    · rw [← worth_const d 1 b']
      exact worth_mono d (fun t => (hf t).2) b'

theorem abs_kept_sub (d : RuledDie) (mayFollow : Bool) {f : Int → Rat}
    (hf : ∀ t, 0 ≤ f t ∧ f t ≤ 1) (b : Branch) (face : Int) :
    |b.kept d mayFollow f face - b.worthAfter d f face| ≤
      if b.isCut d mayFollow face then 1 else 0 := by
  unfold kept
  split
  · obtain ⟨hlow, hhigh⟩ := hf (b.total face)
    obtain ⟨hlow', hhigh'⟩ := b.worthAfter_mem d hf face
    exact abs_sub_le_iff.mpr ⟨by linarith, by linarith⟩
  · simp

end Branch

namespace Chains

section
variable {α : Type} [Mass α]

-- ---------------------------------------------------------------------------
-- Steps
-- ---------------------------------------------------------------------------

def mayFollow (d : RuledDie) (isLast : Bool) (p : α) : Bool :=
  !isLast && !decide (p / Mass.ofInt d.sides < floor)

def rollBranch (d : RuledDie) (isLast : Bool) (c : Chains α) (e : Branch × α) : Chains α :=
  d.faces.foldl (rollFace d (mayFollow d isLast e.2) e.1 (e.2 / Mass.ofInt d.sides)) c

theorem rollAll_eq (d : RuledDie) (isLast : Bool) (c : Chains α) :
    c.rollAll d isLast = c.branches.entries.foldl (rollBranch d isLast) { c with branches := {} } :=
  rfl

theorem rollFace_eq (d : RuledDie) (mayFollow : Bool) (b : Branch) (p : α) (c : Chains α)
    (face : Int) :
    rollFace d mayFollow b p c face =
      match b.after d face with
      | none => c.finish (b.total face) p
      | some b' => if mayFollow then c.follow b' p else c.cut (b.total face) p := by
  unfold rollFace Branch.after
  cases useRule d.rerolls b.left face b.running.total.isNone <;> rfl

/-- What every face of every open branch keeps is kept by rolling all of them. -/
theorem rollAll_induction {Q : Chains α → Prop} (d : RuledDie) (isLast : Bool) {c : Chains α}
    (h0 : Q { c with branches := {} })
    (hface : ∀ c', ∀ e ∈ c.branches.entries, ∀ face ∈ d.faces, Q c' →
      Q (rollFace d (mayFollow d isLast e.2) e.1 (e.2 / Mass.ofInt d.sides) c' face)) :
    Q (c.rollAll d isLast) := by
  rw [rollAll_eq]
  refine List.foldlRecOn _ _ h0 fun c' hc' e he => ?_
  exact List.foldlRecOn _ _ hc' fun c'' hc'' face hf => hface c'' e he face hf hc''

-- ---------------------------------------------------------------------------
-- Soundness
-- ---------------------------------------------------------------------------

structure Sound (c : Chains α) : Prop where
  totals : c.totals.Sound
  branches : c.branches.Sound

theorem Sound.rollFace {c : Chains α} (h : c.Sound) (d : RuledDie) (mayFollow : Bool) (b : Branch)
    (p : α) (face : Int) : (rollFace d mayFollow b p c face).Sound := by
  rw [rollFace_eq]
  cases b.after d face with
  | none => exact ⟨h.totals.add _ _, h.branches⟩
  | some b' =>
    cases mayFollow with
    | false => exact ⟨h.totals.add _ _, h.branches⟩
    | true => exact ⟨h.totals, h.branches.add _ _⟩

theorem Sound.closed {c : Chains α} (h : c.Sound) : Sound { c with branches := {} } :=
  ⟨h.totals, Pool.sound_empty⟩

theorem Sound.rollAll {c : Chains α} (h : c.Sound) (d : RuledDie) (isLast : Bool) :
    (c.rollAll d isLast).Sound :=
  rollAll_induction d isLast h.closed fun _ e _ face _ hc' =>
    hc'.rollFace d _ e.1 _ face

theorem Sound.rollOn {c : Chains α} (h : c.Sound) (d : RuledDie) (more : Nat) :
    (rollOn d more c).Sound := by
  induction more generalizing c with
  | zero => exact h.rollAll d true
  | succ more ih =>
    simp only [Chains.rollOn]
    split
    · exact h.rollAll d false
    · exact ih (h.rollAll d false)

-- ---------------------------------------------------------------------------
-- Completeness
-- ---------------------------------------------------------------------------

theorem complete_rollFace (d : RuledDie) (mayFollow : Bool) (b : Branch) (p : α) (c : Chains α)
    (face : Int) :
    (rollFace d mayFollow b p c face).complete = (c.complete && !b.isCut d mayFollow face) := by
  rw [rollFace_eq]
  unfold Branch.isCut
  cases b.after d face with
  | none => simp [finish]
  | some b' => cases mayFollow <;> simp [follow, cut]

theorem complete_rollBranch (d : RuledDie) (isLast : Bool) (c : Chains α) (e : Branch × α) :
    (rollBranch d isLast c e).complete =
      (c.complete && d.faces.all fun face => !e.1.isCut d (mayFollow d isLast e.2) face) :=
  foldl_all (complete_rollFace d _ e.1 _) d.faces c

theorem complete_rollAll (d : RuledDie) (isLast : Bool) (c : Chains α) :
    (c.rollAll d isLast).complete =
      (c.complete && c.branches.entries.all fun e =>
        d.faces.all fun face => !e.1.isCut d (mayFollow d isLast e.2) face) :=
  foldl_all (complete_rollBranch d isLast) c.branches.entries { c with branches := {} }

theorem complete_of_rollAll {d : RuledDie} {isLast : Bool} {c : Chains α}
    (h : (c.rollAll d isLast).complete) : c.complete := by
  rw [complete_rollAll] at h
  exact (Bool.and_eq_true_iff.mp h).1

theorem isCut_of_complete {d : RuledDie} {isLast : Bool} {c : Chains α}
    (h : (c.rollAll d isLast).complete) {e : Branch × α} (he : e ∈ c.branches.entries) {face : Int}
    (hface : face ∈ d.faces) : e.1.isCut d (mayFollow d isLast e.2) face = false := by
  rw [complete_rollAll, Bool.and_eq_true_iff] at h
  simpa using List.all_eq_true.mp (List.all_eq_true.mp h.2 e he) face hface

theorem complete_of_rollOn {d : RuledDie} {more : Nat} {c : Chains α}
    (h : (rollOn d more c).complete) : c.complete := by
  induction more generalizing c with
  | zero => exact complete_of_rollAll h
  | succ more ih =>
    simp only [rollOn] at h
    split at h
    · exact complete_of_rollAll h
    · exact complete_of_rollAll (ih h)

-- ---------------------------------------------------------------------------
-- The end
-- ---------------------------------------------------------------------------

theorem isEmpty_rollAll_last (d : RuledDie) (c : Chains α) :
    (c.rollAll d true).branches.isEmpty = true := by
  refine rollAll_induction (Q := fun c' : Chains α => c'.branches.isEmpty = true) d true rfl
    fun c' e _ face _ hc' => ?_
  rw [rollFace_eq]
  cases e.1.after d face with
  | none => exact hc'
  | some b' => exact hc'

def ofStart (d : RuledDie) : Chains α := { branches := Pool.add {} (start d) 1 }

theorem sound_ofStart (d : RuledDie) : (ofStart d : Chains α).Sound :=
  ⟨Pool.sound_empty, Pool.sound_empty.add _ _⟩

theorem isEmpty_rollOn (d : RuledDie) (more : Nat) (c : Chains α) :
    (rollOn d more c).branches.isEmpty = true := by
  induction more generalizing c with
  | zero => exact isEmpty_rollAll_last d c
  | succ more ih =>
    simp only [rollOn]
    split
    · assumption
    · exact ih _

theorem branches_ofDie (d : RuledDie) : (ofDie d : Chains α).branches.entries = [] := by
  have h := isEmpty_rollOn d (maxChainRolls - 1) (ofStart d : Chains α)
  simp only [Pool.isEmpty, Array.isEmpty_iff] at h
  exact congrArg (fun order : Array Branch => order.toList.map _) h

end

-- ---------------------------------------------------------------------------
-- Worth
-- ---------------------------------------------------------------------------

structure Fair (c : Chains Rat) : Prop extends Sound c where
  totals_positive : c.totals.Positive
  branches_positive : c.branches.Positive

def waiting (c : Chains Rat) : Law (Branch × Rat) := ⟨c.branches.entries.map fun e => (e, e.2)⟩

theorem Fair.nonneg_waiting {c : Chains Rat} (h : c.Fair) : c.waiting.Nonneg := by
  intro o ho
  obtain ⟨e, he, rfl⟩ := List.mem_map.mp ho
  exact (h.branches_positive e he).le

theorem mem_waiting {c : Chains Rat} {o : (Branch × Rat) × Rat} (h : o ∈ c.waiting.outcomes) :
    o.1 ∈ c.branches.entries := by
  obtain ⟨e, he, rfl⟩ := List.mem_map.mp h
  exact he

/-- The mean over the totals, with every open branch at its worth. -/
def worth (d : RuledDie) (f : Int → Rat) (c : Chains Rat) : Rat :=
  c.totals.law.mean f + c.waiting.mean fun e => e.1.worth d f

def keptMean (d : RuledDie) (isLast : Bool) (f : Int → Rat) (e : Branch × Rat) : Rat :=
  (d.toDie.roll Law.uniform).mean (e.1.kept d (mayFollow d isLast e.2) f)

theorem worth_eq_law (d : RuledDie) (f : Int → Rat) (c : Chains Rat) :
    c.worth d f = c.totals.law.mean f + c.branches.law.mean (Branch.worth d f) := by
  simp [worth, waiting, Pool.law, Law.mean, Function.comp_def]

theorem Fair.rollFace {c : Chains Rat} (h : c.Fair) (d : RuledDie) (mayFollow : Bool) (b : Branch)
    {p : Rat} (hp : 0 < p) (face : Int) : (Chains.rollFace d mayFollow b p c face).Fair := by
  refine ⟨h.toSound.rollFace d mayFollow b p face, ?_, ?_⟩ <;> rw [rollFace_eq]
  · cases b.after d face with
    | none => exact h.totals.positive_add h.totals_positive _ hp
    | some b' =>
      cases mayFollow with
      | false => exact h.totals.positive_add h.totals_positive _ hp
      | true => exact h.totals_positive
  · cases b.after d face with
    | none => exact h.branches_positive
    | some b' =>
      cases mayFollow with
      | false => exact h.branches_positive
      | true => exact h.branches.positive_add h.branches_positive _ hp

theorem worth_rollFace {c : Chains Rat} (h : c.Fair) (d : RuledDie) (mayFollow : Bool) (b : Branch)
    (p : Rat) (face : Int) (f : Int → Rat) :
    (rollFace d mayFollow b p c face).worth d f =
      c.worth d f + p * b.kept d mayFollow f face := by
  rw [rollFace_eq]
  unfold Branch.kept Branch.isCut Branch.worthAfter
  cases b.after d face with
  | none =>
    simp only [worth_eq_law, finish, h.totals.mean_add, Option.isSome_none, Bool.and_false,
      Bool.false_eq_true, if_false]
    ring
  | some b' =>
    cases mayFollow
    · simp only [worth_eq_law, cut, finish, h.totals.mean_add, Bool.false_eq_true, if_false,
        Option.isSome_some, Bool.not_false, Bool.and_self, if_true]
      ring
    · simp only [worth_eq_law, follow, h.branches.mean_add, Bool.not_true, Bool.false_and,
        Bool.false_eq_true, if_false, if_true]
      ring

theorem fair_rollBranch {c : Chains Rat} (h : c.Fair) (d : RuledDie) (isLast : Bool)
    {e : Branch × Rat} (he : 0 < e.2) : (rollBranch d isLast c e).Fair :=
  List.foldlRecOn _ _ h fun _ hc' face _ =>
    hc'.rollFace d _ e.1 (div_pos he (Nat.cast_pos.mpr d.sides_pos)) face

theorem worth_rollBranch {c : Chains Rat} (h : c.Fair) (d : RuledDie) (isLast : Bool)
    {e : Branch × Rat} (he : 0 < e.2) (f : Int → Rat) :
    (rollBranch d isLast c e).worth d f = c.worth d f + e.2 * keptMean d isLast f e := by
  have hdraw := foldl_sum Fair d.faces (g := fun c' => c'.worth d f)
    (w := fun face => e.2 / d.sides * e.1.kept d (mayFollow d isLast e.2) f face) h
    (fun c' face _ hc' => hc'.rollFace d (mayFollow d isLast e.2) e.1
      (div_pos he (Nat.cast_pos.mpr d.sides_pos)) face)
    fun c' face _ hc' => worth_rollFace hc' d (mayFollow d isLast e.2) e.1 (e.2 / d.sides) face f
  rw [keptMean, Law.mean_roll]
  calc (rollBranch d isLast c e).worth d f
      = c.worth d f + (d.faces.map fun face =>
          e.2 / d.sides * e.1.kept d (mayFollow d isLast e.2) f face).sum := hdraw
    _ = _ := by rw [List.sum_map_mul_left]; ring

theorem Fair.closed {c : Chains Rat} (h : c.Fair) : Fair { c with branches := {} } :=
  ⟨h.toSound.closed, h.totals_positive, Pool.positive_empty⟩

theorem Fair.rollAll {c : Chains Rat} (h : c.Fair) (d : RuledDie) (isLast : Bool) :
    (c.rollAll d isLast).Fair := by
  rw [rollAll_eq]
  refine List.foldlRecOn _ _ h.closed fun c' hc' e he => ?_
  exact fair_rollBranch hc' d isLast (h.branches_positive e he)

theorem worth_rollAll {c : Chains Rat} (h : c.Fair) (d : RuledDie) (isLast : Bool)
    (f : Int → Rat) :
    (c.rollAll d isLast).worth d f = c.totals.law.mean f + c.waiting.mean (keptMean d isLast f) := by
  rw [rollAll_eq, foldl_sum Fair _ (g := fun c' => c'.worth d f)
    (w := fun e => e.2 * keptMean d isLast f e) h.closed
    (fun c' e he hc' => fair_rollBranch hc' d isLast (h.branches_positive e he))
    fun c' e he hc' => worth_rollBranch hc' d isLast (h.branches_positive e he) f,
    worth_eq_law, Pool.mean_law_empty, add_zero]
  simp only [waiting, Law.mean, List.map_map, Function.comp_def]

-- ---------------------------------------------------------------------------
-- Cuts
-- ---------------------------------------------------------------------------

/-- The mass of the branches that one roll of all branches cuts. -/
def cutByRoll (d : RuledDie) (isLast : Bool) (c : Chains Rat) : Rat :=
  c.waiting.mean fun e => (d.toDie.roll Law.uniform).mean fun face =>
    if e.1.isCut d (mayFollow d isLast e.2) face then 1 else 0

def cutFrom (d : RuledDie) : (more : Nat) → Chains Rat → Rat
  | 0, c => c.cutByRoll d true
  | more + 1, c =>
    let rolled := c.rollAll d false
    if rolled.branches.isEmpty then c.cutByRoll d false
    else c.cutByRoll d false + cutFrom d more rolled

theorem abs_worth_rollAll_sub {c : Chains Rat} (h : c.Fair) (d : RuledDie) (isLast : Bool)
    {f : Int → Rat} (hf : ∀ t, 0 ≤ f t ∧ f t ≤ 1) :
    |(c.rollAll d isLast).worth d f - c.worth d f| ≤ c.cutByRoll d isLast := by
  rw [worth_rollAll h, worth, add_sub_add_left_eq_sub]
  refine h.nonneg_waiting.abs_mean_sub_le fun o _ => ?_
  rw [Branch.worth_eq]
  exact (Law.nonneg_roll d.toDie).abs_mean_sub_le fun p _ => o.1.1.abs_kept_sub d _ hf p.1

theorem worth_rollAll_const {c : Chains Rat} (h : c.Fair) (d : RuledDie) (isLast : Bool) (x : Rat) :
    (c.rollAll d isLast).worth d (fun _ => x) = c.worth d fun _ => x := by
  have hkept : keptMean d isLast (fun _ => x) = fun e => e.1.worth d fun _ => x := by
    funext e
    rw [Branch.worth_const, keptMean, funext (Branch.kept_const d _ x e.1), Law.mean_roll_const]
  rw [worth_rollAll h, hkept, worth]

theorem worth_rollAll_of_complete {c : Chains Rat} (h : c.Fair) {d : RuledDie} {isLast : Bool}
    (hc : (c.rollAll d isLast).complete) (f : Int → Rat) :
    (c.rollAll d isLast).worth d f = c.worth d f := by
  rw [worth_rollAll h, worth]
  congr 1
  refine Law.mean_congr fun o ho => ?_
  rw [Branch.worth_eq, keptMean]
  refine Law.mean_congr fun p hp => ?_
  rw [Branch.kept, if_neg]
  simp [isCut_of_complete hc (mem_waiting ho) (Law.mem_roll hp).1]

theorem Fair.rollOn {c : Chains Rat} (h : c.Fair) (d : RuledDie) (more : Nat) :
    (rollOn d more c).Fair := by
  induction more generalizing c with
  | zero => exact h.rollAll d true
  | succ more ih =>
    simp only [Chains.rollOn]
    split
    · exact h.rollAll d false
    · exact ih (h.rollAll d false)

theorem abs_worth_rollOn_sub {c : Chains Rat} (h : c.Fair) (d : RuledDie) (more : Nat)
    {f : Int → Rat} (hf : ∀ t, 0 ≤ f t ∧ f t ≤ 1) :
    |(rollOn d more c).worth d f - c.worth d f| ≤ cutFrom d more c := by
  induction more generalizing c with
  | zero => exact abs_worth_rollAll_sub h d true hf
  | succ more ih =>
    have hroll := abs_worth_rollAll_sub h d false hf
    simp only [Chains.rollOn, cutFrom]
    split
    · exact hroll
    · have hrest := ih (h.rollAll d false)
      exact (abs_sub_le _ _ _).trans (add_comm (cutByRoll ..) _ ▸ add_le_add hrest hroll)

theorem worth_rollOn_const {c : Chains Rat} (h : c.Fair) (d : RuledDie) (more : Nat) (x : Rat) :
    (rollOn d more c).worth d (fun _ => x) = c.worth d fun _ => x := by
  induction more generalizing c with
  | zero => exact worth_rollAll_const h d true x
  | succ more ih =>
    simp only [Chains.rollOn]
    split
    · exact worth_rollAll_const h d false x
    · rw [ih (h.rollAll d false), worth_rollAll_const h]

theorem worth_rollOn_of_complete {c : Chains Rat} (h : c.Fair) {d : RuledDie} {more : Nat}
    (hc : (rollOn d more c).complete) (f : Int → Rat) :
    (rollOn d more c).worth d f = c.worth d f := by
  induction more generalizing c with
  | zero => exact worth_rollAll_of_complete h hc f
  | succ more ih =>
    simp only [Chains.rollOn] at hc ⊢
    split at hc <;> rename_i hempty
    · rw [if_pos hempty]
      exact worth_rollAll_of_complete h hc f
    · rw [if_neg hempty, ih (h.rollAll d false) hc,
        worth_rollAll_of_complete h (complete_of_rollOn hc)]

-- ---------------------------------------------------------------------------
-- All chains of a die
-- ---------------------------------------------------------------------------

theorem fair_ofStart (d : RuledDie) : (ofStart d : Chains Rat).Fair where
  toSound := sound_ofStart d
  totals_positive := Pool.positive_empty
  branches_positive := Pool.sound_empty.positive_add Pool.positive_empty _ zero_lt_one

theorem worth_ofStart (d : RuledDie) (f : Int → Rat) :
    (ofStart d : Chains Rat).worth d f = (start d).worth d f := by
  rw [worth_eq_law, ofStart, Pool.sound_empty.mean_add]
  simp

theorem worth_ofDie (d : RuledDie) (f : Int → Rat) :
    (ofDie d : Chains Rat).worth d f = (ofDie d : Chains Rat).totals.law.mean f := by
  simp [worth, waiting, branches_ofDie]

end Chains

namespace RuledDie

def cutMass (d : RuledDie) : Rat := Chains.cutFrom d (maxChainRolls - 1) (Chains.ofStart d)

end RuledDie

end TabletopDice
