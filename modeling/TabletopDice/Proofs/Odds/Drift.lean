import TabletopDice.Proofs.Odds.Die
import TabletopDice.Proofs.Odds.Rounded

/-!
# How far rounded masses drift

Rolling all branches of a die moves masses without losing any, but for what is
rounded on the way: the share of a face is rounded twice for each branch, once
for the number of faces and once for the quotient, and every face adds one
mass to a pool. Counted over all rolls, this bounds how far the masses that are
listed in the end can be from one.
-/

namespace TabletopDice

open Rounded (Within within_nearest nearest_nonneg nearest_pos within_foldl)

-- ---------------------------------------------------------------------------
-- Listed masses
-- ---------------------------------------------------------------------------

section
variable {κ : Type}

def weigh (es : List (κ × Rounded)) : Rat := (es.map (·.2.value)).sum

def NonnegEntries (es : List (κ × Rounded)) : Prop := ∀ e ∈ es, 0 ≤ e.2.value

theorem weigh_nonneg {es : List (κ × Rounded)} (h : NonnegEntries es) : 0 ≤ weigh es := by
  refine List.sum_nonneg fun x hx => ?_
  obtain ⟨e, he, rfl⟩ := List.mem_map.mp hx
  exact h e he

theorem weigh_cons (e : κ × Rounded) (es : List (κ × Rounded)) :
    weigh (e :: es) = e.2.value + weigh es := rfl

end

namespace Pool

variable {κ : Type} [BEq κ] [Hashable κ] [LawfulBEq κ]

omit [Hashable κ] [LawfulBEq κ] in
theorem within_bump {es : List (κ × Rounded)} (h : NonnegEntries es) (k : κ) {p : Rounded}
    (hp : 0 ≤ p.value) : Within 1 (weigh es + p.value) (weigh (bump es k p)) := by
  induction es with
  | nil =>
    have hnew := within_nearest (q := 0 + p.value) (by linarith)
    simpa [bump, weigh] using hnew
  | cons e es ih =>
    have he := h e List.mem_cons_self
    have hes : NonnegEntries es := fun e' he' => h e' (List.mem_cons_of_mem e he')
    unfold bump
    split
    · have hsum := (within_nearest (add_nonneg he hp)).add_right (weigh_nonneg hes)
      rw [weigh_cons, weigh_cons, add_right_comm]
      exact hsum
    · have hrest := (ih hes).add_right he
      rw [weigh_cons, weigh_cons, add_assoc, add_comm e.2.value, add_comm e.2.value]
      exact hrest

/-- A pool that lists each key once, and no negative mass. -/
structure Weighed (pool : Pool κ Rounded) : Prop extends Sound pool where
  nonneg : NonnegEntries pool.entries

omit [LawfulBEq κ] in
theorem weighed_empty [LawfulBEq κ] : Weighed ({} : Pool κ Rounded) := ⟨sound_empty, nofun⟩

theorem Weighed.add {pool : Pool κ Rounded} (h : pool.Weighed) (k : κ) {p : Rounded}
    (hp : 0 ≤ p.value) : (pool.add k p).Weighed := by
  refine ⟨h.toSound.add k p, ?_⟩
  rw [h.entries_add]
  refine forall_bump (P := fun q : Rounded => 0 ≤ q.value) h.nonneg k ?_ fun q hq => ?_
  · exact nearest_nonneg (by simpa using hp)
  · exact nearest_nonneg (add_nonneg hq hp)

theorem Weighed.within_add {pool : Pool κ Rounded} (h : pool.Weighed) (k : κ) {p : Rounded}
    (hp : 0 ≤ p.value) :
    Within 1 (weigh pool.entries + p.value) (weigh (pool.add k p).entries) := by
  rw [h.entries_add]
  exact within_bump h.nonneg k hp

theorem weighed_ofEntries {es : List (κ × Rounded)} (h : NonnegEntries es) :
    (ofEntries es).Weighed :=
  ofEntries_induction weighed_empty es fun _ e he hq => hq.add e.1 (h e he)

theorem within_ofEntries {es : List (κ × Rounded)} (h : NonnegEntries es) :
    Within es.length (weigh es) (weigh (ofEntries es).entries) := by
  have hfold := within_foldl Weighed 1 es (g := fun pool : Pool κ Rounded => weigh pool.entries)
    (w := fun e => e.2.value) weighed_empty (fun pool e he hq => hq.add e.1 (h e he)) h
    (fun pool hq => weigh_nonneg hq.nonneg) fun pool e he hq => hq.within_add e.1 (h e he)
  rw [one_mul, entries_empty] at hfold
  simpa [weigh, ofEntries] using hfold

end Pool

-- ---------------------------------------------------------------------------
-- Chains
-- ---------------------------------------------------------------------------

namespace Chains

variable {c : Chains Rounded}

def weight (c : Chains Rounded) : Rat := weigh c.totals.entries + weigh c.branches.entries

structure Weighed (c : Chains Rounded) : Prop where
  totals : c.totals.Weighed
  branches : c.branches.Weighed

theorem Weighed.weight_nonneg (h : c.Weighed) : 0 ≤ c.weight :=
  add_nonneg (weigh_nonneg h.totals.nonneg) (weigh_nonneg h.branches.nonneg)

theorem Weighed.rollFace (h : c.Weighed) (d : RuledDie) (mayFollow : Bool) (b : Branch) {p : Rounded}
    (hp : 0 ≤ p.value) (face : Int) : (rollFace d mayFollow b p c face).Weighed := by
  rw [rollFace_eq]
  cases b.after d face with
  | none => exact ⟨h.totals.add _ hp, h.branches⟩
  | some b' =>
    cases mayFollow with
    | false => exact ⟨h.totals.add _ hp, h.branches⟩
    | true => exact ⟨h.totals, h.branches.add _ hp⟩

theorem Weighed.within_rollFace (h : c.Weighed) (d : RuledDie) (mayFollow : Bool) (b : Branch)
    {p : Rounded} (hp : 0 ≤ p.value) (face : Int) :
    Within 1 (c.weight + p.value) (Chains.rollFace d mayFollow b p c face).weight := by
  have htotals : ∀ total, Within 1 (c.weight + p.value)
      (weigh (c.totals.add total p).entries + weigh c.branches.entries) := by
    intro total
    rw [weight, add_right_comm]
    exact (h.totals.within_add total hp).add_right (weigh_nonneg h.branches.nonneg)
  rw [rollFace_eq]
  cases b.after d face with
  | none => exact htotals _
  | some b' =>
    cases mayFollow with
    | false => exact htotals _
    | true =>
      have hbranches := (h.branches.within_add b' hp).add_right (weigh_nonneg h.totals.nonneg)
      have hweight : c.weight + p.value =
          weigh c.branches.entries + p.value + weigh c.totals.entries := by
        rw [weight]
        ring
      rw [hweight]
      show Within 1 _ (weigh c.totals.entries + weigh (c.branches.add b' p).entries)
      rw [add_comm (weigh c.totals.entries)]
      exact hbranches

def share (d : RuledDie) (p : Rounded) : Rounded := p / Mass.ofInt d.sides

theorem share_nonneg (d : RuledDie) {p : Rounded} (hp : 0 ≤ p.value) : 0 ≤ (share d p).value :=
  nearest_nonneg (div_nonneg hp (nearest_nonneg (Int.cast_nonneg (by omega))))

theorem within_share (d : RuledDie) {p : Rounded} (hp : 0 ≤ p.value) :
    Within 2 p.value (d.sides * (share d p).value) := by
  have hsides : (0 : Rat) < d.sides := Nat.cast_pos.mpr d.sides_pos
  have hdivisor : Within 1 (p.value / d.sides) (p.value / Rounded.nearest d.sides) :=
    (within_nearest hsides.le).div_left hsides (nearest_pos hsides) hp
  have hquotient := within_nearest (div_nonneg hp (nearest_nonneg hsides.le))
  have hall := (hdivisor.trans hquotient).mul_left hsides.le
  rw [mul_div_cancel₀ _ hsides.ne'] at hall
  exact hall

theorem Weighed.rollBranch (h : c.Weighed) (d : RuledDie) (isLast : Bool) {e : Branch × Rounded}
    (he : 0 ≤ e.2.value) : (rollBranch d isLast c e).Weighed :=
  List.foldlRecOn _ _ h fun _ hc' face _ => hc'.rollFace d _ e.1 (share_nonneg d he) face

theorem Weighed.within_rollBranch (h : c.Weighed) (d : RuledDie) (isLast : Bool)
    {e : Branch × Rounded} (he : 0 ≤ e.2.value) :
    Within (d.sides + 2) (c.weight + e.2.value) (Chains.rollBranch d isLast c e).weight := by
  have hshare := share_nonneg d he
  have hfaces := within_foldl Weighed 1 d.faces (g := weight) (w := fun _ => (share d e.2).value) h
    (fun c' face _ hc' => hc'.rollFace d (mayFollow d isLast e.2) e.1 hshare face)
    (fun _ _ => hshare) (fun c' hc' => hc'.weight_nonneg)
    fun c' face _ hc' => hc'.within_rollFace d (mayFollow d isLast e.2) e.1 hshare face
  rw [one_mul, d.length_faces, List.map_const', List.sum_replicate, d.length_faces,
    nsmul_eq_mul] at hfaces
  have hsplit := (within_share d he).add_right h.weight_nonneg
  rw [add_comm e.2.value, add_comm (_ * _)] at hsplit
  rw [Nat.add_comm]
  exact hsplit.trans hfaces

theorem Weighed.closed (h : c.Weighed) : Weighed { c with branches := {} } :=
  ⟨h.totals, Pool.weighed_empty⟩

theorem Weighed.rollAll (h : c.Weighed) (d : RuledDie) (isLast : Bool) :
    (c.rollAll d isLast).Weighed := by
  rw [rollAll_eq]
  refine List.foldlRecOn _ _ h.closed fun c' hc' e he => ?_
  exact hc'.rollBranch d isLast (h.branches.nonneg e he)

def roundingsOfRoll (d : RuledDie) (c : Chains Rounded) : Nat :=
  (d.sides + 2) * c.branches.entries.length

theorem Weighed.within_rollAll (h : c.Weighed) (d : RuledDie) (isLast : Bool) :
    Within (roundingsOfRoll d c) c.weight (c.rollAll d isLast).weight := by
  have hroll := within_foldl Weighed (d.sides + 2) c.branches.entries (g := weight)
    (w := fun e => e.2.value) h.closed
    (fun c' e he hc' => hc'.rollBranch d isLast (h.branches.nonneg e he)) h.branches.nonneg
    (fun c' hc' => hc'.weight_nonneg)
    fun c' e he hc' => hc'.within_rollBranch d isLast (h.branches.nonneg e he)
  have hclosed : weight { c with branches := {} } = weigh c.totals.entries := by
    simp [weight, weigh]
  rw [hclosed] at hroll
  rw [rollAll_eq]
  exact hroll

def roundingsOn (d : RuledDie) : (more : Nat) → Chains Rounded → Nat
  | 0, c => roundingsOfRoll d c
  | more + 1, c =>
    let rolled := c.rollAll d false
    if rolled.branches.isEmpty then roundingsOfRoll d c
    else roundingsOfRoll d c + roundingsOn d more rolled

theorem Weighed.rollOn (h : c.Weighed) (d : RuledDie) (more : Nat) : (rollOn d more c).Weighed := by
  induction more generalizing c with
  | zero => exact h.rollAll d true
  | succ more ih =>
    simp only [Chains.rollOn]
    split
    · exact h.rollAll d false
    · exact ih (h.rollAll d false)

theorem Weighed.within_rollOn (h : c.Weighed) (d : RuledDie) (more : Nat) :
    Within (roundingsOn d more c) c.weight (Chains.rollOn d more c).weight := by
  induction more generalizing c with
  | zero => exact h.within_rollAll d true
  | succ more ih =>
    simp only [Chains.rollOn, roundingsOn]
    split
    · exact h.within_rollAll d false
    · exact (h.within_rollAll d false).trans (ih (h.rollAll d false))

theorem weighed_ofStart (d : RuledDie) : (ofStart d : Chains Rounded).Weighed :=
  ⟨Pool.weighed_empty, Pool.weighed_empty.add _ zero_le_one⟩

theorem within_ofStart (d : RuledDie) : Within 1 1 (ofStart d : Chains Rounded).weight := by
  have hadd := Pool.weighed_empty.within_add (Branch.start d) (p := 1) zero_le_one
  simpa [weight, ofStart, weigh] using hadd

end Chains

-- ---------------------------------------------------------------------------
-- Dice
-- ---------------------------------------------------------------------------

namespace RuledDie

theorem within_mapMasses (d : RuledDie) {totals : List (Int × Rounded)} (h : NonnegEntries totals) :
    Within totals.length (weigh totals) (weigh (d.mapMasses totals)) := by
  have hmapped : NonnegEntries (totals.map fun e => ((d.mapTotal e.1).value, e.2)) := by
    intro e he
    obtain ⟨e', he', rfl⟩ := List.mem_map.mp he
    exact h e' he'
  have hpool := Pool.within_ofEntries hmapped
  rw [List.length_map] at hpool
  simpa [mapMasses, weigh, Function.comp_def] using hpool

theorem nonneg_mapMasses (d : RuledDie) {totals : List (Int × Rounded)} (h : NonnegEntries totals) :
    NonnegEntries (d.mapMasses totals) := by
  refine (Pool.weighed_ofEntries fun e he => ?_).nonneg
  obtain ⟨e', he', rfl⟩ := List.mem_map.mp he
  exact h e' he'

/-- How many masses are rounded until the masses of a die with rerolls are listed. -/
def roundings (d : RuledDie) : Nat :=
  1 + Chains.roundingsOn d (maxChainRolls - 1) (Chains.ofStart d) +
    (Chains.ofDie d : Chains Rounded).totals.entries.length

theorem nonneg_listedMasses (d : RuledDie) : NonnegEntries (d.listedMasses Rounded) := by
  have htotals := ((Chains.weighed_ofStart d).rollOn d (maxChainRolls - 1)).totals.nonneg
  unfold listedMasses
  split
  · exact htotals
  · exact d.nonneg_mapMasses htotals

theorem within_listedMasses (d : RuledDie) :
    Within d.roundings 1 (weigh (d.listedMasses Rounded)) := by
  have hstart := Chains.weighed_ofStart d
  have hrolled := hstart.rollOn d (maxChainRolls - 1)
  have hchains := (Chains.within_ofStart d).trans (hstart.within_rollOn d (maxChainRolls - 1))
  have hweight : (Chains.ofDie d : Chains Rounded).weight =
      weigh (Chains.ofDie d : Chains Rounded).totals.entries := by
    rw [Chains.weight, Chains.branches_ofDie]
    simp [weigh]
  rw [show Chains.rollOn d (maxChainRolls - 1) (Chains.ofStart d) = Chains.ofDie d from rfl,
    hweight] at hchains
  unfold listedMasses roundings
  split
  · exact hchains.mono zero_le_one (Nat.le_add_right ..)
  · exact hchains.trans (d.within_mapMasses hrolled.totals.nonneg)

end RuledDie

end TabletopDice
