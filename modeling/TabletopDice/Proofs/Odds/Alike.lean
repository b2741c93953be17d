import TabletopDice.Proofs.Odds.Die
import TabletopDice.Proofs.Roll.Alike

/-!
# Odds of dice that use their rules alike

Chains of rolls keep the uses left of every rule. Dice that use their rules
alike make other branches, which have the uses left in other places, but as
many of them, in the same order and as likely, so the totals are the same.
-/

namespace TabletopDice

-- ---------------------------------------------------------------------------
-- Pools under other keys
-- ---------------------------------------------------------------------------

namespace Pool

variable {κ α : Type} [BEq κ] [LawfulBEq κ] [Mass α]

/-- A list of entries is added to in the same way under other keys, if these are told apart. -/
theorem bump_map {κ' : Type} [BEq κ'] [LawfulBEq κ'] {g : κ → κ'} (hg : Function.Injective g)
    (es : List (κ × α)) (k : κ) (p : α) :
    bump (es.map fun e => (g e.1, e.2)) (g k) p = (bump es k p).map fun e => (g e.1, e.2) := by
  induction es with
  | nil => rfl
  | cons e es ih =>
    have hbeq : (g e.1 == g k) = (e.1 == k) := by
      rw [Bool.eq_iff_iff, beq_iff_eq, beq_iff_eq, hg.eq_iff]
    simp only [List.map_cons, bump, hbeq, ih]
    split <;> rfl

end Pool

-- ---------------------------------------------------------------------------
-- Branches
-- ---------------------------------------------------------------------------

namespace Branch

def placed (place : List Nat → List Nat) (b : Branch) : Branch := { b with left := place b.left }

variable {place : List Nat → List Nat}

theorem placed_injective (h : Function.Injective place) : Function.Injective (placed place) := by
  intro b b' hb
  obtain ⟨running, left, effect⟩ := b
  obtain ⟨running', left', effect'⟩ := b'
  simp only [placed, Branch.mk.injEq] at hb
  obtain ⟨rfl, hleft, rfl⟩ := hb
  obtain rfl : left = left' := h hleft
  rfl

end Branch

namespace RuledDie.UsedAlike

variable {place : List Nat → List Nat} {Fits : List Nat → Prop} {d d' : RuledDie}

theorem start (h : UsedAlike place Fits d d') : Branch.start d' = (Branch.start d).placed place := by
  rw [Branch.start, h.uses]
  rfl

theorem after (h : UsedAlike place Fits d d') {b : Branch} (hb : Fits b.left) {face : Int} (hface : face ∈ d.faces) :
    (b.placed place).after d' face = (b.after d face).map (Branch.placed place) := by
  have huse := h.use b.left hb face hface b.running.total.isNone
  rw [Branch.after, Branch.after, Option.map_map]
  refine (congrArg (Option.map _) huse).trans ?_
  rw [Option.map_map]
  rfl

theorem fits_after (h : UsedAlike place Fits d d') {b b' : Branch} (hb : Fits b.left) {face : Int}
    (ha : b.after d face = some b') : Fits b'.left := by
  obtain ⟨⟨effect, left⟩, hrule, rfl⟩ := Option.map_eq_some_iff.mp ha
  exact h.keeps b.left hb face _ effect left hrule

end RuledDie.UsedAlike

-- ---------------------------------------------------------------------------
-- Chains
-- ---------------------------------------------------------------------------

namespace Chains

open RuledDie (UsedAlike)

section
variable {α : Type} [Mass α] {place : List Nat → List Nat} {Fits : List Nat → Prop} {d d' : RuledDie}
  {c c' : Chains α}

/-- The same totals, and the same branches but for the places of the uses left, which fit. -/
structure Alike (place : List Nat → List Nat) (Fits : List Nat → Prop) (c c' : Chains α) : Prop where
  totals : c'.totals = c.totals
  complete : c'.complete = c.complete
  branches : c'.branches.entries = c.branches.entries.map fun e => (e.1.placed place, e.2)
  fits : ∀ b ∈ c.branches.keys, Fits b.left
  sound : c.Sound
  sound' : c'.Sound

theorem Alike.finish (h : Alike place Fits c c') (total : Int) (p : α) :
    Alike place Fits (c.finish total p) (c'.finish total p) where
  totals := congrArg (Pool.add · total p) h.totals
  complete := h.complete
  branches := h.branches
  fits := h.fits
  sound := ⟨h.sound.totals.add total p, h.sound.branches⟩
  sound' := ⟨h.sound'.totals.add total p, h.sound'.branches⟩

theorem Alike.cut (h : Alike place Fits c c') (total : Int) (p : α) :
    Alike place Fits (c.cut total p) (c'.cut total p) where
  totals := (h.finish total p).totals
  complete := rfl
  branches := h.branches
  fits := h.fits
  sound := ⟨h.sound.totals.add total p, h.sound.branches⟩
  sound' := ⟨h.sound'.totals.add total p, h.sound'.branches⟩

theorem Alike.follow (h : Alike place Fits c c') (hplace : Function.Injective place) {b : Branch}
    (hb : Fits b.left) (p : α) : Alike place Fits (c.follow b p) (c'.follow (b.placed place) p) where
  totals := h.totals
  complete := h.complete
  branches := by
    rw [Chains.follow, Chains.follow, h.sound.branches.entries_add, h.sound'.branches.entries_add, h.branches]
    exact Pool.bump_map (Branch.placed_injective hplace) c.branches.entries b p
  fits b' hb' := by
    rcases (h.sound.branches.mem_keys_add b p b').mp hb' with rfl | hb'
    · exact hb
    · exact h.fits b' hb'
  sound := ⟨h.sound.totals, h.sound.branches.add b p⟩
  sound' := ⟨h.sound'.totals, h.sound'.branches.add (b.placed place) p⟩

theorem Alike.closed (h : Alike place Fits c c') :
    Alike place Fits { c with branches := {} } { c' with branches := {} } :=
  ⟨h.totals, h.complete, rfl, fun _ hb => absurd hb List.not_mem_nil, h.sound.closed, h.sound'.closed⟩

theorem Alike.rollFace (h : Alike place Fits c c') (hd : UsedAlike place Fits d d') (mayFollow : Bool)
    {b : Branch} (hb : Fits b.left) (p : α) {face : Int} (hface : face ∈ d.faces) :
    Alike place Fits (Chains.rollFace d mayFollow b p c face)
      (Chains.rollFace d' mayFollow (b.placed place) p c' face) := by
  rw [rollFace_eq, rollFace_eq, hd.after hb hface]
  cases ha : b.after d face with
  | none => exact h.finish _ p
  | some b' =>
    cases mayFollow with
    | false => exact h.cut _ p
    | true => exact h.follow hd.injective (hd.fits_after hb ha) p

theorem Alike.rollBranch (h : Alike place Fits c c') (hd : UsedAlike place Fits d d') (isLast : Bool)
    {e : Branch × α} (he : Fits e.1.left) : Alike place Fits (Chains.rollBranch d isLast c e)
      (Chains.rollBranch d' isLast c' (e.1.placed place, e.2)) := by
  simp only [Chains.rollBranch, mayFollow, hd.die]
  exact List.foldl_rel h fun face hface _ _ hc => hc.rollFace hd _ he _ hface

theorem Alike.rollAll (h : Alike place Fits c c') (hd : UsedAlike place Fits d d') (isLast : Bool) :
    Alike place Fits (c.rollAll d isLast) (c'.rollAll d' isLast) := by
  rw [rollAll_eq, rollAll_eq, h.branches, List.foldl_map]
  refine List.foldl_rel h.closed fun e he _ _ hc => hc.rollBranch hd isLast (h.fits e.1 ?_)
  rw [← Pool.keys_entries]
  exact List.mem_map_of_mem he

theorem Alike.isEmpty (h : Alike place Fits c c') : c'.branches.isEmpty = c.branches.isEmpty := by
  have hlen := congrArg List.length h.branches
  simp only [Pool.entries, List.length_map, Array.length_toList] at hlen
  simp only [Pool.isEmpty, Array.isEmpty, hlen]

theorem Alike.rollOn (h : Alike place Fits c c') (hd : UsedAlike place Fits d d') (more : Nat) :
    Alike place Fits (rollOn d more c) (rollOn d' more c') := by
  induction more generalizing c c' with
  | zero => exact h.rollAll hd true
  | succ more ih =>
    have hall := h.rollAll hd false
    simp only [Chains.rollOn, hall.isEmpty]
    split
    · exact hall
    · exact ih hall

theorem alike_ofDie (hd : UsedAlike place Fits d d') :
    Alike place Fits (ofDie d : Chains α) (ofDie d') := by
  have halike : Alike place Fits (ofStart d : Chains α) (ofStart d') := by
    refine ⟨rfl, rfl, ?_, fun b hb => ?_, sound_ofStart d, sound_ofStart d'⟩
    · rw [ofStart, ofStart, hd.start, Pool.sound_empty.entries_add, Pool.sound_empty.entries_add]
      rfl
    · rw [ofStart] at hb
      rcases (Pool.sound_empty.mem_keys_add _ _ b).mp hb with rfl | hb
      · exact hd.fits
      · exact absurd hb List.not_mem_nil
  exact halike.rollOn hd (maxChainRolls - 1)

end

end Chains

-- ---------------------------------------------------------------------------
-- Odds
-- ---------------------------------------------------------------------------

namespace RuledDie.UsedAlike

variable {α : Type} [Mass α] {place : List Nat → List Nat} {Fits : List Nat → Prop} {d d' : RuledDie}

theorem mapMasses (h : UsedAlike place Fits d d') (totals : List (Int × α)) :
    d'.mapMasses totals = d.mapMasses totals := by
  rw [RuledDie.mapMasses, RuledDie.mapMasses, h.mapTotal]

theorem listedMasses (h : UsedAlike place Fits d d') : d'.listedMasses α = d.listedMasses α := by
  simp only [RuledDie.listedMasses, h.isEmpty_maps, h.mapMasses, (Chains.alike_ofDie h).totals]

/-- The odds are the same if it is not a matter of having rules at all. -/
theorem odds (h : UsedAlike place Fits d d') (hrerolls : d'.rerolls.isEmpty = d.rerolls.isEmpty) :
    (d'.odds : Except Fault (Odds α)) = d.odds := by
  have halike := Chains.alike_ofDie (α := α) h
  simp only [RuledDie.odds, hrerolls, h.die, h.isEmpty_maps, h.mapMasses, halike.totals, halike.complete]

theorem mapBounds (h : UsedAlike place Fits d d') (totals : List Int) :
    d'.mapBounds totals = d.mapBounds totals := by
  simp only [RuledDie.mapBounds, h.mapTotal]

/-- The bounds are the same if in addition the formula for long chains is. -/
theorem bounds (h : UsedAlike place Fits d d') (hrerolls : d'.rerolls.isEmpty = d.rerolls.isEmpty)
    (hchain : d'.chainBounds = d.chainBounds) : d'.bounds α = d.bounds α := by
  simp only [RuledDie.bounds, hrerolls, h.die, h.isEmpty_maps, h.mapBounds, h.odds hrerolls, hchain]

end RuledDie.UsedAlike

end TabletopDice
