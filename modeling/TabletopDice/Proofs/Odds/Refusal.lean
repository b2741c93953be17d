import TabletopDice.Proofs.Odds.Drift

/-!
# Dice whose odds are refused

Odds are listed mass by mass and then checked like masses that somebody else has
listed. Rounded masses never fail for their total, which drifts much less than
the tolerance, nor for being negative. But a single mass is checked without any
tolerance, and when all faces of a die are mapped to one value, the shares of
the faces can add up to slightly more than one.
-/

namespace TabletopDice

open Rounded (Within within_nearest within_foldl maxRoundings)
open TabletopDice.Distribution (TooWide putAll)

-- ---------------------------------------------------------------------------
-- Checked masses
-- ---------------------------------------------------------------------------

namespace Table

/-- The table without the knowledge that its masses were rounded. -/
def values (t : Table Rounded) : Table Rat := ⟨t.low, t.cells.map (·.value)⟩

theorem values_put (t : Table Rounded) (r : Int) (p : Rounded) :
    (t.put r p).values = t.values.put r p.value := by
  unfold values put change
  split
  · rfl
  · congr 1
    ext i
    · simp
    · simp only [Array.getElem_map, Array.getElem_modify]
      split <;> rfl

theorem values_empty (low : Int) (width : Nat) : (empty low width).values = empty low width := by
  simp [values, empty]

theorem values_putAll (entries : List (Int × Rounded)) (t : Table Rounded) :
    (putAll entries t).values = putAll (entries.map fun e => (e.1, e.2.value)) t.values := by
  induction entries generalizing t with
  | nil => rfl
  | cons e es ih =>
    refine (ih (t.put e.1 e.2)).trans ?_
    rw [values_put]
    rfl

end Table

namespace Distribution

variable {entries : List (Int × Rounded)} {n : Nat}

theorem sum_value_putAll {low : Int} {width : Nat} (hnd : (entries.map (·.1)).Nodup)
    (ht : ∀ e ∈ entries, (Table.empty low width : Table Rounded).Covers e.1) :
    ((putAll entries (Table.empty low width)).cells.toList.map (·.value)).sum = weigh entries := by
  have hvalues : (putAll entries (Table.empty low width)).cells.toList.map (·.value) =
      (putAll (entries.map fun e => (e.1, e.2.value)) (Table.empty low width)).cells.toList := by
    rw [← Table.values_empty, ← Table.values_putAll]
    simp [Table.values]
  rw [hvalues, sum_putAll]
  · simp [weigh, Function.comp_def]
  · simpa [Function.comp_def] using hnd
  · intro e he
    obtain ⟨e', he', rfl⟩ := List.mem_map.mp he
    simpa [Table.Covers] using ht e' he'

theorem total_putAll {low : Int} {width : Nat} (hnd : (entries.map (·.1)).Nodup)
    (ht : ∀ e ∈ entries, (Table.empty low width : Table Rounded).Covers e.1) :
    Mass.total (putAll entries (Table.empty low width)).cells.toList = Mass.total (entries.map (·.2)) := by
  show Rounded.of _ = Rounded.of _
  rw [sum_value_putAll hnd ht, weigh, List.map_map]
  rfl

def Drifted (entries : List (Int × Rounded)) : Prop :=
  tolerance < Mass.distance (Mass.total (entries.map (·.2))) 1

theorem not_drifted (h : Within n 1 (weigh entries)) (hn : n ≤ maxRoundings) : ¬ Drifted entries := by
  have hsum : 0 ≤ weigh entries := h.nonneg zero_le_one
  have htotal := (h.trans (within_nearest hsum)).abs_sub_one_le (Nat.add_le_add_right hn 1)
  have hvalue : (Mass.total (entries.map (·.2)) : Rounded).value = Rounded.nearest (weigh entries) := by
    rw [Rounded.value_total, List.map_map]
    rfl
  have hdistance : (Mass.distance (Mass.total (entries.map (·.2))) 1 : Rounded).value ≤
      2 * |Rounded.nearest (weigh entries) - 1| := by
    rw [← hvalue]
    unfold Mass.distance
    split
    · rw [abs_sub_comm]
      exact Rounded.nearest_le _
    · exact Rounded.nearest_le _
  have htolerance : 1 / 2000000 < (tolerance : Rounded).value := by decide +kernel
  rw [Drifted, Rounded.lt_iff]
  linarith

/-- Rounded masses get a distribution unless one of them alone is above one or all together are too far from it. -/
theorem ofEntries_eq_ok_iff (hnd : (entries.map (·.1)).Nodup) (hnonneg : NonnegEntries entries)
    (hne : entries ≠ []) (hwide : ¬ TooWide entries) :
    (∃ d, ofEntries entries = .ok d) ↔ (∀ e ∈ entries, e.2 ≤ 1) ∧ ¬ Drifted entries := by
  obtain ⟨low, width, hcovers, -, hmasses⟩ := ofEntries_of_not_tooWide hne hwide
  simp only [hmasses, mapError_ok, ofMasses_eq_ok]
  rw [Drifted, ← total_putAll hnd hcovers]
  constructor
  · rintro ⟨d, haccepted, -⟩
    exact ⟨fun e he => (haccepted.mem_unit e.2 (mem_putAll hnd hcovers he)).2, haccepted.total_near⟩
  · rintro ⟨hle, hdrift⟩
    refine ⟨_, ⟨?_, ?_, hdrift⟩, rfl⟩
    · obtain ⟨e, he⟩ := List.exists_mem_of_ne_nil entries hne
      exact List.ne_nil_of_mem (mem_putAll hnd hcovers he)
    · exact forall_putAll hcovers (fun e he => ⟨hnonneg e he, hle e he⟩) Rounded.zero_mem_unit

theorem ofEntries_eq_value_iff (hnd : (entries.map (·.1)).Nodup) (hnonneg : NonnegEntries entries)
    (hne : entries ≠ []) : (∃ f, ofEntries entries = .error (.value f)) ↔
      ¬ TooWide entries ∧ ((∃ e ∈ entries, 1 < e.2) ∨ Drifted entries) := by
  constructor
  · rintro ⟨f, hf⟩
    have hwide : ¬ TooWide entries := fun hwide => by
      rw [ofEntries_of_tooWide hwide] at hf
      cases hf
    refine ⟨hwide, ?_⟩
    by_contra hsound
    push Not at hsound
    obtain ⟨d, hd⟩ := (ofEntries_eq_ok_iff hnd hnonneg hne hwide).mpr
      ⟨fun e he => not_lt.mp fun hlt : 1 < e.2.value => hsound.1 e he hlt, hsound.2⟩
    rw [hd] at hf
    cases hf
  · rintro ⟨hwide, hfault⟩
    rcases ofEntries_cases entries with hok | ⟨hwide', -⟩ | ⟨-, hvalue⟩
    · obtain ⟨hle, hdrift⟩ := (ofEntries_eq_ok_iff hnd hnonneg hne hwide).mp hok
      rcases hfault with ⟨e, he, hlt⟩ | hdrift'
      · have hlt : 1 < e.2.value := hlt
        exact absurd hlt (not_lt.mpr (hle e he))
      · exact absurd hdrift' hdrift
    · exact absurd hwide' hwide
    · exact hvalue

/-- What masses weigh together is not nothing as long as they were rounded a limited number of times. -/
theorem ne_nil_of_within (h : Within n 1 (weigh entries)) : entries ≠ [] := by
  rintro rfl
  exact absurd h.le_right (not_le.mpr (mul_pos (pow_pos Rounded.keep_pos n) zero_lt_one))

/-- Rounded few enough times, masses never fail for their total. -/
theorem ofEntries_eq_value_iff_of_le (hnd : (entries.map (·.1)).Nodup) (hnonneg : NonnegEntries entries)
    (h : Within n 1 (weigh entries)) (hn : n ≤ maxRoundings) :
    (∃ f, ofEntries entries = .error (.value f)) ↔ ¬ TooWide entries ∧ ∃ e ∈ entries, 1 < e.2 := by
  rw [ofEntries_eq_value_iff hnd hnonneg (ne_nil_of_within h), or_iff_left (not_drifted h hn)]

/-- Beside a mass that rounding took above one there is next to nothing. -/
theorem weigh_erase_le (h : Within n 1 (weigh entries)) (hn : n ≤ maxRoundings) {e : Int × Rounded}
    (he : e ∈ entries) (hlt : 1 < e.2) : weigh (entries.erase e) ≤ 1 / 4000000 := by
  have hsum : weigh entries = e.2.value + weigh (entries.erase e) :=
    ((List.perm_cons_erase he).map _).sum_eq
  have hnear := (abs_le.mp (h.abs_sub_one_le (hn.trans (Nat.le_succ _)))).2
  have hlt : 1 < e.2.value := hlt
  linarith

end Distribution

-- ---------------------------------------------------------------------------
-- Shares of one
-- ---------------------------------------------------------------------------

def copies {α : Type} [Mass α] (n : Nat) (p : α) : α := (List.replicate n p).foldl (· + ·) 0

theorem Rounded.within_copies (n : Nat) {p : Rounded} (hp : 0 ≤ p.value) :
    Within n (n * p.value) (copies n p).value := by
  have hmem : ∀ q ∈ List.replicate n p, 0 ≤ q.value := fun q hq => List.eq_of_mem_replicate hq ▸ hp
  have hfold : Within (1 * (List.replicate n p).length)
      ((0 : Rounded).value + ((List.replicate n p).map value).sum) (copies n p).value :=
    within_foldl (fun q : Rounded => 0 ≤ q.value) 1 _ (le_refl (0 : Rat))
      (fun _ q hq hsum => nearest_nonneg (add_nonneg hsum (hmem q hq))) hmem (fun _ hsum => hsum)
      fun _ q hq hsum => within_nearest (add_nonneg hsum (hmem q hq))
  simpa using hfold

namespace Chains

variable {d : RuledDie}

theorem share_one_pos (d : RuledDie) : 0 < (share d 1).value := by
  have hsides : (0 : Rat) < d.sides := Nat.cast_pos.mpr d.sides_pos
  exact Rounded.nearest_pos (div_pos zero_lt_one (Rounded.nearest_pos hsides))

/-- The shares of all faces but one never come to more than one. -/
theorem copies_share_le_one (hsides : d.sides ≤ maxFairSides) {k : Nat} (hk : k < d.sides) :
    copies k (share d 1) ≤ 1 := by
  have hpos : (0 : Rat) < d.sides := Nat.cast_pos.mpr d.sides_pos
  have hshare := (within_share d (p := 1) zero_le_one).mul_left (Nat.cast_nonneg k)
  have hcopies := (Rounded.within_copies k (share_one_pos d).le).mul_left hpos.le
  rw [mul_left_comm] at hshare
  have hall := ((hshare.trans hcopies).sub_le (by simp)).2
  rw [Rounded.value_one, mul_one] at hall
  have hk' : (k : Rat) + 1 ≤ d.sides := by exact_mod_cast hk
  -- All roundings together lose less than the share of the face that is left out.
  generalize hloss : ((2 + k : Nat) : Rat) * Rounded.roundoff = loss at hall
  have hsmall : d.sides * loss < 1 := by
    have hsides' : (d.sides : Rat) ≤ 100000 := by exact_mod_cast hsides
    have hcount : ((2 + k : Nat) : Rat) ≤ 100001 := by
      push_cast
      linarith
    calc d.sides * loss ≤ 100000 * (100001 * Rounded.roundoff) := by
          rw [← hloss]
          have := Rounded.roundoff_pos.le
          gcongr
      _ < 1 := by norm_num [Rounded.roundoff]
  refine not_lt.mp fun hlt : 1 < (copies k (share d 1)).value => ?_
  have hone : (1 : Rat) ≤ d.sides := by exact_mod_cast d.sides_pos
  have hkept : 0 < 1 - loss := by
    by_contra hle
    have := mul_le_mul_of_nonneg_left (show (1 : Rat) ≤ loss by linarith) hpos.le
    linarith
  have hmore := mul_lt_mul_of_pos_left (lt_mul_of_one_lt_right hpos hlt) hkept
  rw [sub_mul, one_mul, mul_comm loss] at hmore
  linarith

end Chains

-- ---------------------------------------------------------------------------
-- Faces that are mapped
-- ---------------------------------------------------------------------------

namespace RuledDie

variable {d : RuledDie}

def facesOf (d : RuledDie) (value : Int) : Nat :=
  d.faces.countP fun face => (d.mapTotal face).value == value

def sharedFaces (d : RuledDie) : List (Int × Rounded) :=
  d.faces.map fun face => (face, Chains.share d 1)

theorem mapMasses_sharedFaces (d : RuledDie) : d.mapMasses d.sharedFaces =
    (Pool.ofEntries (d.faces.map fun face => ((d.mapTotal face).value, Chains.share d 1))).entries := by
  rw [mapMasses, sharedFaces, List.map_map]
  rfl

theorem mass_sharedFaces (d : RuledDie) (value : Int) :
    (Pool.ofEntries (d.faces.map fun face => ((d.mapTotal face).value, Chains.share d 1))).mass value =
      copies (d.facesOf value) (Chains.share d 1) := by
  rw [Pool.mass_ofEntries, List.filter_map, List.map_map, copies, facesOf, List.countP_eq_length_filter]
  exact congrArg (List.foldl (· + ·) 0) List.map_const'

theorem mem_mapMasses_sharedFaces {e : Int × Rounded} (he : e ∈ d.mapMasses d.sharedFaces) :
    e.2 = copies (d.facesOf e.1) (Chains.share d 1) := by
  rw [mapMasses_sharedFaces] at he
  obtain ⟨value, -, rfl⟩ := List.mem_map.mp he
  exact d.mass_sharedFaces value

theorem exists_mapMasses_sharedFaces {face : Int} (hface : face ∈ d.faces) :
    ((d.mapTotal face).value, copies (d.facesOf (d.mapTotal face).value) (Chains.share d 1)) ∈
      d.mapMasses d.sharedFaces := by
  have hlisted : ((d.mapTotal face).value, Chains.share d 1) ∈
      d.faces.map fun face => ((d.mapTotal face).value, Chains.share d 1) :=
    List.mem_map.mpr ⟨face, hface, rfl⟩
  rw [mapMasses_sharedFaces, ← mass_sharedFaces]
  exact List.mem_map.mpr ⟨_, Pool.mem_keys_ofEntries hlisted, rfl⟩

theorem value_of_mem_mapMasses_sharedFaces {e : Int × Rounded} (he : e ∈ d.mapMasses d.sharedFaces) :
    ∃ face ∈ d.faces, (d.mapTotal face).value = e.1 := by
  rw [mapMasses_sharedFaces] at he
  obtain ⟨value, hvalue, rfl⟩ := List.mem_map.mp he
  obtain ⟨e', he', rfl⟩ := Pool.exists_of_mem_keys_ofEntries hvalue
  obtain ⟨face, hface, rfl⟩ := List.mem_map.mp he'
  exact ⟨face, hface, rfl⟩

theorem nonneg_sharedFaces (d : RuledDie) : NonnegEntries d.sharedFaces := by
  intro e he
  obtain ⟨face, -, rfl⟩ := List.mem_map.mp he
  exact (Chains.share_one_pos d).le

theorem within_sharedFaces (d : RuledDie) : Within 2 1 (weigh d.sharedFaces) := by
  have hshare := Chains.within_share d (p := 1) zero_le_one
  simpa [weigh, sharedFaces, Function.comp_def] using hshare

theorem facesOf_le (d : RuledDie) (value : Int) : d.facesOf value ≤ d.sides :=
  List.countP_le_length.trans_eq d.length_faces

theorem facesOf_eq_iff (d : RuledDie) (value : Int) :
    d.facesOf value = d.sides ↔ ∀ face ∈ d.faces, (d.mapTotal face).value = value := by
  rw [facesOf, ← d.length_faces, List.countP_eq_length]
  simp only [beq_iff_eq]

-- ---------------------------------------------------------------------------
-- Refused dice
-- ---------------------------------------------------------------------------

/-- The odds that a die works out do not pass the checks of listed masses. -/
def IsRefused (d : RuledDie) : Prop :=
  ∃ f, (d.odds : Except Fault (Odds Rounded)) = .error (.value f)

theorem odds_of_sharedFaces (hsides : d.sides ≤ maxFairSides) (hrerolls : d.rerolls.isEmpty)
    (hmaps : d.maps.isEmpty = false) : (d.odds : Except Fault (Odds Rounded)) =
      (Distribution.ofEntries (d.mapMasses d.sharedFaces)).map fun p => ⟨p, true⟩ := by
  have hentries : (Distribution.ofCells 1 (List.replicate d.sides (Chains.share d 1))).entries =
      d.sharedFaces := by
    have hzero : (Chains.share d 1 == 0) = false := by
      rw [beq_eq_false_iff_ne]
      intro hzero
      exact (Chains.share_one_pos d).ne' (congrArg Rounded.value hzero)
    rw [Distribution.entries_replicate 1 d.sides_pos hzero (Chains.share_one_pos d), sharedFaces, Die.faces,
      List.map_map]
    simp [Function.comp_def, add_comm]
  rw [odds_of_mapped hrerolls hmaps (fair_of_le hsides), ← hentries]
  rfl

theorem refused_of_map {entries : List (Int × Rounded)} {complete : Bool}
    (h : (d.odds : Except Fault (Odds Rounded)) =
      (Distribution.ofEntries entries).map fun p => ⟨p, complete⟩) :
    d.IsRefused ↔ ∃ f, Distribution.ofEntries entries = .error (.value f) := by
  rw [IsRefused, h]
  cases Distribution.ofEntries entries <;> simp [Except.map]

/-- Without rerolls a die is refused when all of its faces are mapped to one value and their
shares come to more than one. -/
theorem refused_iff_of_isEmpty (hsides : d.sides ≤ maxFairSides) (hrerolls : d.rerolls.isEmpty) :
    d.IsRefused ↔ d.maps.isEmpty = false ∧
      (∃ value, ∀ face ∈ d.faces, (d.mapTotal face).value = value) ∧
        1 < copies d.sides (Chains.share d 1) := by
  cases hmaps : d.maps.isEmpty with
  | true =>
    simp [IsRefused, odds_of_unmapped hrerolls hmaps (fair_of_le hsides)]
  | false =>
    have hlength : d.sharedFaces.length = d.sides := by simp [sharedFaces]
    have hdrift := d.within_sharedFaces.trans (d.within_mapMasses d.nonneg_sharedFaces)
    have hroundings : 2 + d.sharedFaces.length ≤ maxRoundings := by
      have : maxFairSides + 2 ≤ maxRoundings := by decide
      omega
    rw [refused_of_map (odds_of_sharedFaces hsides hrerolls hmaps),
      Distribution.ofEntries_eq_value_iff_of_le (d.nodup_mapMasses _) (d.nonneg_mapMasses d.nonneg_sharedFaces)
        hdrift hroundings]
    constructor
    · rintro ⟨-, e, he, hlt⟩
      rw [mem_mapMasses_sharedFaces he] at hlt
      -- A value that leaves out a face has a mass of one at most.
      have hall : d.facesOf e.1 = d.sides := by
        refine le_antisymm (d.facesOf_le e.1) (not_lt.mp fun hfew => ?_)
        have hle : (copies (d.facesOf e.1) (Chains.share d 1)).value ≤ 1 :=
          Chains.copies_share_le_one hsides hfew
        exact absurd hlt (not_lt.mpr hle)
      rw [hall] at hlt
      exact ⟨rfl, ⟨e.1, (d.facesOf_eq_iff e.1).mp hall⟩, hlt⟩
    · rintro ⟨-, ⟨value, hvalue⟩, hlt⟩
      constructor
      · rintro ⟨e, he, e', he', hwide⟩
        obtain ⟨face, hface, h⟩ := value_of_mem_mapMasses_sharedFaces he
        obtain ⟨face', hface', h'⟩ := value_of_mem_mapMasses_sharedFaces he'
        rw [← h, ← h', hvalue face hface, hvalue face' hface', sub_self] at hwide
        exact absurd hwide (by decide)
      · have hface := d.sides_mem_faces
        have hmem := exists_mapMasses_sharedFaces hface
        rw [hvalue _ hface, (d.facesOf_eq_iff value).mpr hvalue] at hmem
        exact ⟨_, hmem, hlt⟩

theorem refused_iff_of_rerolls (hrerolls : d.rerolls.isEmpty = false) :
    d.IsRefused ↔ ¬ TooWide (d.listedMasses Rounded) ∧
      ((∃ e ∈ d.listedMasses Rounded, 1 < e.2) ∨ Distribution.Drifted (d.listedMasses Rounded)) := by
  rw [refused_of_map (odds_of_chains rfl hrerolls)]
  exact Distribution.ofEntries_eq_value_iff d.nodup_listedMasses d.nonneg_listedMasses
    (Distribution.ne_nil_of_within d.within_listedMasses)

theorem odds_cases_rounded (d : RuledDie) : (∃ o : Odds Rounded, d.odds = .ok o) ∨
    (∃ f, (d.odds : Except Fault (Odds Rounded)) = .error (.limit f)) ∨ d.IsRefused := by
  rcases d.odds_cases (α := Rounded) with h | h | h | ⟨-, hholds, -⟩
  · exact .inl h
  · exact .inr (.inl h)
  · exact .inr (.inr h)
  · cases hholds

/-- A die has odds or meets a limit, unless it is refused for its own masses. Without rerolls that takes one
value for all faces and shares that come to more than one. With rerolls it takes a listed mass above one, or
a total that has drifted too far from one; if not too many masses were rounded it never is the total, and all
masses beside one above one are next to nothing. -/
theorem odds_refused_iff (hsides : d.sides ≤ maxFairSides) :
    ((∃ o : Odds Rounded, d.odds = .ok o) ∨
      (∃ f, (d.odds : Except Fault (Odds Rounded)) = .error (.limit f)) ∨ d.IsRefused) ∧
    (d.rerolls.isEmpty → (d.IsRefused ↔ d.maps.isEmpty = false ∧
      (∃ value, ∀ face ∈ d.faces, (d.mapTotal face).value = value) ∧
        1 < copies d.sides (Chains.share d 1))) ∧
    (d.rerolls.isEmpty = false →
      (d.IsRefused ↔ ¬ TooWide (d.listedMasses Rounded) ∧
        ((∃ e ∈ d.listedMasses Rounded, 1 < e.2) ∨ Distribution.Drifted (d.listedMasses Rounded)))) ∧
    (d.rerolls.isEmpty = false → d.roundings ≤ maxRoundings →
      (d.IsRefused ↔ ¬ TooWide (d.listedMasses Rounded) ∧ ∃ e ∈ d.listedMasses Rounded, 1 < e.2) ∧
        ∀ e ∈ d.listedMasses Rounded, 1 < e.2 →
          weigh ((d.listedMasses Rounded).erase e) ≤ 1 / 4000000) := by
  refine ⟨d.odds_cases_rounded, refused_iff_of_isEmpty hsides, refused_iff_of_rerolls,
    fun hrerolls hroundings => ⟨?_, fun e he hlt => ?_⟩⟩
  · rw [refused_iff_of_rerolls hrerolls,
      or_iff_left (Distribution.not_drifted d.within_listedMasses hroundings)]
  · exact Distribution.weigh_erase_le d.within_listedMasses hroundings he hlt

def surely (sides : Nat) (h : 0 < sides) : RuledDie :=
  { sides, sides_pos := h, maps := [⟨.compares .le 1, { value := 1 }⟩] }

theorem odds_refused_iff_surely :
    (surely 9 (by decide)).IsRefused ∧ ¬ (surely 6 (by decide)).IsRefused := by
  constructor
  · refine ((odds_refused_iff (d := surely 9 (by decide)) (by decide)).2.1 rfl).mpr ⟨rfl, ⟨1, ?_⟩, ?_⟩
    · decide
    · decide +kernel
  · intro h
    have hlt := (((odds_refused_iff (d := surely 6 (by decide)) (by decide)).2.1 rfl).mp h).2.2
    exact absurd hlt (by decide +kernel)

end RuledDie

end TabletopDice
