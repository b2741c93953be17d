import Mathlib.Data.Int.ConditionallyCompleteOrder
import Mathlib.Data.Int.Interval
import TabletopDice.Proofs.Odds.Cells

/-!
# Distributions as laws

What a distribution is made of, read as a law: the masses listed for single
results, the faces of a fair die, and the results on one side of a bound, whose
masses are scaled to their share.
-/

namespace TabletopDice.Distribution

section
variable {α : Type} [Mass α]

instance [DecidableEq α] : DecidableEq (Distribution α) := fun d e =>
  decidable_of_iff (d.low = e.low ∧ d.masses = e.masses) (by cases d; cases e; simp)

-- ---------------------------------------------------------------------------
-- Ends
-- ---------------------------------------------------------------------------

theorem foldl_bounds_spec (ns : List Int) (ends : Int × Int) :
    (ns.foldl (fun ends n => (min ends.1 n, max ends.2 n)) ends).1 ∈ ends.1 :: ns ∧
      (ns.foldl (fun ends n => (min ends.1 n, max ends.2 n)) ends).2 ∈ ends.2 :: ns ∧
      (∀ n ∈ ends.1 :: ns, (ns.foldl (fun ends n => (min ends.1 n, max ends.2 n)) ends).1 ≤ n) ∧
      ∀ n ∈ ends.2 :: ns, n ≤ (ns.foldl (fun ends n => (min ends.1 n, max ends.2 n)) ends).2 := by
  induction ns generalizing ends with
  | nil => simp
  | cons n ns ih =>
    obtain ⟨hlow, hhigh, hle, hge⟩ := ih (min ends.1 n, max ends.2 n)
    simp only [List.foldl_cons, List.mem_cons, forall_eq_or_imp] at hlow hhigh hle hge ⊢
    refine ⟨?_, ?_, ⟨by omega, by omega, hle.2⟩, by omega, by omega, hge.2⟩
    · rcases hlow with hlow | hlow
      · rw [hlow]
        rcases min_choice ends.1 n with hm | hm <;> simp [hm]
      · exact .inr (.inr hlow)
    · rcases hhigh with hhigh | hhigh
      · rw [hhigh]
        rcases max_choice ends.2 n with hm | hm <;> simp [hm]
      · exact .inr (.inr hhigh)

theorem bounds_le (first : Int) (more : List Int) {n : Int} (hn : n ∈ first :: more) :
    (bounds first more).1 ≤ n ∧ n ≤ (bounds first more).2 := by
  obtain ⟨-, -, hle, hge⟩ := foldl_bounds_spec more (first, first)
  exact ⟨hle n hn, hge n hn⟩

theorem bounds_mem (first : Int) (more : List Int) :
    (bounds first more).1 ∈ first :: more ∧ (bounds first more).2 ∈ first :: more := by
  obtain ⟨hlow, hhigh, -, -⟩ := foldl_bounds_spec more (first, first)
  exact ⟨hlow, hhigh⟩

theorem width_pos (d : Distribution α) : 0 < d.width :=
  List.length_pos_iff.mpr d.trimmed.ne_nil

theorem mem_cells {d : Distribution α} {o : Int × α} :
    o ∈ d.cells ↔ d.low ≤ o.1 ∧ d.masses[(o.1 - d.low).toNat]? = some o.2 := by
  simp only [cells, List.mem_mapIdx]
  constructor
  · rintro ⟨i, hi, rfl⟩
    simp [hi]
  · rintro ⟨hlow, hp⟩
    obtain ⟨hlt, hp⟩ := List.getElem?_eq_some_iff.mp hp
    exact ⟨_, hlt, Prod.ext (by simp; omega) hp⟩

theorem cells_within {d : Distribution α} {o : Int × α} (h : o ∈ d.cells) :
    d.low ≤ o.1 ∧ o.1 ≤ d.high := by
  obtain ⟨hlow, hp⟩ := mem_cells.mp h
  obtain ⟨hlt, -⟩ := List.getElem?_eq_some_iff.mp hp
  exact ⟨hlow, by unfold high width; omega⟩

theorem entries_within {d : Distribution α} {o : Int × α} (h : o ∈ d.entries) : d.low ≤ o.1 ∧ o.1 ≤ d.high :=
  cells_within (List.mem_of_mem_filter h)

theorem mass_of_mem_cells {d : Distribution α} {o : Int × α} (h : o ∈ d.cells) :
    d.mass o.1 = o.2 := by
  obtain ⟨hlow, hp⟩ := mem_cells.mp h
  rw [mass, if_neg (by omega), hp]
  rfl

-- ---------------------------------------------------------------------------
-- Listed masses
-- ---------------------------------------------------------------------------

theorem checkMass_eq_ok {p q : α} : checkMass p = .ok q ↔ q = p ∧ 0 ≤ p ∧ p ≤ 1 := by
  unfold checkMass
  split
  · rename_i hp
    simp [hp, eq_comm]
  · rename_i hp
    simp [hp]

theorem mapM_checkMass_eq_ok {ps qs : List α} :
    ps.mapM checkMass = .ok qs ↔ qs = ps ∧ ∀ p ∈ ps, 0 ≤ p ∧ p ≤ 1 := by
  constructor
  · intro h
    have hself : ps = qs :=
      List.forall₂_eq_eq_eq ▸ (mapM_ok h).imp fun _ _ hq => (checkMass_eq_ok.mp hq).1.symm
    refine ⟨hself.symm, fun p hp => ?_⟩
    obtain ⟨i, hi⟩ := List.mem_iff_getElem?.mp hp
    obtain ⟨q, hq, -⟩ := mapM_ok_getElem? h hi
    exact (checkMass_eq_ok.mp hq).2
  · rintro ⟨rfl, h⟩
    exact mapM_self fun p hp => checkMass_eq_ok.mpr ⟨rfl, h p hp⟩

structure Accepted (ps : List α) : Prop where
  ne_nil : ps ≠ []
  mem_unit : ∀ p ∈ ps, 0 ≤ p ∧ p ≤ 1
  total_near : ¬ tolerance < Mass.distance (Mass.total ps) 1

theorem ofMasses_eq_ok {low : Int} {ps : List α} {d : Distribution α} :
    ofMasses low ps = .ok d ↔ Accepted ps ∧ d = ofCells low ps := by
  simp only [ofMasses, error_bind, unless_ok, bind_ok, pure_ok, mapM_checkMass_eq_ok, checkTotal]
  constructor
  · rintro ⟨hne, _, ⟨rfl, hunit⟩, _, ⟨htotal, -⟩, rfl⟩
    exact ⟨⟨fun h => hne (by simp [h]), hunit, htotal⟩, rfl⟩
  · rintro ⟨h, rfl⟩
    exact ⟨by simpa using h.ne_nil, ps, ⟨rfl, h.mem_unit⟩, (), ⟨h.total_near, trivial⟩, rfl⟩

theorem mem_ofCells {low : Int} {ps : List α} {p : α} (hp : p ∈ (ofCells low ps).masses) :
    p = 0 ∨ p ∈ ps := by
  rcases eq_or_ne ps [] with rfl | h
  · exact .inl (List.mem_singleton.mp hp)
  · obtain ⟨before, after, hps, -⟩ := ofCells_split low h
    rw [hps]
    exact .inr (List.mem_append_left _ (List.mem_append_right _ hp))

def putAll (entries : List (Int × α)) (t : Table α) : Table α :=
  entries.foldl (fun t e => t.put e.1 e.2) t

omit [Mass α] in
theorem low_putAll (entries : List (Int × α)) (t : Table α) : (putAll entries t).low = t.low := by
  induction entries generalizing t with
  | nil => rfl
  | cons e es ih => exact (ih _).trans (Table.low_change ..)

omit [Mass α] in
theorem size_putAll (entries : List (Int × α)) (t : Table α) :
    (putAll entries t).cells.size = t.cells.size := by
  induction entries generalizing t with
  | nil => rfl
  | cons e es ih => exact (ih _).trans (Table.size_change ..)

omit [Mass α] in
theorem covers_put {t : Table α} {r s : Int} {p : α} : (t.put r p).Covers s ↔ t.Covers s := by
  simp [Table.Covers, Table.put]

theorem mass_putAll_of_not_mem {entries : List (Int × α)} {t : Table α} {r : Int}
    (hr : r ∉ entries.map (·.1)) (ht : ∀ e ∈ entries, t.Covers e.1) :
    (putAll entries t).mass r = t.mass r := by
  induction entries generalizing t with
  | nil => rfl
  | cons e es ih =>
    simp only [List.map_cons, List.mem_cons, not_or] at hr
    refine (ih hr.2 fun e' he' => covers_put.mpr (ht e' (by simp [he']))).trans ?_
    rw [Table.put, Table.mass_change (ht e (by simp)), if_neg hr.1]

theorem mass_putAll {entries : List (Int × α)} {t : Table α} (hnd : (entries.map (·.1)).Nodup)
    (ht : ∀ e ∈ entries, t.Covers e.1) {e : Int × α} (he : e ∈ entries) :
    (putAll entries t).mass e.1 = e.2 := by
  induction entries generalizing t with
  | nil => cases he
  | cons e' es ih =>
    rw [List.map_cons, List.nodup_cons] at hnd
    have hes : ∀ e ∈ es, (t.put e'.1 e'.2).Covers e.1 := fun e he =>
      covers_put.mpr (ht e (by simp [he]))
    rcases List.mem_cons.mp he with rfl | he
    · refine (mass_putAll_of_not_mem hnd.1 hes).trans ?_
      rw [Table.put, Table.mass_change (ht e (by simp)), if_pos rfl]
    · exact ih hnd.2 hes he

theorem mem_putAll {entries : List (Int × α)} {t : Table α} (hnd : (entries.map (·.1)).Nodup)
    (ht : ∀ e ∈ entries, t.Covers e.1) {e : Int × α} (he : e ∈ entries) :
    e.2 ∈ (putAll entries t).cells.toList := by
  have hcell := ((ht e he).of_eq (low_putAll entries t) (size_putAll entries t)).getElem?
  rw [mass_putAll hnd ht he] at hcell
  exact List.mem_of_getElem? hcell

theorem forall_putAll {entries : List (Int × α)} {low : Int} {width : Nat} {P : α → Prop}
    (ht : ∀ e ∈ entries, (Table.empty low width : Table α).Covers e.1)
    (hentries : ∀ e ∈ entries, P e.2) (hzero : P 0) :
    ∀ p ∈ (putAll entries (Table.empty low width)).cells.toList, P p := by
  have hcells : ∀ p ∈ (Table.empty low width : Table α).cells.toList, P p := by
    intro p hp
    rw [Table.empty, Array.toList_replicate] at hp
    exact List.eq_of_mem_replicate hp ▸ hzero
  generalize (Table.empty low width : Table α) = t at ht hcells ⊢
  induction entries generalizing t with
  | nil => exact hcells
  | cons e es ih =>
    rw [List.forall_mem_cons] at ht hentries
    refine ih hentries.2 (t.put e.1 e.2) (fun e' he' => covers_put.mpr (ht.2 e' he')) fun p hp => ?_
    have hchange := Table.toList_change ht.1 fun _ => e.2
    rw [show (t.put e.1 e.2).cells.toList = _ from hchange] at hp
    obtain ⟨i, hi⟩ := List.mem_iff_getElem?.mp hp
    rw [List.getElem?_modify] at hi
    split at hi
    · obtain ⟨q, -, rfl⟩ := Option.map_eq_some_iff.mp hi
      exact hentries.1
    · exact hcells p (List.mem_of_getElem? (by simpa using hi))

def TooWide (entries : List (Int × α)) : Prop :=
  ∃ e ∈ entries, ∃ e' ∈ entries, maxOutcomes < e'.1 - e.1 + 1

theorem ofEntries_of_tooWide {entries : List (Int × α)} (h : TooWide entries) :
    ofEntries entries = .error (.limit .resultsTooWide) := by
  obtain ⟨e, he, e', he', hwide⟩ := h
  cases entries with
  | nil => cases he
  | cons first more =>
    have hlow := bounds_le first.1 (more.map (·.1)) (List.mem_map_of_mem he)
    have hhigh := bounds_le first.1 (more.map (·.1)) (List.mem_map_of_mem he')
    have hspan : maxOutcomes <
        (bounds first.1 (more.map (·.1))).2 - (bounds first.1 (more.map (·.1))).1 + 1 := by omega
    simp only [ofEntries, hspan, if_true]
    rfl

/-- Results that are not too far apart get a table with a cell for each, and its cells are checked. -/
theorem ofEntries_of_not_tooWide {entries : List (Int × α)} (hne : entries ≠ [])
    (h : ¬ TooWide entries) : ∃ low width,
      (∀ e ∈ entries, (Table.empty low width : Table α).Covers e.1) ∧
        (∃ e ∈ entries, low + width = e.1 + 1) ∧
        ofEntries entries =
          (ofMasses low (putAll entries (Table.empty low width)).cells.toList).mapError .value := by
  cases entries with
  | nil => exact absurd rfl hne
  | cons first more =>
    have hends : ∀ e ∈ first :: more, (bounds first.1 (more.map (·.1))).1 ≤ e.1 ∧
        e.1 ≤ (bounds first.1 (more.map (·.1))).2 := fun e he =>
      bounds_le first.1 (more.map (·.1)) (List.mem_map_of_mem he)
    have hmem := bounds_mem first.1 (more.map (·.1))
    obtain ⟨e, he, hlow⟩ := List.mem_map.mp (show _ ∈ (first :: more).map (·.1) from hmem.1)
    obtain ⟨e', he', hhigh⟩ := List.mem_map.mp (show _ ∈ (first :: more).map (·.1) from hmem.2)
    have hspan : ¬ maxOutcomes <
        (bounds first.1 (more.map (·.1))).2 - (bounds first.1 (more.map (·.1))).1 + 1 := fun hwide =>
      h ⟨e, he, e', he', by omega⟩
    simp only [ofEntries, hspan, if_false]
    generalize bounds first.1 (more.map (·.1)) = ends at hends hhigh
    refine ⟨ends.1, (ends.2 - ends.1 + 1).toNat, fun e he => ?_, ⟨e', he', ?_⟩, rfl⟩
    · have := hends e he
      simp only [Table.Covers, Table.low_empty, Table.size_empty]
      omega
    · have := hends e' he'
      omega

theorem ofEntries_cases (es : List (Int × α)) : (∃ d, ofEntries es = .ok d) ∨
    (TooWide es ∧ ofEntries es = .error (.limit .resultsTooWide)) ∨
      (¬ TooWide es ∧ ∃ f, ofEntries es = .error (.value f)) := by
  rcases eq_or_ne es [] with rfl | hne
  · exact .inr (.inr ⟨by simp [TooWide], _, rfl⟩)
  · by_cases hwide : TooWide es
    · exact .inr (.inl ⟨hwide, ofEntries_of_tooWide hwide⟩)
    · obtain ⟨low, width, -, -, hmasses⟩ := ofEntries_of_not_tooWide hne hwide
      rw [hmasses]
      cases ofMasses low (putAll es (Table.empty low width)).cells.toList with
      | error f => exact .inr (.inr ⟨hwide, f, rfl⟩)
      | ok d => exact .inl ⟨d, rfl⟩

/-- A distribution of listed masses holds them in a table that has a cell for each. -/
theorem ofEntries_ok {entries : List (Int × α)} {d : Distribution α}
    (h : ofEntries entries = .ok d) :
    ∃ low width, (∀ e ∈ entries, (Table.empty low width : Table α).Covers e.1) ∧
      d = ofTable (putAll entries (Table.empty low width)) ∧
      Accepted (putAll entries (Table.empty low width)).cells.toList ∧
      ∃ e ∈ entries, low + width = e.1 + 1 := by
  have hne : entries ≠ [] := by
    rintro rfl
    cases h
  have hwide : ¬ TooWide entries := fun hwide => by
    rw [ofEntries_of_tooWide hwide] at h
    cases h
  obtain ⟨low, width, hcovers, hhigh, hmasses⟩ := ofEntries_of_not_tooWide hne hwide
  rw [hmasses, mapError_ok, ofMasses_eq_ok] at h
  obtain ⟨haccepted, rfl⟩ := h
  refine ⟨low, width, hcovers, ?_, haccepted, hhigh⟩
  rw [ofTable, low_putAll, Table.low_empty]

theorem ofCells_within (low : Int) {ps : List α} {i : Nat} {p : α} (h : ps[i]? = some p)
    (hp : (p == 0) = false) :
    (ofCells low ps).low ≤ low + i ∧ low + i ≤ (ofCells low ps).high := by
  have hne : ps ≠ [] := by
    rintro rfl
    cases h
  obtain ⟨before, after, hps, hlow, hbefore, hafter⟩ := ofCells_split low hne
  have hzero : ∀ {qs : List α}, Mass.AllZero qs → p ∉ qs := fun hqs hmem => by
    rw [hqs p hmem] at hp
    cases hp
  have hmin : before.length ≤ i := by
    by_contra hlt
    rw [hps, List.append_assoc, List.getElem?_append_left (by omega)] at h
    exact hzero hbefore (List.mem_of_getElem? h)
  have hmax : i < before.length + (ofCells low ps).masses.length := by
    by_contra hge
    rw [hps, List.getElem?_append_right (by rw [List.length_append]; omega)] at h
    exact hzero hafter (List.mem_of_getElem? h)
  unfold high width
  omega

/-- Equal masses have nothing to trim, so each result has its entry. -/
theorem entries_replicate (low : Int) {n : Nat} (hn : 0 < n) {p : α} (hzero : (p == 0) = false)
    (hp : 0 < p) :
    (ofCells low (List.replicate n p)).entries = (List.range n).map fun (i : Nat) => (low + i, p) := by
  obtain ⟨before, after, hmasses, hlow, hbefore, hafter⟩ :=
    ofCells_split low (show List.replicate n p ≠ [] by simp; omega)
  have hnil : ∀ zs : List α, Mass.AllZero zs → (∀ q ∈ zs, q ∈ List.replicate n p) → zs = [] := by
    intro zs hzs hmem
    refine List.eq_nil_iff_forall_not_mem.mpr fun q hq => ?_
    have hq0 := hzs q hq
    rw [List.eq_of_mem_replicate (hmem q hq), hzero] at hq0
    cases hq0
  obtain rfl := hnil before hbefore fun q hq => by
    rw [hmasses]
    simp [hq]
  obtain rfl := hnil after hafter fun q hq => by
    rw [hmasses]
    simp [hq]
  rw [List.nil_append, List.append_nil] at hmasses
  have hcells : (ofCells low (List.replicate n p)).cells =
      (List.range n).map fun (i : Nat) => (low + i, p) := by
    rw [cells, hlow, ← hmasses]
    exact List.ext_getElem (by simp) fun i _ _ => by simp
  rw [entries, hcells, List.filter_eq_self]
  intro e he
  obtain ⟨i, -, rfl⟩ := List.mem_map.mp he
  exact decide_eq_true hp

theorem ofEntries_within {entries : List (Int × α)} {d : Distribution α}
    (h : ofEntries entries = .ok d) (hnd : (entries.map (·.1)).Nodup) {e : Int × α}
    (he : e ∈ entries) (hp : (e.2 == 0) = false) : d.low ≤ e.1 ∧ e.1 ≤ d.high := by
  obtain ⟨low, width, ht, rfl, -, -⟩ := ofEntries_ok h
  have hcovers := (ht e he).of_eq (low_putAll entries _) (size_putAll entries _)
  have hcell := hcovers.getElem?
  rw [mass_putAll hnd ht he] at hcell
  have hwithin := ofCells_within (putAll entries (Table.empty low width)).low hcell hp
  rwa [Int.toNat_of_nonneg (by have := hcovers.1; omega), add_sub_cancel] at hwithin

theorem ofEntries_high_le {entries : List (Int × α)} {d : Distribution α}
    (h : ofEntries entries = .ok d) {most : Int} (hmost : ∀ e ∈ entries, e.1 ≤ most) :
    d.high ≤ most := by
  obtain ⟨low, width, ht, rfl, -, e, he, hwidth⟩ := ofEntries_ok h
  have hsize : (putAll entries (Table.empty low width)).cells.toList.length = width := by
    rw [Array.length_toList, size_putAll, Table.size_empty]
  have hpos : 0 < width := by
    obtain ⟨hlow, hhigh⟩ := ht e he
    rw [Table.size_empty] at hhigh
    omega
  obtain ⟨before, after, hcells, hlow, -⟩ :=
    ofCells_split low (List.length_pos_iff.mp (hsize.symm ▸ hpos))
  have hlen := congrArg List.length hcells
  rw [hsize, List.length_append, List.length_append] at hlen
  have := hmost e he
  rw [ofTable, low_putAll, Table.low_empty, high, Distribution.width, hlow]
  omega

-- ---------------------------------------------------------------------------
-- Targets beyond the ends
-- ---------------------------------------------------------------------------

theorem atLeast_max (d : Distribution α) (t : Int) : d.atLeast (max t d.low) = d.atLeast t := by
  rcases le_total t d.low with h | h
  · rw [max_eq_right h, atLeast, if_pos le_rfl, atLeast, if_pos h]
  · rw [max_eq_left h]

theorem atMost_min (d : Distribution α) (t : Int) : d.atMost (min t d.high) = d.atMost t := by
  rcases le_total t d.high with h | h
  · rw [min_eq_left h]
  · rw [min_eq_right h, atMost, if_pos le_rfl, atMost, if_pos h]

end

-- ---------------------------------------------------------------------------
-- Laws of listed masses
-- ---------------------------------------------------------------------------

theorem mean_putAll {entries : List (Int × Rat)} {t : Table Rat}
    (hnd : (entries.map (·.1)).Nodup) (ht : ∀ e ∈ entries, t.Covers e.1)
    (hzero : ∀ e ∈ entries, t.mass e.1 = 0) (f : Int → Rat) :
    (putAll entries t).law.mean f = t.law.mean f + Law.mean ⟨entries⟩ f := by
  induction entries generalizing t with
  | nil => simp [putAll]
  | cons e es ih =>
    rw [List.map_cons, List.nodup_cons] at hnd
    have he := ht e (by simp)
    refine (ih hnd.2 (fun e' he' => covers_put.mpr (ht e' (by simp [he']))) ?_).trans ?_
    · intro e' he'
      have hne : e'.1 ≠ e.1 := fun h => hnd.1 (h ▸ List.mem_map_of_mem he')
      rw [Table.put, Table.mass_change he, if_neg hne, hzero e' (by simp [he'])]
    · rw [Table.put, Table.mean_change he, hzero e (by simp), Law.mean_mk_cons]
      ring

theorem mean_ofEntries {entries : List (Int × Rat)} {d : Distribution Rat}
    (h : ofEntries entries = .ok d) (hnd : (entries.map (·.1)).Nodup) (f : Int → Rat) :
    d.law.mean f = Law.mean ⟨entries⟩ f := by
  obtain ⟨low, width, ht, rfl, -, -⟩ := ofEntries_ok h
  rw [mean_ofTable, mean_putAll hnd ht fun e _ => Table.mass_empty low width e.1,
    Table.mean_law_empty, zero_add]

theorem sum_eq_mean_cells (low : Int) (ps : List Rat) :
    ps.sum = (Law.cells low ps).mean fun _ => 1 := by
  induction ps generalizing low with
  | nil => rfl
  | cons p ps ih => rw [List.sum_cons, Law.mean_cells_cons, ih (low + 1), mul_one]

/-- Cells that were filled hold together what was listed. -/
theorem sum_putAll {entries : List (Int × Rat)} {low : Int} {width : Nat}
    (hnd : (entries.map (·.1)).Nodup)
    (ht : ∀ e ∈ entries, (Table.empty low width : Table Rat).Covers e.1) :
    (putAll entries (Table.empty low width)).cells.toList.sum = (entries.map (·.2)).sum := by
  have hmean := mean_putAll hnd ht (fun e _ => Table.mass_empty _ _ e.1) fun _ => 1
  rw [Table.mean_law_empty, zero_add, Table.law, low_putAll, ← sum_eq_mean_cells] at hmean
  exact hmean.trans (by simp [Law.mean])

theorem ofMasses_of_sum {low : Int} {ps : List Rat} (h : ∀ p ∈ ps, 0 ≤ p) (hsum : ps.sum = 1) :
    ofMasses low ps = .ok (ofCells low ps) := by
  refine ofMasses_eq_ok.mpr ⟨⟨?_, fun p hp => ⟨h p hp, hsum ▸ List.single_le_sum h p hp⟩, ?_⟩, rfl⟩
  · rintro rfl
    cases hsum
  · have htotal : Mass.total ps = 1 := (List.sum_eq_foldr).symm.trans hsum
    rw [htotal]
    decide +kernel

/-- Masses that add up to one make a distribution, unless it has too many results. -/
theorem exists_ofEntries_of_not_tooWide {entries : List (Int × Rat)} (hwide : ¬ TooWide entries)
    (hnd : (entries.map (·.1)).Nodup) (h : ∀ e ∈ entries, 0 ≤ e.2)
    (hsum : (entries.map (·.2)).sum = 1) : ∃ d, ofEntries entries = .ok d := by
  have hne : entries ≠ [] := by
    rintro rfl
    cases hsum
  obtain ⟨first, width, hcovers, -, hmasses⟩ := ofEntries_of_not_tooWide hne hwide
  rw [hmasses]
  exact ⟨_, mapError_ok.mpr
    (ofMasses_of_sum (forall_putAll hcovers h le_rfl) ((sum_putAll hnd hcovers).trans hsum))⟩

theorem exists_ofEntries {entries : List (Int × Rat)} {low high : Int}
    (hends : ∀ e ∈ entries, low ≤ e.1 ∧ e.1 ≤ high) (hwidth : high - low < maxOutcomes)
    (hnd : (entries.map (·.1)).Nodup) (h : ∀ e ∈ entries, 0 ≤ e.2)
    (hsum : (entries.map (·.2)).sum = 1) : ∃ d, ofEntries entries = .ok d := by
  refine exists_ofEntries_of_not_tooWide ?_ hnd h hsum
  rintro ⟨e, he, e', he', hwide⟩
  have := hends e he
  have := hends e' he'
  omega

theorem nonneg_ofCells {low : Int} {ps : List Rat} (h : ∀ p ∈ ps, 0 ≤ p) :
    ∀ p ∈ (ofCells low ps).masses, 0 ≤ p := fun p hp =>
  (mem_ofCells hp).elim (fun hzero => hzero.ge) (h p)

theorem nonneg_ofEntries {entries : List (Int × Rat)} {d : Distribution Rat}
    (h : ofEntries entries = .ok d) : ∀ p ∈ d.masses, 0 ≤ p := by
  obtain ⟨low, width, -, rfl, haccepted, -⟩ := ofEntries_ok h
  exact nonneg_ofCells fun p hp => (haccepted.mem_unit p hp).1

theorem nonneg_fair {sides : Int} {d : Distribution Rat} (h : fair sides = .ok d) :
    ∀ p ∈ d.masses, 0 ≤ p := by
  simp only [fair, unless_ok, Except.ok.injEq] at h
  obtain ⟨hsides, -, rfl⟩ := h
  refine nonneg_ofCells fun p hp => ?_
  rw [List.eq_of_mem_replicate hp]
  exact div_nonneg zero_le_one (Int.cast_nonneg (by omega))

theorem mean_cells_replicate (low : Int) (n : Nat) (p : Rat) (f : Int → Rat) :
    (Law.cells low (List.replicate n p)).mean f =
      ((List.range n).map fun (i : Nat) => f (low + i)).sum * p := by
  induction n generalizing low with
  | zero => simp
  | succ n ih =>
    rw [List.replicate_succ, Law.mean_cells_cons, ih, List.range_succ_eq_map]
    simp only [List.map_cons, List.map_map, List.sum_cons, Function.comp_def, Nat.cast_zero,
      add_zero, Nat.cast_succ, add_assoc low 1, add_comm (1 : Int)]
    ring

theorem mean_fair {die : Die} {d : Distribution Rat} (h : fair die.sides = .ok d)
    (f : Int → Rat) : d.law.mean f = (die.roll Law.uniform).mean f := by
  simp only [fair, unless_ok, Except.ok.injEq] at h
  obtain ⟨-, -, rfl⟩ := h
  rw [mean_ofCells, mean_cells_replicate, Law.mean_roll, Die.faces, List.map_map]
  simp only [Int.toNat_natCast, Function.comp_def, Nat.cast_succ, add_comm (1 : Int)]
  show _ * (1 / ((die.sides : Int) : Rat)) = _
  rw [Int.cast_natCast]
  ring

theorem mean_eq_sum (d : Distribution Rat) (f : Int → Rat) :
    d.law.mean f = ∑ r ∈ Finset.Icc d.low d.high, d.mass r * f r := by
  have hf : ∀ o ∈ d.law.outcomes, f o.1 =
      ∑ r ∈ Finset.Icc d.low d.high, Law.indicator {r} o.1 * f r := fun o ho => by
    rw [Finset.sum_eq_single_of_mem o.1 (Finset.mem_Icc.mpr (cells_within ho))]
    · simp [Law.indicator]
    · intro r _ hne
      simp [Law.indicator, hne.symm]
  rw [Law.mean_congr (g := fun x => ∑ r ∈ Finset.Icc d.low d.high, Law.indicator {r} x * f r) hf,
    Law.mean_finset_sum]
  refine Finset.sum_congr rfl fun r _ => ?_
  rw [Law.mean_mul_right, mass_eq_prob, Law.prob]

-- ---------------------------------------------------------------------------
-- Results that have mass
-- ---------------------------------------------------------------------------

theorem mem_entries {d : Distribution Rat} {e : Int × Rat} :
    e ∈ d.entries ↔ e ∈ d.cells ∧ 0 < e.2 := by
  simp [entries]

theorem nodup_entries (d : Distribution Rat) : (d.entries.map (·.1)).Nodup := by
  have hcells : (d.cells.map (·.1)).Nodup :=
    List.pairwise_iff_getElem.mpr fun i j hi hj hij => by
      simp only [cells, List.getElem_map, List.getElem_mapIdx]
      omega
  exact hcells.sublist (List.filter_sublist.map _)

theorem nonneg_law {d : Distribution Rat} (h : ∀ p ∈ d.masses, 0 ≤ p) : d.law.Nonneg := by
  intro o ho
  obtain ⟨i, hi, -⟩ := Law.mem_cells.mp ho
  exact h o.2 (List.mem_of_getElem? hi)

theorem mean_entries {d : Distribution Rat} (h : ∀ p ∈ d.masses, 0 ≤ p) (f : Int → Rat) :
    Law.mean ⟨d.entries⟩ f = d.law.mean f :=
  Law.mean_filter_pos (nonneg_law h) f

-- ---------------------------------------------------------------------------
-- Tails
-- ---------------------------------------------------------------------------

theorem mean_massesFrom (d : Distribution Rat) {t : Int} (ht : d.low ≤ t) (f : Int → Rat) :
    (Law.cells t (d.massesFrom t)).mean f = (d.law.only (t ≤ ·)).mean f := by
  have h := Law.mean_cells_drop d.low d.masses (t - d.low).toNat f
  rwa [show d.low + ((t - d.low).toNat : Int) = t by omega] at h

theorem mean_massesTo (d : Distribution Rat) {t : Int} (ht : d.low ≤ t + 1) (f : Int → Rat) :
    (Law.cells d.low (d.massesTo t)).mean f = (d.law.only (· ≤ t)).mean f := by
  have h := Law.mean_cells_take d.low d.masses (t - d.low + 1).toNat f
  rw [show d.low + ((t - d.low + 1).toNat : Int) = t + 1 by omega] at h
  simp only [Int.lt_add_one_iff] at h
  exact h

theorem above_eq_mean (d : Distribution Rat) {q : Int} (hq : d.low ≤ q) :
    d.above q = (d.law.only (q < ·)).mean fun _ => 1 := by
  rw [above, atLeast, if_neg (by omega)]
  split
  · rw [Law.mean_only_of_forall_not fun o ho => ?_]
    have := (cells_within ho).2
    simp
    omega
  · have h := d.mean_massesFrom (t := q + 1) (by omega) fun _ => 1
    rw [← sum_eq_mean_cells] at h
    simp only [Int.add_one_le_iff] at h
    exact h

theorem below_eq_mean (d : Distribution Rat) {q : Int} (hq : q ≤ d.high) :
    d.below q = (d.law.only (· < q)).mean fun _ => 1 := by
  rw [below, atMost, if_neg (by omega)]
  split
  · rw [Law.mean_only_of_forall_not fun o ho => ?_]
    have := (cells_within ho).1
    simp
    omega
  · have h := d.mean_massesTo (t := q - 1) (by omega) fun _ => 1
    rw [← sum_eq_mean_cells] at h
    simp only [Int.le_sub_one_iff] at h
    exact h

theorem mean_cells_scaled (low : Int) (ps : List Rat) (c : Rat) (f : Int → Rat) :
    (Law.cells low (ps.map (· * c))).mean f = (Law.cells low ps).mean f * c := by
  induction ps generalizing low with
  | nil => simp
  | cons p ps ih =>
    rw [List.map_cons, Law.mean_cells_cons, ih, Law.mean_cells_cons]
    ring

theorem mean_givenAbove {d e : Distribution Rat} {q : Int} (hq : d.low ≤ q)
    (h : d.givenAtLeast (q + 1) = .ok e) (f : Int → Rat) :
    e.law.mean f = (d.law.only (q < ·)).mean f / d.above q := by
  simp only [givenAtLeast, bind_ok] at h
  obtain ⟨_, -, h⟩ := h
  split at h
  · rw [pure_ok, max_eq_left (by omega)] at h
    subst h
    rw [mean_ofCells, mean_cells_scaled, mean_massesFrom d (by omega)]
    simp only [Int.add_one_le_iff]
    exact mul_one_div _ _
  · cases h

theorem mean_givenBelow {d e : Distribution Rat} {q : Int} (hlow : d.low ≤ q) (hq : q ≤ d.high)
    (h : d.givenAtMost (q - 1) = .ok e) (f : Int → Rat) :
    e.law.mean f = (d.law.only (· < q)).mean f / d.below q := by
  simp only [givenAtMost, bind_ok] at h
  obtain ⟨_, -, h⟩ := h
  split at h
  · rw [pure_ok, min_eq_left (by omega)] at h
    subst h
    rw [mean_ofCells, mean_cells_scaled, mean_massesTo d (by omega)]
    simp only [Int.le_sub_one_iff]
    exact mul_one_div _ _
  · cases h

end TabletopDice.Distribution
