import TabletopDice.Proofs.Odds.Ceiling

/-!
# The form of distributions

A distribution is its masses: two of the same masses have the same form, one
that is made again of what it lists is the same, and comparing what two have in
common compares every result. Zeros at the ends are trimmed on every way to make
one, and what is beyond the ends has no mass.
-/

namespace TabletopDice

namespace Distribution

-- ---------------------------------------------------------------------------
-- Stretches of masses
-- ---------------------------------------------------------------------------

section
variable {α : Type} [Mass α]

theorem mass_of_outside {d : Distribution α} {r : Int} (h : r < d.low ∨ d.high < r) : d.mass r = 0 := by
  unfold mass
  split
  · rfl
  · rw [List.getElem?_eq_none (by
      unfold high width at h
      omega)]
    rfl

theorem getElem?_masses (d : Distribution α) (i : Nat) :
    d.masses[i]? = if i < d.width then some (d.mass (d.low + i)) else none := by
  split
  · rename_i hi
    obtain ⟨p, hp⟩ : ∃ p, d.masses[i]? = some p := ⟨_, List.getElem?_eq_getElem hi⟩
    rw [mass, if_neg (by omega), show (d.low + i - d.low).toNat = i by omega, hp]
    rfl
  · rename_i hi
    exact List.getElem?_eq_none (by
      unfold width at hi
      omega)

/-- The masses of consecutive results, on whichever side of the ends they are. -/
theorem window_eq_map (d : Distribution α) (first : Int) (count : Nat) :
    d.window first count = (List.range count).map fun (i : Nat) => d.mass (first + i) := by
  apply List.ext_getElem?
  intro i
  have hhigh : d.high = d.low + d.width - 1 := rfl
  have hwidth : d.masses.length = d.width := rfl
  simp only [window, List.getElem?_append, List.getElem?_replicate, List.length_replicate,
    List.length_append, List.length_take, List.length_drop, List.getElem?_take, List.getElem?_drop,
    getElem?_masses, List.getElem?_map]
  rcases Nat.lt_or_ge i count with hi | hi
  · rw [List.getElem?_range hi, Option.map_some]
    split_ifs
    · rw [mass_of_outside (.inl (by omega))]
    · exact congrArg (fun r => some (d.mass r)) (by omega)
    · omega
    · omega
    · rw [mass_of_outside (.inr (by omega))]
    · omega
  · rw [List.getElem?_eq_none (l := List.range count) (by simpa using hi), Option.map_none,
      if_neg (by omega), if_neg (by omega)]

theorem masses_eq_map (d : Distribution α) :
    d.masses = (List.range d.width).map fun (i : Nat) => d.mass (d.low + i) := by
  apply List.ext_getElem?
  intro i
  rw [getElem?_masses, List.getElem?_map]
  split
  · rw [List.getElem?_range ‹_›, Option.map_some]
  · rw [List.getElem?_eq_none (by simpa using not_lt.mp ‹_›), Option.map_none]

/-- Comparing a distribution with its stretch of another compares all results within its ends. -/
theorem all_zip_window_iff (a b : Distribution α) (test : α × α → Bool) :
    (a.masses.zip (b.window a.low a.width)).all test ↔
      ∀ r, a.low ≤ r → r ≤ a.high → test (a.mass r, b.mass r) := by
  have hhigh : a.high = a.low + a.width - 1 := rfl
  rw [window_eq_map, masses_eq_map, List.zip_map', List.all_map, List.all_eq_true]
  simp only [List.mem_range, Function.comp_apply]
  constructor
  · intro h r hlow hr
    have hr' := h (r - a.low).toNat (by omega)
    rwa [show a.low + ((r - a.low).toNat : Int) = r by omega] at hr'
  · intro h i hi
    exact h (a.low + i) (by omega) (by omega)

end

-- ---------------------------------------------------------------------------
-- Comparisons
-- ---------------------------------------------------------------------------

section
variable {a b d : Distribution Rat}

theorem beq_iff : (a == b) = true ↔ a = b := by
  show (a.low == b.low && a.masses == b.masses) = true ↔ a = b
  cases a
  cases b
  simp

theorem near_iff {tolerance : Rat} (h : 0 ≤ tolerance) (p q : Rat) :
    near tolerance p q ↔ |p - q| ≤ tolerance := by
  simp only [near, Recipe.distance_eq_abs, Bool.or_eq_true, Bool.and_eq_true, decide_eq_true_eq]
  constructor
  · rintro (hpq | ⟨-, hle⟩)
    · rw [eq_of_beq hpq, sub_self, abs_zero]
      exact h
    · exact hle
  · intro hle
    exact .inr ⟨⟨rfl, rfl⟩, hle⟩

/-- Results beyond the ends of both have no mass in either, so none needs to be compared. -/
theorem isClose_iff {tolerance : Rat} (h : 0 ≤ tolerance) :
    a.isClose b tolerance ↔ ∀ r, |a.mass r - b.mass r| ≤ tolerance := by
  simp only [isClose, Bool.and_eq_true, all_zip_window_iff, near_iff h]
  constructor
  · rintro ⟨ha, hb⟩ r
    rcases em (a.low ≤ r ∧ r ≤ a.high) with hr | hr
    · exact ha r hr.1 hr.2
    rcases em (b.low ≤ r ∧ r ≤ b.high) with hr' | hr'
    · exact hb r hr'.1 hr'.2
    · rw [mass_of_outside (by omega), mass_of_outside (by omega), sub_self, abs_zero]
      exact h
  · intro hall
    exact ⟨fun r _ _ => hall r, fun r _ _ => hall r⟩

-- ---------------------------------------------------------------------------
-- Listings
-- ---------------------------------------------------------------------------

theorem pairwise_entries (d : Distribution Rat) : (d.entries.map (·.1)).Pairwise (· < ·) := by
  have hcells : (d.cells.map (·.1)).Pairwise (· < ·) :=
    List.pairwise_iff_getElem.mpr fun i j hi hj hij => by
      simp only [cells, List.getElem_map, List.getElem_mapIdx]
      omega
  exact hcells.sublist (List.filter_sublist.map _)

theorem mem_entries_iff (hd : ∀ p ∈ d.masses, 0 ≤ p) {e : Int × Rat} :
    e ∈ d.entries ↔ d.mass e.1 = e.2 ∧ e.2 ≠ 0 := by
  constructor
  · intro he
    obtain ⟨hcell, hpos⟩ := mem_entries.mp he
    exact ⟨mass_of_mem_cells hcell, hpos.ne'⟩
  · rintro ⟨hmass, hne⟩
    have hpos : 0 < d.mass e.1 := lt_of_le_of_ne (mass_nonneg hd e.1) (hmass ▸ hne.symm)
    have hmem := mem_entries_of_mass hpos
    rwa [hmass] at hmem

theorem Live.low_mem_entries (hd : d.Live) : (d.low, d.mass d.low) ∈ d.entries :=
  mem_entries_of_mass hd.low_pos

theorem Live.high_mem_entries (hd : d.Live) : (d.high, d.mass d.high) ∈ d.entries :=
  mem_entries_of_mass hd.high_pos

/-- What a distribution lists reaches from its lowest to its highest result. -/
theorem Live.bounds_entries (hd : d.Live) {first : Int × Rat} {more : List (Int × Rat)}
    (h : d.entries = first :: more) : bounds first.1 (more.map (·.1)) = (d.low, d.high) := by
  have hkeys : ∀ r ∈ first.1 :: more.map (·.1), d.low ≤ r ∧ r ≤ d.high := by
    intro r hr
    obtain ⟨e, he, rfl⟩ := List.mem_map.mp (show r ∈ (first :: more).map (·.1) from hr)
    exact entries_within (h ▸ he)
  obtain ⟨hlow, hhigh⟩ := bounds_mem first.1 (more.map (·.1))
  have hleast := bounds_le first.1 (more.map (·.1)) (List.mem_map_of_mem (h ▸ hd.low_mem_entries))
  have hmost := bounds_le first.1 (more.map (·.1)) (List.mem_map_of_mem (h ▸ hd.high_mem_entries))
  exact Prod.ext (le_antisymm hleast.1 (hkeys _ hlow).1) (le_antisymm (hkeys _ hhigh).2 hmost.2)

/-- A listing is filled in to the masses that it was taken of. -/
theorem cells_putAll_entries (hd : ∀ p ∈ d.masses, 0 ≤ p) :
    (putAll d.entries (Table.empty d.low d.width)).cells.toList = d.masses := by
  have hhigh : d.high = d.low + d.width - 1 := rfl
  have hcovers : ∀ e ∈ d.entries, (Table.empty d.low d.width : Table Rat).Covers e.1 := fun e he => by
    have := entries_within he
    simp only [Table.Covers, Table.low_empty, Table.size_empty]
    omega
  have hmass : ∀ r, (putAll d.entries (Table.empty d.low d.width)).mass r = d.mass r := by
    intro r
    by_cases hr : d.mass r = 0
    · rw [mass_putAll_of_not_mem _ hcovers, Table.mass_empty, hr]
      intro hmem
      obtain ⟨e, he, rfl⟩ := List.mem_map.mp hmem
      obtain ⟨hmass, hne⟩ := (mem_entries_iff hd).mp he
      exact hne (hmass ▸ hr)
    · have he : (r, d.mass r) ∈ d.entries := (mem_entries_iff hd).mpr ⟨rfl, hr⟩
      exact mass_putAll (nodup_entries d) hcovers he
  have hsize : (putAll d.entries (Table.empty d.low d.width)).cells.size = d.width := by
    rw [size_putAll, Table.size_empty]
  refine List.ext_getElem? fun i => ?_
  rw [getElem?_masses]
  split
  · rename_i hi
    have hcell : (putAll d.entries (Table.empty d.low d.width)).Covers (d.low + i) := by
      rw [Table.Covers, low_putAll, Table.low_empty, hsize]
      omega
    have hget := hcell.getElem?
    rwa [hmass, low_putAll, Table.low_empty, add_sub_cancel_left, Int.toNat_natCast] at hget
  · rename_i hi
    exact List.getElem?_eq_none (by
      rw [Array.length_toList, hsize]
      omega)

/-- What a distribution lists is checked as its masses are, unless they are too many. -/
theorem Live.ofEntries_entries (hd : d.Live) : ofEntries d.entries =
    if maxOutcomes < d.width then .error (.limit .resultsTooWide)
    else (ofMasses d.low d.masses).mapError .value := by
  have hwidth := d.width_eq
  obtain ⟨first, more, h⟩ := List.exists_cons_of_ne_nil (List.ne_nil_of_mem hd.low_mem_entries)
  have hputAll := cells_putAll_entries hd.nonneg
  rw [h, putAll] at hputAll
  simp only [h, ofEntries, hd.bounds_entries h, ← hwidth, Int.toNat_natCast, hputAll, Nat.cast_lt]
  by_cases hwide : maxOutcomes < d.width
  · rw [if_pos hwide, if_pos hwide, error_bind]
  · rw [if_neg hwide, if_neg hwide]

/-- A listing of a distribution is accepted exactly if its masses are and are not too many, and then
it makes the same distribution again. -/
theorem Live.ofEntries_entries_eq_ok (hd : d.Live) {c : Distribution Rat} :
    ofEntries d.entries = .ok c ↔ c = d ∧ d.width ≤ maxOutcomes ∧ ofMasses d.low d.masses = .ok d := by
  rw [hd.ofEntries_entries]
  split
  · rename_i hwide
    exact iff_of_false nofun fun h => hwide.not_ge h.2.1
  · rename_i hwide
    rw [mapError_ok, ofMasses_eq_ok, ofMasses_eq_ok, d.ofCells_self]
    constructor
    · rintro ⟨haccepted, rfl⟩
      exact ⟨rfl, not_lt.mp hwide, haccepted, rfl⟩
    · rintro ⟨rfl, -, haccepted, -⟩
      exact ⟨haccepted, rfl⟩

end

end Distribution

namespace Recipe

variable {r s : Recipe} {a b : Distribution Rat}

/-- Distributions are equal exactly if they give every result the same mass, and close exactly if
they give every result masses that are close. They list the results that have mass in increasing
order, and wherever that listing is accepted it makes an equal distribution. -/
theorem make_canonical (ha : r.make = .ok a) (hb : s.make = .ok b) :
    ((a == b) = true ↔ ∀ x, a.mass x = b.mass x) ∧
    (∀ tolerance, 0 ≤ tolerance →
      (a.isClose b tolerance = true ↔ ∀ x, |a.mass x - b.mass x| ≤ tolerance)) ∧
    (a.entries.map (·.1)).Pairwise (· < ·) ∧
    (∀ e, e ∈ a.entries ↔ a.mass e.1 = e.2 ∧ e.2 ≠ 0) ∧
    ∀ c, Distribution.ofEntries a.entries = .ok c ↔
      (c == a) = true ∧ a.width ≤ maxOutcomes ∧ Distribution.ofMasses a.low a.masses = .ok a := by
  have hlive := live_of_make ha
  refine ⟨?_, fun tolerance h => Distribution.isClose_iff h, a.pairwise_entries,
    fun e => Distribution.mem_entries_iff hlive.nonneg, fun c => ?_⟩
  · rw [Distribution.beq_iff]
    constructor
    · rintro rfl x
      rfl
    · exact hlive.ext (live_of_make hb)
  · rw [Distribution.beq_iff]
    exact hlive.ofEntries_entries_eq_ok

def padded : Recipe := masses (-4) [0, 1 / 2, 0, 0, 1 / 2, 0, 0]

def narrowed : Recipe := givenAtMost (entries [(0, 1 / 3), (-3, 1 / 3), (5, 1 / 3)] (by decide)) 2

def sparse : Distribution Rat := .ofCells (-3) [1 / 2, 0, 0, 1 / 2]

theorem make_padded : padded.make = .ok sparse := ok_of_toOption (by decide +kernel)

theorem make_narrowed : narrowed.make = .ok sparse := ok_of_toOption (by decide +kernel)

/-- Two ways to one distribution, which its listing makes as well. -/
theorem make_canonical_sparse : ∃ a b, padded.make = .ok a ∧ narrowed.make = .ok b ∧ (a == b) = true ∧
    Distribution.ofEntries a.entries = .ok b := by
  obtain ⟨heq, -, -, -, hlisted⟩ := make_canonical make_padded make_narrowed
  have hsame : (sparse == sparse) = true := heq.mpr fun _ => rfl
  exact ⟨sparse, sparse, make_padded, make_narrowed, hsame,
    (hlisted sparse).mpr ⟨hsame, by decide +kernel, ok_of_toOption (by decide +kernel)⟩⟩

end Recipe

end TabletopDice
