import Mathlib.Data.Rat.Defs
import TabletopDice.Proofs.Law
import TabletopDice.Proofs.Outcome
import TabletopDice.Odds.Distribution

/-!
# Cells as laws

The masses of consecutive results, as tables and distributions hold them, read
as a law. Trimming zeros keeps every mean, and a table that is changed at one
result gains the weighed value of that result.
-/

namespace TabletopDice

-- ---------------------------------------------------------------------------
-- Lists of masses
-- ---------------------------------------------------------------------------

namespace Law

def cells (low : Int) (ps : List Rat) : Law Int := ⟨ps.mapIdx fun i p => (low + i, p)⟩

@[simp] theorem mean_cells_nil (low : Int) (f : Int → Rat) : (cells low []).mean f = 0 := rfl

@[simp] theorem mean_cells_cons (low : Int) (p : Rat) (ps : List Rat) (f : Int → Rat) :
    (cells low (p :: ps)).mean f = p * f low + (cells (low + 1) ps).mean f := by
  simp only [cells, List.mapIdx_cons, mean_mk_cons, Nat.cast_zero, add_zero, Nat.cast_add,
    Nat.cast_one, add_assoc, add_comm (1 : Int)]

theorem mean_cells_append (low : Int) (ps qs : List Rat) (f : Int → Rat) :
    (cells low (ps ++ qs)).mean f =
      (cells low ps).mean f + (cells (low + ps.length) qs).mean f := by
  induction ps generalizing low with
  | nil => simp
  | cons p ps ih =>
    simp only [List.cons_append, mean_cells_cons, ih, List.length_cons, Nat.cast_add, Nat.cast_one]
    rw [add_assoc low 1, add_comm (1 : Int), ← add_assoc (p * f low)]

theorem mean_cells_zeros {low : Int} {ps : List Rat} (h : ∀ p ∈ ps, p = 0) (f : Int → Rat) :
    (cells low ps).mean f = 0 := by
  induction ps generalizing low with
  | nil => rfl
  | cons p ps ih =>
    rw [mean_cells_cons, h p (by simp), ih fun q hq => h q (by simp [hq])]
    ring

theorem mean_cells_shift (low delta : Int) (ps : List Rat) (f : Int → Rat) :
    (cells (low + delta) ps).mean f = (cells low ps).mean fun r => f (r + delta) := by
  induction ps generalizing low with
  | nil => rfl
  | cons p ps ih => rw [mean_cells_cons, mean_cells_cons, add_right_comm, ih]

theorem mem_cells {low : Int} {ps : List Rat} {o : Int × Rat} :
    o ∈ (cells low ps).outcomes ↔ ∃ i : Nat, ps[i]? = some o.2 ∧ o.1 = low + i := by
  simp only [cells, List.mem_mapIdx]
  constructor
  · rintro ⟨i, hi, rfl⟩
    exact ⟨i, List.getElem?_eq_getElem hi, rfl⟩
  · rintro ⟨i, hi, ho⟩
    obtain ⟨hlt, hp⟩ := List.getElem?_eq_some_iff.mp hi
    exact ⟨i, hlt, Prod.ext ho.symm hp⟩

theorem mean_cells_modify (low : Int) (ps : List Rat) (g : Rat → Rat) (f : Int → Rat) {i : Nat}
    {p : Rat} (hp : ps[i]? = some p) :
    (cells low (ps.modify i g)).mean f = (cells low ps).mean f + (g p - p) * f (low + i) := by
  induction ps generalizing low i with
  | nil => simp at hp
  | cons q ps ih =>
    cases i with
    | zero =>
      obtain rfl : q = p := by simpa using hp
      simp only [List.modify_zero_cons, mean_cells_cons, Nat.cast_zero, add_zero]
      ring
    | succ i =>
      rw [List.modify_succ_cons, mean_cells_cons, mean_cells_cons, ih (low + 1) (by simpa using hp)]
      push_cast
      rw [add_assoc low 1, add_comm (1 : Int)]
      ring

theorem mean_cells_drop (low : Int) (ps : List Rat) (i : Nat) (f : Int → Rat) :
    (cells (low + i) (ps.drop i)).mean f = ((cells low ps).only (low + i ≤ ·)).mean f := by
  induction ps generalizing low i with
  | nil => simp [only, cells]
  | cons p ps ih =>
    cases i with
    | zero =>
      rw [mean_only_of_forall]
      · simp
      · intro o ho
        obtain ⟨j, -, hj⟩ := mem_cells.mp ho
        simp [hj]
    | succ i =>
      have h := ih (low + 1) i
      rw [add_assoc, add_comm 1, ← Nat.cast_succ] at h
      rw [List.drop_succ_cons, h, mean_only, mean_only, mean_cells_cons, if_neg (by simp)]
      ring

theorem mean_cells_take (low : Int) (ps : List Rat) (i : Nat) (f : Int → Rat) :
    (cells low (ps.take i)).mean f = ((cells low ps).only (· < low + i)).mean f := by
  induction ps generalizing low i with
  | nil => simp [only, cells]
  | cons p ps ih =>
    cases i with
    | zero =>
      rw [mean_only_of_forall_not]
      · simp
      · intro o ho
        obtain ⟨j, -, hj⟩ := mem_cells.mp ho
        simp [hj]
    | succ i =>
      have h := ih (low + 1) i
      rw [add_assoc, add_comm 1, ← Nat.cast_succ] at h
      rw [List.take_succ_cons, mean_cells_cons, h, mean_only, mean_only, mean_cells_cons,
        if_pos (by simp)]

theorem prob_cells (low : Int) (ps : List Rat) (r : Int) :
    (cells low ps).prob {r} = if r < low then 0 else ps[(r - low).toNat]?.getD 0 := by
  unfold prob
  induction ps generalizing low with
  | nil => simp
  | cons p ps ih =>
    rw [mean_cells_cons, ih (low + 1)]
    rcases lt_trichotomy r low with hlt | rfl | hgt
    · simp [indicator, hlt, hlt.ne', show r < low + 1 by omega]
    · simp [indicator]
    · obtain ⟨i, hi⟩ : ∃ i : Nat, (r - low).toNat = i + 1 := ⟨(r - low).toNat - 1, by omega⟩
      have hi' : (r - (low + 1)).toNat = i := by omega
      simp [indicator, hgt.ne, show ¬ r < low by omega, show ¬ r < low + 1 by omega, hi, hi']

end Law

-- ---------------------------------------------------------------------------
-- Trimming
-- ---------------------------------------------------------------------------

section
variable {α : Type} [Mass α]

def Mass.AllZero (ps : List α) : Prop := ∀ p ∈ ps, (p == 0) = true

theorem Mass.dropZeros_split : (ps : List α) → ∃ zs, ps = zs ++ dropZeros ps ∧ AllZero zs
  | [] => ⟨[], rfl, by simp [AllZero]⟩
  | [p] => ⟨[], rfl, by simp [AllZero]⟩
  | p :: q :: rest => by
    unfold dropZeros
    split
    · rename_i hp
      obtain ⟨zs, hzs, hzero⟩ := dropZeros_split (q :: rest)
      exact ⟨p :: zs, by rw [List.cons_append, ← hzs], by simpa [AllZero, hp] using hzero⟩
    · exact ⟨[], rfl, by simp [AllZero]⟩

theorem Mass.dropZerosRight_split (ps : List α) :
    ∃ zs, ps = dropZerosRight ps ++ zs ∧ AllZero zs := by
  obtain ⟨zs, hzs, hzero⟩ := dropZeros_split ps.reverse
  refine ⟨zs.reverse, ?_, by simpa [AllZero] using hzero⟩
  have h := congrArg List.reverse hzs
  simpa [dropZerosRight] using h

/-- A distribution holds the masses that it was made of but for zeros at both ends. -/
theorem Distribution.ofCells_split (low : Int) {ps : List α} (h : ps ≠ []) :
    ∃ before after, ps = before ++ (ofCells low ps).masses ++ after ∧
      (ofCells low ps).low = low + before.length ∧ Mass.AllZero before ∧ Mass.AllZero after := by
  obtain ⟨p, ps, rfl⟩ := List.exists_cons_of_ne_nil h
  obtain ⟨before, hbefore, hzero⟩ := Mass.dropZeros_split (p :: ps)
  obtain ⟨after, hafter, hzero'⟩ := Mass.dropZerosRight_split (Mass.dropZeros (p :: ps))
  refine ⟨before, after, ?_, ?_, hzero, hzero'⟩
  · simp only [ofCells, List.append_assoc, ← hafter, ← hbefore]
  · have hlen := congrArg List.length hbefore
    simp only [List.length_cons, List.length_append] at hlen
    simp only [ofCells]
    omega

theorem Mass.dropZeros_eq_self {ps : List α} (h : StartsNonzero ps) : dropZeros ps = ps := by
  match ps with
  | [] => rfl
  | [_] => rfl
  | p :: q :: rest =>
    have hp : (p == 0) = false := h
    simp [dropZeros, hp]

/-- A distribution is made again of the masses that it holds. -/
theorem Distribution.ofCells_self (d : Distribution α) : ofCells d.low d.masses = d := by
  obtain ⟨low, ps, htrimmed⟩ := d
  obtain ⟨p, ps, rfl⟩ := List.exists_cons_of_ne_nil htrimmed.ne_nil
  have hleft := Mass.dropZeros_eq_self htrimmed.left
  have hright := Mass.dropZeros_eq_self htrimmed.right
  simp only [ofCells, hleft, Mass.dropZerosRight, hright, List.reverse_reverse, List.length_cons,
    sub_self, add_zero]

end

-- ---------------------------------------------------------------------------
-- Tables
-- ---------------------------------------------------------------------------

namespace Table

section
variable {α : Type} [Mass α]

def Covers (t : Table α) (r : Int) : Prop := t.low ≤ r ∧ r < t.low + t.cells.size

omit [Mass α] in
theorem Covers.of_eq {t t' : Table α} {r : Int} (h : t.Covers r) (hlow : t'.low = t.low)
    (hsize : t'.cells.size = t.cells.size) : t'.Covers r := by
  simpa only [Covers, hlow, hsize] using h

omit [Mass α] in
@[simp] theorem low_change (t : Table α) (r : Int) (g : α → α) : (t.change r g).low = t.low := by
  unfold change
  split <;> rfl

omit [Mass α] in
@[simp] theorem size_change (t : Table α) (r : Int) (g : α → α) :
    (t.change r g).cells.size = t.cells.size := by
  unfold change
  split <;> simp

omit [Mass α] in
theorem toList_change {t : Table α} {r : Int} (h : t.Covers r) (g : α → α) :
    (t.change r g).cells.toList = t.cells.toList.modify (r - t.low).toNat g := by
  rw [change, if_neg (by have := h.1; omega)]
  simp

theorem Covers.getElem? {t : Table α} {r : Int} (h : t.Covers r) :
    t.cells.toList[(r - t.low).toNat]? = some (t.mass r) := by
  obtain ⟨hlow, hhigh⟩ := h
  have hlt : (r - t.low).toNat < t.cells.size := by omega
  simp [mass, hlow.not_gt, hlt]

theorem mass_change {t : Table α} {r : Int} (h : t.Covers r) (g : α → α) (s : Int) :
    (t.change r g).mass s = if s = r then g (t.mass r) else t.mass s := by
  have hlow := h.1
  by_cases hs : s < t.low
  · rw [if_neg (by omega)]
    simp [mass, hs]
  · rw [mass, if_neg (by simpa using hs), ← Array.getElem?_toList, toList_change h, low_change,
      List.getElem?_modify]
    by_cases he : s = r
    · subst he
      simp [h.getElem?]
    · have hne : (r - t.low).toNat ≠ (s - t.low).toNat := by omega
      simp [mass, hs, he, hne]

@[simp] theorem low_empty (low : Int) (width : Nat) : (empty low width : Table α).low = low := rfl

@[simp] theorem size_empty (low : Int) (width : Nat) :
    (empty low width : Table α).cells.size = width := by
  simp [empty]

theorem mass_empty (low : Int) (width : Nat) (r : Int) : (empty low width : Table α).mass r = 0 := by
  unfold mass empty
  split
  · rfl
  · rw [Array.getElem?_replicate]
    split <;> rfl

end

def law (t : Table Rat) : Law Int := Law.cells t.low t.cells.toList

@[simp] theorem mean_law_empty (low : Int) (width : Nat) (f : Int → Rat) :
    (empty low width).law.mean f = 0 :=
  Law.mean_cells_zeros (by simp [empty]) f

theorem mean_change {t : Table Rat} {r : Int} (h : t.Covers r) (g : Rat → Rat) (f : Int → Rat) :
    (t.change r g).law.mean f = t.law.mean f + (g (t.mass r) - t.mass r) * f r := by
  have hr : t.low + ((r - t.low).toNat : Int) = r := by have := h.1; omega
  rw [law, toList_change h, low_change, Law.mean_cells_modify _ _ _ _ h.getElem?, hr, law]

/-- The second table has the cells of the first, and every mean has gained so much in it. -/
structure Gains (t t' : Table Rat) (gain : (Int → Rat) → Rat) : Prop where
  low : t'.low = t.low
  size : t'.cells.size = t.cells.size
  mean : ∀ f, t'.law.mean f = t.law.mean f + gain f

theorem Gains.refl (t : Table Rat) : Gains t t fun _ => 0 := ⟨rfl, rfl, by simp⟩

theorem Gains.trans {t t' t'' : Table Rat} {g g' : (Int → Rat) → Rat} (h : Gains t t' g)
    (h' : Gains t' t'' g') : Gains t t'' fun f => g f + g' f where
  low := h'.low.trans h.low
  size := h'.size.trans h.size
  mean f := by rw [h'.mean, h.mean, add_assoc]

theorem Gains.congr {t t' : Table Rat} {g g' : (Int → Rat) → Rat} (h : Gains t t' g)
    (hg : ∀ f, g f = g' f) : Gains t t' g' :=
  ⟨h.low, h.size, fun f => hg f ▸ h.mean f⟩

theorem gains_add {t : Table Rat} {r : Int} (h : t.Covers r) (p : Rat) :
    Gains t (t.add r p) fun f => p * f r where
  low := low_change ..
  size := size_change ..
  mean f := by
    rw [add, mean_change h]
    ring

/-- Steps that each gain so much, on tables with the cells of the first, add up. -/
theorem gains_foldl {γ : Type} {step : Table Rat → γ → Table Rat}
    (gain : γ → (Int → Rat) → Rat) {xs : List γ} {t : Table Rat}
    (h : ∀ x ∈ xs, ∀ t', t'.low = t.low → t'.cells.size = t.cells.size →
      Gains t' (step t' x) (gain x)) :
    Gains t (xs.foldl step t) fun f => (xs.map fun x => gain x f).sum := by
  induction xs generalizing t with
  | nil => exact Gains.refl t
  | cons x xs ih =>
    have hx := h x (by simp) t rfl rfl
    have hxs := ih fun y hy t' hlow hsize =>
      h y (by simp [hy]) t' (hlow.trans hx.low) (hsize.trans hx.size)
    simpa using hx.trans hxs

theorem gains_foldlM {ε γ : Type} {step : Table Rat → γ → Except ε (Table Rat)}
    (gain : γ → (Int → Rat) → Rat) {xs : List γ} {t t' : Table Rat}
    (h : xs.foldlM step t = .ok t')
    (hstep : ∀ x ∈ xs, ∀ s s', s.low = t.low → s.cells.size = t.cells.size → step s x = .ok s' →
      Gains s s' (gain x)) :
    Gains t t' fun f => (xs.map fun x => gain x f).sum := by
  induction xs generalizing t with
  | nil =>
    obtain rfl := pure_ok.mp h
    exact Gains.refl t
  | cons x xs ih =>
    rw [List.foldlM_cons] at h
    obtain ⟨s, hs, h⟩ := bind_ok.mp h
    have hx := hstep x (by simp) t s rfl rfl hs
    have hxs := ih h fun y hy s' s'' hlow hsize =>
      hstep y (by simp [hy]) s' s'' (hlow.trans hx.low) (hsize.trans hx.size)
    simpa using hx.trans hxs

end Table

-- ---------------------------------------------------------------------------
-- Distributions
-- ---------------------------------------------------------------------------

namespace Distribution

def law (d : Distribution Rat) : Law Int := Law.cells d.low d.masses

theorem mass_eq_prob (d : Distribution Rat) (r : Int) : d.mass r = d.law.prob {r} :=
  (Law.prob_cells d.low d.masses r).symm

theorem allZero_rat {ps : List Rat} (h : Mass.AllZero ps) : ∀ p ∈ ps, p = 0 :=
  fun p hp => by simpa using h p hp

@[simp] theorem mean_ofCells (low : Int) (ps : List Rat) (f : Int → Rat) :
    (ofCells low ps).law.mean f = (Law.cells low ps).mean f := by
  rcases eq_or_ne ps [] with rfl | h
  · simp [law, ofCells]
  · obtain ⟨before, after, hps, hlow, hbefore, hafter⟩ := ofCells_split low h
    conv_rhs => rw [hps]
    rw [Law.mean_cells_append, Law.mean_cells_append, Law.mean_cells_zeros (allZero_rat hbefore),
      Law.mean_cells_zeros (allZero_rat hafter), law, hlow]
    ring

@[simp] theorem mean_ofTable (t : Table Rat) (f : Int → Rat) :
    (ofTable t).law.mean f = t.law.mean f := mean_ofCells t.low t.cells.toList f

end Distribution

end TabletopDice
