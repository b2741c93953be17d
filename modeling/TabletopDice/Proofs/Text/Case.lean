import Mathlib.Data.List.Basic
import TabletopDice.Proofs.Text.Ascii

/-!
# Letters in either case

Of the characters that dice notation is written in, those with another
lower-case form are the capital letters of ASCII, the Kelvin sign and the capital
I with a dot. All but the last have a lower-case form of one character, and no
class of characters that the notation is read by tells the two forms apart.
-/

namespace TabletopDice.Text

open Decimal (isDigit)

-- ---------------------------------------------------------------------------
-- Small letters
-- ---------------------------------------------------------------------------

def kelvin : Char := Char.ofNat 0x212a

def dottedI : Char := Char.ofNat 0x130

def combiningDot : Char := Char.ofNat 0x307

def small (c : Char) : Char := if c = kelvin then 'k' else c.toLower

def capitals : List Nat := 0x212a :: (List.range 26).map (65 + ·)

theorem small_eq_or_mem (c : Char) : small c = c ∨ c.toNat ∈ capitals := by
  by_cases hc : IsAscii c
  · exact hc.of_forall (P := fun c => small c = c ∨ c.toNat ∈ capitals) (by decide)
  · unfold small
    split
    · rename_i hkelvin
      exact .inr (hkelvin ▸ List.mem_cons_self)
    · exact .inl (toLower_of_not_ascii hc)

/-- What tells no capital from its small letter tells no character from it. -/
theorem apply_small {β : Type} {f : Char → β}
    (h : ∀ n ∈ capitals, f (small (Char.ofNat n)) = f (Char.ofNat n)) (c : Char) : f (small c) = f c := by
  rcases small_eq_or_mem c with hc | hc
  · rw [hc]
  · have hsmall := h c.toNat hc
    rwa [Char.ofNat_toNat] at hsmall

@[simp] theorem isBlank_small (c : Char) : isBlank (small c) = isBlank c :=
  apply_small (by decide) c

@[simp] theorem isDigit_small (c : Char) : isDigit (small c) = isDigit c :=
  apply_small (by decide) c

@[simp] theorem isLetter_small (c : Char) : isLetter (small c) = isLetter c :=
  apply_small (by decide) c

theorem sameLetter_small {letter : Char} (hl : IsAscii letter) (c : Char) :
    sameLetter letter (small c) = sameLetter letter c := by
  refine apply_small (List.forall_mem_cons.mpr ⟨?_, fun n hn => ?_⟩) c
  · have hne : (kelvin == letter) = false := by
      rw [beq_eq_false_iff_ne]
      rintro rfl
      exact absurd hl (by decide)
    change sameLetter letter 'k' = sameLetter letter kelvin
    rw [sameLetter_ascii (by decide)]
    simp [sameLetter, show kelvin.toLower = kelvin by decide, hne, show kelvin.toNat = 0x212a by decide,
      BEq.comm]
  · have hboth : ∀ n ∈ (List.range 26).map (65 + ·), IsAscii (Char.ofNat n) ∧ IsAscii (small (Char.ofNat n)) ∧
        (small (Char.ofNat n)).toLower = (Char.ofNat n).toLower := by
      decide
    obtain ⟨hascii, hsmall, hlower⟩ := hboth n hn
    rw [sameLetter_ascii hascii, sameLetter_ascii hsmall, hlower]

/-- The small form of itself and of no other character. -/
def Caseless (c : Char) : Prop := ∀ d, small d = c ↔ d = c

theorem caseless_of_class {p : Char → Bool}
    (hp : ∀ n ∈ capitals, p (Char.ofNat n) = false ∧ p (small (Char.ofNat n)) = false) {c : Char}
    (h : p c) : Caseless c := by
  intro d
  rcases small_eq_or_mem d with hd | hd
  · rw [hd]
  · obtain ⟨hcapital, hsmall⟩ := hp d.toNat hd
    rw [Char.ofNat_toNat] at hcapital hsmall
    refine iff_of_false ?_ ?_
    · rintro rfl
      rw [hsmall] at h
      cases h
    · rintro rfl
      rw [hcapital] at h
      cases h

theorem caseless_of_isDigit {c : Char} (h : isDigit c) : Caseless c :=
  caseless_of_class (by decide) h

theorem caseless_of_not_alpha {c : Char} (h : IsAscii c ∧ c.isAlpha = false) : Caseless c :=
  caseless_of_class (p := fun c => decide (IsAscii c) && !c.isAlpha) (by decide) (by simp [h])

section
variable {c : Char} {xs ys cs : List Char}

theorem map_small_eq_cons (hc : Caseless c) :
    cs.map small = c :: ys ↔ ∃ rest, cs = c :: rest ∧ rest.map small = ys := by
  rw [List.map_eq_cons_iff]
  constructor
  · rintro ⟨d, rest, rfl, hd, hrest⟩
    exact ⟨rest, by rw [(hc d).mp hd], hrest⟩
  · rintro ⟨rest, rfl, hrest⟩
    exact ⟨c, rest, rfl, (hc c).mpr rfl, hrest⟩

theorem map_small_eq_append (hxs : ∀ x ∈ xs, Caseless x) :
    cs.map small = xs ++ ys ↔ ∃ rest, cs = xs ++ rest ∧ rest.map small = ys := by
  induction xs generalizing cs with
  | nil => simp
  | cons x xs ih =>
    rw [List.forall_mem_cons] at hxs
    rw [List.cons_append, map_small_eq_cons hxs.1]
    constructor
    · rintro ⟨rest, rfl, hrest⟩
      obtain ⟨after, rfl, hafter⟩ := (ih hxs.2).mp hrest
      exact ⟨after, rfl, hafter⟩
    · rintro ⟨rest, rfl, hrest⟩
      exact ⟨xs ++ rest, rfl, (ih hxs.2).mpr ⟨rest, rfl, hrest⟩⟩

theorem map_small_eq_iff (hxs : ∀ x ∈ xs, Caseless x) : cs.map small = xs ↔ cs = xs := by
  rw [← List.append_nil xs, map_small_eq_append hxs]
  simp

theorem map_small_self (hxs : ∀ x ∈ xs, Caseless x) : xs.map small = xs := (map_small_eq_iff hxs).mpr rfl

end

-- ---------------------------------------------------------------------------
-- Lower-casing
-- ---------------------------------------------------------------------------

theorem lowerChar_small (c : Char) : lowerChar (small c) = lowerChar c :=
  apply_small (by decide) c

/-- Only a capital sigma is lower-cased by what stands around it. -/
theorem lower_eq_flatMap {cs : List Char} (h : ∀ c ∈ cs, c.toNat ≠ 0x3a3) : lower cs = cs.flatMap lowerChar := by
  suffices hafter : ∀ before, lowerAfter before cs = cs.flatMap lowerChar from hafter []
  induction cs with
  | nil => exact fun _ => rfl
  | cons c cs ih =>
    rw [List.forall_mem_cons] at h
    intro before
    rw [lowerAfter, ih h.2, List.flatMap_cons]
    simp [h.1]

theorem isCased_small (c : Char) : isCased (small c) = isCased c :=
  apply_small (by decide) c

/-- None of the letters is passed over where a sigma looks for one with case. -/
theorem isCaseIgnorable_small (c : Char) : isCaseIgnorable (small c) = isCaseIgnorable c := by
  have hruns : ∀ run ∈ caseIgnorableRuns,
      (run.2 < 65 ∨ 90 < run.1) ∧ (run.2 < 97 ∨ 122 < run.1) ∧ (run.2 < 0x212a ∨ 0x212a < run.1) := by
    decide +kernel
  have hfalse : ∀ c : Char, 65 ≤ c.toNat ∧ c.toNat ≤ 90 ∨ 97 ≤ c.toNat ∧ c.toNat ≤ 122 ∨ c.toNat = 0x212a →
      isCaseIgnorable c = false := by
    intro c hc
    refine List.any_eq_false.mpr fun run hrun => ?_
    have hrange := hruns run hrun
    simp only [Bool.and_eq_true, decide_eq_true_eq]
    omega
  have hletters : ∀ n ∈ capitals,
      (65 ≤ (Char.ofNat n).toNat ∧ (Char.ofNat n).toNat ≤ 90 ∨
        97 ≤ (Char.ofNat n).toNat ∧ (Char.ofNat n).toNat ≤ 122 ∨ (Char.ofNat n).toNat = 0x212a) ∧
      97 ≤ (small (Char.ofNat n)).toNat ∧ (small (Char.ofNat n)).toNat ≤ 122 := by
    decide
  refine apply_small (fun n hn => ?_) c
  obtain ⟨hcapital, hsmall⟩ := hletters n hn
  rw [hfalse (Char.ofNat n) hcapital, hfalse (small (Char.ofNat n)) (.inr (.inl hsmall))]

theorem besideCased_small (cs : List Char) : besideCased (cs.map small) = besideCased cs := by
  induction cs with
  | nil => rfl
  | cons c cs ih =>
    unfold besideCased at ih ⊢
    rw [List.map_cons, List.dropWhile_cons, List.dropWhile_cons, isCaseIgnorable_small]
    cases isCaseIgnorable c with
    | true => exact ih
    | false => exact isCased_small c

theorem lower_small (cs : List Char) : lower (cs.map small) = lower cs := by
  have hsigma : ∀ c, (small c).toNat = 0x3a3 ↔ c.toNat = 0x3a3 := fun c =>
    Iff.of_eq (apply_small (f := fun c => c.toNat = 0x3a3) (by decide) c)
  suffices hafter : ∀ before, lowerAfter (before.map small) (cs.map small) = lowerAfter before cs from hafter []
  induction cs with
  | nil => exact fun _ => rfl
  | cons c cs ih =>
    intro before
    rw [List.map_cons, lowerAfter, lowerAfter, ← List.map_cons (f := small), ih, besideCased_small,
      besideCased_small, lowerChar_small]
    simp only [hsigma]

theorem mem_lower_of_dottedI {cs : List Char} (h : dottedI ∈ cs) : combiningDot ∈ lower cs := by
  suffices hafter : ∀ before, combiningDot ∈ lowerAfter before cs from hafter []
  induction cs with
  | nil => cases h
  | cons c cs ih =>
    intro before
    rw [lowerAfter, List.mem_append]
    rcases List.mem_cons.mp h with rfl | h
    · refine .inl ?_
      rw [if_neg (by decide)]
      decide
    · exact .inr (ih h _)

-- ---------------------------------------------------------------------------
-- The characters of dice notation
-- ---------------------------------------------------------------------------

/-- What dice notation is written in: ASCII, blanks and digits of any kind, and the characters that
count as a k, an s or an i when case is ignored. -/
def IsOrdinary (c : Char) : Prop :=
  IsAscii c ∨ isBlank c ∨ isDigit c ∨ c ∈ [kelvin, Char.ofNat 0x17f, dottedI, Char.ofNat 0x131]

instance (c : Char) : Decidable (IsOrdinary c) := by
  unfold IsOrdinary
  infer_instance

theorem ordinary_of_isDigit {c : Char} (h : isDigit c) : IsOrdinary c := .inr (.inr (.inl h))

theorem ordinary_of_sameLetter {letter c : Char} (hl : IsAscii letter) (h : sameLetter letter c) :
    IsOrdinary c := by
  rcases sameLetter_cases hl h with ⟨hc, -⟩ | hmem
  · exact .inl hc
  · exact .inr (.inr (.inr hmem))

theorem ordinary_of_isLetter {c : Char} (h : isLetter c) : IsOrdinary c := by
  have hchar : ∀ n, c.toNat = n → c = Char.ofNat n := by
    rintro n rfl
    exact (Char.ofNat_toNat c).symm
  simp only [isLetter, Bool.or_eq_true, beq_iff_eq] at h
  rcases h with (((h | h) | h) | h) | h
  · exact .inl (isAscii_of_isAlpha h)
  all_goals
    rw [hchar _ h]
    decide

theorem not_ordinary_combiningDot : ¬ IsOrdinary combiningDot := by decide

def wideBlanks : List Nat := [
    0x85, 0xa0, 0x1680, 0x2000, 0x2001, 0x2002, 0x2003, 0x2004, 0x2005, 0x2006, 0x2007, 0x2008, 0x2009,
    0x200a, 0x2028, 0x2029, 0x202f, 0x205f, 0x3000]

theorem isAscii_or_mem_of_isBlank {c : Char} (h : isBlank c) : IsAscii c ∨ c.toNat ∈ wideBlanks := by
  simp only [isBlank, Bool.or_eq_true, Bool.and_eq_true, decide_eq_true_eq, beq_iff_eq] at h
  simp only [IsAscii, wideBlanks, List.mem_cons, List.not_mem_nil, or_false]
  omega

/-- A character that lower-casing makes small, whatever stands around it. -/
def LowersAlone (c : Char) : Prop := c.toNat ≠ 0x3a3 ∧ lowerChar c = [small c]

instance (c : Char) : Decidable (LowersAlone c) := inferInstanceAs (Decidable (_ ∧ _))

theorem lowersAlone_of_isAscii {c : Char} (h : IsAscii c) : LowersAlone c :=
  h.of_forall (by decide)

theorem lowersAlone_of_isBlank {c : Char} (h : isBlank c) : LowersAlone c := by
  have hwide : ∀ n ∈ wideBlanks, LowersAlone (Char.ofNat n) := by decide
  rcases isAscii_or_mem_of_isBlank h with h | h
  · exact lowersAlone_of_isAscii h
  · have hc := hwide c.toNat h
    rwa [Char.ofNat_toNat] at hc

/-- No run of capitals has a digit between its ends. -/
theorem lowersAlone_of_isDigit {c : Char} (h : isDigit c) : LowersAlone c := by
  by_cases hc : IsAscii c
  · exact lowersAlone_of_isAscii hc
  have hruns : ∀ first ∈ Decimal.zeros, caseRuns.all fun run => run.last < first || first + 9 < run.first := by
    decide +kernel
  have hspecial : ∀ first ∈ Decimal.zeros, ∀ n ∈ [0x3a3, 0x130, 0x212a], n < first ∨ first + 9 < n := by
    decide
  obtain ⟨first, hfirst, hlow, hhigh⟩ := exists_zero_of_isDigit h
  have hfind : (caseRuns.find? fun run =>
      run.first ≤ c.toNat && c.toNat ≤ run.last && (c.toNat - run.first) % run.step == 0) = none := by
    refine List.find?_eq_none.mpr fun run hrun => ?_
    have hrange := List.all_eq_true.mp (hruns first hfirst) run hrun
    simp only [Bool.or_eq_true, decide_eq_true_eq] at hrange
    simp only [Bool.and_eq_true, decide_eq_true_eq]
    omega
  obtain ⟨hsigma, hdotted, hkelvin⟩ : c.toNat ≠ 0x3a3 ∧ c.toNat ≠ 0x130 ∧ c ≠ kelvin := by
    have hfar := hspecial first hfirst
    simp only [List.forall_mem_cons] at hfar
    refine ⟨by omega, by omega, ?_⟩
    rintro rfl
    have hkelvin : kelvin.toNat = 0x212a := rfl
    omega
  have hascii : ¬ c.toNat ≤ 127 := fun hle => hc (Nat.lt_succ_of_le hle)
  refine ⟨hsigma, ?_⟩
  rw [lowerChar, if_neg hascii, if_neg hdotted, hfind, small, if_neg hkelvin, toLower_of_not_ascii hc]

/-- Lower-casing makes each of them small by itself, but for the one whose form has two characters. -/
theorem lowersAlone_of_ordinary {c : Char} (h : IsOrdinary c) (hc : c ≠ dottedI) : LowersAlone c := by
  rcases h with h | h | h | h
  · exact lowersAlone_of_isAscii h
  · exact lowersAlone_of_isBlank h
  · exact lowersAlone_of_isDigit h
  · have hothers : LowersAlone kelvin ∧ LowersAlone (Char.ofNat 0x17f) ∧ LowersAlone (Char.ofNat 0x131) := by
      decide
    simp only [List.mem_cons, List.not_mem_nil, or_false] at h
    obtain rfl | rfl | rfl | rfl := h
    · exact hothers.1
    · exact hothers.2.1
    · exact absurd rfl hc
    · exact hothers.2.2

theorem lower_of_lowersAlone {cs : List Char} (h : ∀ c ∈ cs, LowersAlone c) : lower cs = cs.map small := by
  rw [lower_eq_flatMap fun c hc => (h c hc).1, List.flatMap_congr fun c hc => (h c hc).2]
  exact List.flatMap_pure_eq_map small cs

theorem lower_of_ordinary {cs : List Char} (h : ∀ c ∈ cs, IsOrdinary c) (hi : dottedI ∉ cs) :
    lower cs = cs.map small :=
  lower_of_lowersAlone fun c hc => lowersAlone_of_ordinary (h c hc) fun heq => hi (heq ▸ hc)

theorem not_sigma_of_ordinary {c : Char} (h : IsOrdinary c) : c.toNat ≠ 0x3a3 := by
  by_cases hc : c = dottedI
  · subst hc
    decide
  · exact (lowersAlone_of_ordinary h hc).1

/-- Past ASCII only the Kelvin sign has a lower-case form in ASCII, and no character has one that is a digit. -/
theorem lowersAlone_of_lowerChar {c : Char} (h : ∀ x ∈ lowerChar c, IsAscii x ∨ isDigit x) :
    LowersAlone c := by
  have hruns : caseRuns.all fun run =>
      (run.first = 0x212a && run.last = 0x212a) ||
        (128 ≤ run.first + run.shift &&
          (run.last + run.shift < 0xd800 || 0xe000 ≤ run.first + run.shift && run.last + run.shift < 0x110000) &&
          Decimal.zeros.all fun first => run.last + run.shift < first || first + 9 < run.first + run.shift) := by
    decide +kernel
  by_cases hc : IsAscii c
  · exact lowersAlone_of_isAscii hc
  have hascii : ¬ c.toNat ≤ 127 := fun hle => hc (Nat.lt_succ_of_le hle)
  rw [lowerChar, if_neg hascii] at h
  split at h
  · exact absurd (h (Char.ofNat 0x307) (by simp)) (by decide)
  · split at h
    · rename_i run hfind
      have hrange := List.find?_some hfind
      have hrun := List.all_eq_true.mp hruns run (List.mem_of_find?_eq_some hfind)
      simp only [Bool.and_eq_true, Bool.or_eq_true, decide_eq_true_eq, List.all_eq_true] at hrange hrun
      rcases hrun with hkelvin | ⟨⟨hwide, hvalid⟩, hzeros⟩
      · have hnum : c.toNat = 0x212a := by omega
        have heq : c = kelvin := by rw [← Char.ofNat_toNat c, hnum]; rfl
        rw [heq]
        decide
      · generalize himage : (c.toNat + run.shift).toNat = n at h
        have hn : n.isValidChar := by
          simp only [Nat.isValidChar]
          omega
        have htoNat : (Char.ofNat n).toNat = n := by rw [Char.ofNat, dif_pos hn]; rfl
        rcases h _ (List.mem_singleton_self _) with hx | hx
        · rw [IsAscii, htoNat] at hx
          omega
        · obtain ⟨first, hfirst, hlow, hhigh⟩ := exists_zero_of_isDigit hx
          have hfar := hzeros first hfirst
          rw [htoNat] at hlow hhigh
          omega
    · rcases h c (List.mem_singleton_self c) with hx | hx
      · exact lowersAlone_of_isAscii hx
      · exact lowersAlone_of_isDigit hx

/-- A text that is ASCII and digits in lower case has been made so one character at a time. -/
theorem lower_eq_map_small {cs : List Char} (h : ∀ x ∈ lower cs, IsAscii x ∨ isDigit x) :
    lower cs = cs.map small := by
  suffices hafter : ∀ before, (∀ x ∈ lowerAfter before cs, IsAscii x ∨ isDigit x) →
      ∀ c ∈ cs, LowersAlone c from lower_of_lowersAlone (hafter [] h)
  clear h
  induction cs with
  | nil => exact fun _ _ => List.forall_mem_nil _
  | cons c cs ih =>
    intro before h
    rw [lowerAfter, List.forall_mem_append] at h
    refine List.forall_mem_cons.mpr ⟨?_, ih (c :: before) h.2⟩
    have hlowered := h.1
    split at hlowered
    · -- neither small sigma is ASCII or a digit
      have hsigmas : ∀ b : Bool, ¬ (IsAscii (Char.ofNat (if b then 0x3c2 else 0x3c3)) ∨
          isDigit (Char.ofNat (if b then 0x3c2 else 0x3c3))) := by decide
      exact absurd (hlowered _ (List.mem_singleton_self _)) (hsigmas _)
    · exact lowersAlone_of_lowerChar hlowered

/-- What stands in a text stands in lower case in the text in lower case. -/
theorem lower_infix {cs cs' : List Char} (hcs : ∀ c ∈ cs, IsOrdinary c) (h : cs' <:+: cs) :
    lower cs' <:+: lower cs := by
  have hwhole := lower_eq_flatMap fun c hc => not_sigma_of_ordinary (hcs c hc)
  have hpart := lower_eq_flatMap fun c hc => not_sigma_of_ordinary (hcs c (h.subset hc))
  obtain ⟨before, after, rfl⟩ := h
  rw [hwhole, hpart]
  exact ⟨before.flatMap lowerChar, after.flatMap lowerChar, by simp⟩

end TabletopDice.Text
