import Mathlib.Data.Bool.AllAny
import TabletopDice.Decimal.Numeral
import TabletopDice.Text.Case

/-!
# ASCII characters

Among the characters of ASCII the classes that the notation is read by are the
plain ones: the digits from 0 to 9, and two cases of each letter.
-/

namespace TabletopDice.Text

open Decimal (isDigit digitValue?)

def IsAscii (c : Char) : Prop := c.toNat < 128

instance (c : Char) : Decidable (IsAscii c) := inferInstanceAs (Decidable (c.toNat < 128))

theorem IsAscii.of_forall {P : Char → Prop} {c : Char} (hc : IsAscii c)
    (h : ∀ n < 128, P (Char.ofNat n)) : P c := by
  have hn := h c.toNat hc
  rwa [Char.ofNat_toNat] at hn

theorem IsAscii.beq_toNat {c : Char} (hc : IsAscii c) {n : Nat} (hn : 128 ≤ n) :
    (c.toNat == n) = false :=
  beq_eq_false_iff_ne.mpr (Nat.ne_of_lt (Nat.lt_of_lt_of_le hc hn))

theorem exists_zero_of_isDigit {c : Char} (h : isDigit c) :
    ∃ first ∈ Decimal.zeros, first ≤ c.toNat ∧ c.toNat ≤ first + 9 := by
  obtain ⟨value, hvalue⟩ := Option.isSome_iff_exists.mp h
  obtain ⟨first, hfirst, -⟩ := Option.map_eq_some_iff.mp hvalue
  refine ⟨first, List.mem_of_find?_eq_some hfirst, ?_⟩
  simpa using List.find?_some hfirst

theorem forall_of_isDigit {P : Char → Prop} (h : ∀ first ∈ Decimal.zeros, ∀ k < 10, P (Char.ofNat (first + k)))
    {c : Char} (hc : isDigit c) : P c := by
  obtain ⟨first, hfirst, hlow, hhigh⟩ := exists_zero_of_isDigit hc
  have hdigit := h first hfirst (c.toNat - first) (by omega)
  rwa [show first + (c.toNat - first) = c.toNat by omega, Char.ofNat_toNat] at hdigit

theorem digitValue?_ascii {c : Char} (hc : IsAscii c) :
    digitValue? c = if c.isDigit then some (c.toNat - 48) else none :=
  hc.of_forall (P := fun c => digitValue? c = if c.isDigit then some (c.toNat - 48) else none)
    (by decide +kernel)

theorem isDigit_ascii {c : Char} (hc : IsAscii c) : isDigit c = c.isDigit := by
  rw [isDigit, digitValue?_ascii hc]
  cases c.isDigit <;> rfl

theorem isDigit_eq_false {c : Char} (h : IsAscii c ∧ c.isDigit = false) : isDigit c = false := by
  rw [isDigit_ascii h.1, h.2]

theorem digitValue_ascii {c : Char} (hc : IsAscii c) (hd : c.isDigit) :
    (digitValue? c).getD 0 = c.toNat - 48 := by
  rw [digitValue?_ascii hc, if_pos hd, Option.getD_some]

theorem sameLetter_ascii {letter c : Char} (hc : IsAscii c) :
    sameLetter letter c = (c.toLower == letter) := by
  simp [sameLetter, hc.beq_toNat]

theorem sameWord_ascii {cs : List Char} (hcs : ∀ c ∈ cs, IsAscii c) (word : List Char) :
    sameWord word cs = (cs.map Char.toLower == word) := by
  induction cs generalizing word with
  | nil => cases word <;> rfl
  | cons c cs ih =>
    rw [List.forall_mem_cons] at hcs
    cases word with
    | nil => rfl
    | cons letter word => simp [sameWord, sameLetter_ascii hcs.1, ih hcs.2]

theorem lowerAfter_ascii {cs : List Char} (hcs : ∀ c ∈ cs, IsAscii c) (before : List Char) :
    lowerAfter before cs = cs.map Char.toLower := by
  induction cs generalizing before with
  | nil => rfl
  | cons c cs ih =>
    rw [List.forall_mem_cons] at hcs
    have hc : c.toNat < 128 := hcs.1
    rw [lowerAfter, ih hcs.2]
    simp [lowerChar, show c.toNat ≠ 0x3a3 by omega, show c.toNat ≤ 127 by omega]

theorem lower_ascii {cs : List Char} (hcs : ∀ c ∈ cs, IsAscii c) :
    lower cs = cs.map Char.toLower := lowerAfter_ascii hcs []

theorem isLetter_ascii {c : Char} (hc : IsAscii c) : isLetter c = c.isAlpha := by
  simp [isLetter, hc.beq_toNat]

-- ---------------------------------------------------------------------------
-- Letters, digits and blanks
-- ---------------------------------------------------------------------------

theorem isAlpha_iff {c : Char} :
    c.isAlpha ↔ (65 ≤ c.toNat ∧ c.toNat ≤ 90) ∨ (97 ≤ c.toNat ∧ c.toNat ≤ 122) := by
  unfold Char.isAlpha Char.isUpper Char.isLower
  simp [UInt32.le_iff_toNat_le, ← Char.toNat_val]

theorem isDigit_iff {c : Char} : c.isDigit ↔ 48 ≤ c.toNat ∧ c.toNat ≤ 57 := Char.isDigit_iff_toNat

theorem isAscii_of_isAlpha {c : Char} (h : c.isAlpha) : IsAscii c := by
  have hrange := isAlpha_iff.mp h
  unfold IsAscii
  omega

theorem isAscii_of_isDigit {c : Char} (h : c.isDigit) : IsAscii c := by
  have hrange := isDigit_iff.mp h
  unfold IsAscii
  omega

theorem isDigit_of_isAlpha {c : Char} (h : c.isAlpha) : c.isDigit = false := by
  rw [Bool.eq_false_iff]
  intro hdigit
  have hrange := isAlpha_iff.mp h
  have hdigits := isDigit_iff.mp hdigit
  omega

theorem isBlank_of_isAlphanum {c : Char} (h : c.isAlphanum) : isBlank c = false := by
  rw [Char.isAlphanum, Bool.or_eq_true, isAlpha_iff, isDigit_iff] at h
  simp [isBlank]
  omega

-- ---------------------------------------------------------------------------
-- Letters in either case
-- ---------------------------------------------------------------------------

theorem isUpper_or_toLower_eq (c : Char) : c.isUpper ∨ c.toLower = c := by
  unfold Char.toLower
  split
  · rename_i h
    left
    unfold Char.isUpper
    simpa using h
  · exact .inr rfl

theorem isAlpha_of_isUpper {c : Char} (h : c.isUpper) : c.isAlpha := by
  unfold Char.isAlpha
  rw [h, Bool.true_or]

theorem isAlpha_of_toLower {c : Char} (h : c.toLower.isAlpha) : c.isAlpha := by
  rcases isUpper_or_toLower_eq c with hc | hc
  · exact isAlpha_of_isUpper hc
  · rwa [hc] at h

theorem toLower_of_not_ascii {c : Char} (hc : ¬ IsAscii c) : c.toLower = c :=
  (isUpper_or_toLower_eq c).resolve_left fun h => hc (isAscii_of_isAlpha (isAlpha_of_isUpper h))

/-- Past ASCII only the Kelvin sign, the long s and two forms of i count as letters. -/
theorem sameLetter_cases {letter c : Char} (hl : IsAscii letter) (h : sameLetter letter c) :
    (IsAscii c ∧ c.toLower = letter) ∨
      c ∈ [Char.ofNat 0x212a, Char.ofNat 0x17f, Char.ofNat 0x130, Char.ofNat 0x131] := by
  by_cases hc : IsAscii c
  · rw [sameLetter_ascii hc, beq_iff_eq] at h
    exact .inl ⟨hc, h⟩
  · have hne : (c.toLower == letter) = false := by
      rw [toLower_of_not_ascii hc, beq_eq_false_iff_ne]
      rintro rfl
      exact hc hl
    have hchar : ∀ n, c.toNat = n → c = Char.ofNat n := by
      rintro n rfl
      exact (Char.ofNat_toNat c).symm
    simp only [sameLetter, hne, Bool.false_or, Bool.or_eq_true, Bool.and_eq_true, beq_iff_eq] at h
    right
    rcases h with (⟨-, h⟩ | ⟨-, h⟩) | ⟨-, h | h⟩
    all_goals
      rw [hchar _ h]
      decide

theorem sameLetter_unique {letter letter' c : Char} (hl : IsAscii letter) (hl' : IsAscii letter')
    (h : sameLetter letter c) (h' : sameLetter letter' c) : letter = letter' := by
  by_cases hc : IsAscii c
  · rw [sameLetter_ascii hc, beq_iff_eq] at h h'
    exact h.symm.trans h'
  · have hne : ∀ {a : Char}, IsAscii a → ¬ c.toLower = a := by
      rintro a ha rfl
      rw [toLower_of_not_ascii hc] at ha
      exact hc ha
    simp only [sameLetter, Bool.or_eq_true, Bool.and_eq_true, beq_iff_eq, hne hl, hne hl', false_or] at h h'
    rcases h with (⟨rfl, h⟩ | ⟨rfl, h⟩) | ⟨rfl, h⟩ <;> rcases h' with (⟨rfl, h'⟩ | ⟨rfl, h'⟩) | ⟨rfl, h'⟩ <;>
      first
        | rfl
        | omega

end TabletopDice.Text
