import Mathlib.Data.List.Basic
import Mathlib.Data.List.TakeWhile
import TabletopDice.Proofs.Text.Ascii

/-!
# Words and written numbers

The words of a text are what stands between its blanks. A whole number is
written as one word, and the word is read as that number again, as long as it
is not too long to be written.
-/

namespace TabletopDice

namespace Text

def words (cs : List Char) : List (List Char) := (cs.splitOnP isBlank).filter (!·.isEmpty)

theorem words_append_blank {c : Char} (hc : isBlank c) (cs ds : List Char) :
    words (cs ++ c :: ds) = words cs ++ words ds := by
  rw [words, List.splitOnP_append_cons cs ds hc, List.filter_append]
  rfl

theorem words_of_not_blank {cs : List Char} (hne : cs ≠ []) (h : ∀ c ∈ cs, isBlank c = false) :
    words cs = [cs] := by
  rw [words, List.splitOnP_eq_singleton h]
  simp [hne]

theorem mem_of_mem_splitOnP {β : Type} {p : β → Bool} {xs w : List β} {x : β} (hw : w ∈ xs.splitOnP p)
    (hx : x ∈ w) : x ∈ xs := by
  induction xs generalizing w with
  | nil =>
    obtain rfl := List.mem_singleton.mp hw
    exact hx
  | cons y ys ih =>
    rw [List.splitOnP_cons_eq_if_modifyHead] at hw
    split at hw
    · rcases List.mem_cons.mp hw with rfl | hw
      · cases hx
      · exact List.mem_cons_of_mem y (ih hw hx)
    · cases hsplit : ys.splitOnP p with
      | nil => exact absurd hsplit (List.splitOnP_ne_nil p ys)
      | cons v vs =>
        rw [hsplit, List.modifyHead_cons] at hw
        rw [hsplit] at ih
        rcases List.mem_cons.mp hw with rfl | hw
        · exact List.mem_cons.mpr ((List.mem_cons.mp hx).imp_right fun hx => ih List.mem_cons_self hx)
        · exact List.mem_cons_of_mem y (ih (List.mem_cons_of_mem v hw) hx)

theorem mem_of_mem_words {cs w : List Char} {c : Char} (hw : w ∈ words cs) (hc : c ∈ w) : c ∈ cs :=
  mem_of_mem_splitOnP (List.mem_filter.mp hw).1 hc

-- ---------------------------------------------------------------------------
-- Stripping
-- ---------------------------------------------------------------------------

theorem strip_of_forall_not {dropped : Char → Bool} {cs : List Char} (h : ∀ c ∈ cs, dropped c = false) :
    strip dropped cs = cs := by
  have hkept : ∀ cs : List Char, (∀ c ∈ cs, dropped c = false) → cs.dropWhile dropped = cs := by
    intro cs hcs
    refine List.dropWhile_eq_self_iff.mpr fun hpos => ?_
    rw [hcs _ (List.getElem_mem hpos)]
    exact Bool.false_ne_true
  rw [strip, hkept cs h, hkept cs.reverse fun c hc => h c (List.mem_reverse.mp hc), List.reverse_reverse]

theorem mem_strip {dropped : Char → Bool} {c : Char} {cs : List Char} (hc : dropped c = false) (h : c ∈ cs) :
    c ∈ strip dropped cs := by
  have hkept : ∀ cs : List Char, c ∈ cs → c ∈ cs.dropWhile dropped := by
    intro cs hcs
    rw [← List.takeWhile_append_dropWhile (p := dropped) (l := cs), List.mem_append] at hcs
    refine hcs.resolve_left fun hdropped => ?_
    exact Bool.eq_false_iff.mp hc (List.mem_takeWhile_imp hdropped)
  exact List.mem_reverse.mpr (hkept _ (List.mem_reverse.mpr (hkept cs h)))

end Text

namespace Decimal

open Text (isBlank words)

def digits (n : Int) : List Char := (writeInt n).toList

theorem digits_eq (n : Int) :
    digits n = if n < 0 then '-' :: Nat.toDigits 10 n.natAbs else Nat.toDigits 10 n.natAbs := by
  unfold digits writeInt writeNat
  split <;> simp [Nat.repr_eq_ofList_toDigits]

theorem isDigit_of_mem_toDigits {n : Nat} : ∀ c ∈ Nat.toDigits 10 n, c.isDigit := fun _ hc =>
  Nat.isDigit_of_mem_toDigits (by decide) (by decide) hc

theorem digits_natCast (n : Nat) : digits n = Nat.toDigits 10 n := by
  rw [digits_eq, if_neg (by omega), Int.natAbs_natCast]

theorem toList_writeNat (n : Nat) : (writeNat n).toList = Nat.toDigits 10 n := digits_natCast n

/-- A number as its sign and its size. -/
theorem digits_eq_sign (n : Int) : digits n = if n < 0 then '-' :: digits n.natAbs else digits n.natAbs := by
  rw [digits_eq, digits_natCast]

theorem digits_ne_nil (n : Int) : digits n ≠ [] := by
  rw [digits_eq]
  split
  · exact List.cons_ne_nil _ _
  · exact Nat.toDigits_ne_nil

theorem mem_digits {n : Int} {c : Char} (hc : c ∈ digits n) : c = '-' ∨ c.isDigit := by
  rw [digits_eq] at hc
  split at hc
  · exact (List.mem_cons.mp hc).imp_right (isDigit_of_mem_toDigits c)
  · exact .inr (isDigit_of_mem_toDigits c hc)

theorem not_blank_digits {n : Int} : ∀ c ∈ digits n, isBlank c = false := by
  intro c hc
  rcases mem_digits hc with rfl | hc
  · decide
  · exact Text.isBlank_of_isAlphanum (by simp [Char.isAlphanum, hc])

theorem words_digits (n : Int) : words (digits n) = [digits n] :=
  Text.words_of_not_blank (digits_ne_nil n) not_blank_digits

-- ---------------------------------------------------------------------------
-- Reading
-- ---------------------------------------------------------------------------

theorem grouped?_of_digits {cs : List Char} (hne : cs ≠ []) (h : ∀ c ∈ cs, c.isDigit) :
    grouped? cs = some cs := by
  have hdigit : ∀ c ∈ cs, isDigit c := fun c hc => by
    rw [Text.isDigit_ascii (Text.isAscii_of_isDigit (h c hc)), h c hc]
  clear h
  fun_induction grouped? cs with
  | case1 => exact absurd rfl hne
  | case2 => rfl
  | case3 c hc => exact absurd (hdigit c List.mem_cons_self) hc
  | case4 c rest =>
    have hmark : isDigit '_' := hdigit '_' (by simp)
    exact absurd hmark (by decide)
  | case5 c rest hc => exact absurd (hdigit c List.mem_cons_self) hc
  | case6 c rest hnil hmark hc ih =>
    rw [ih (by simpa using hnil) fun d hd => hdigit d (List.mem_cons_of_mem c hd), Option.map_some]
  | case7 c rest hnil hmark hc => exact absurd (hdigit c List.mem_cons_self) hc

theorem grouped?_eq_none {c : Char} {cs : List Char} (hc : c ∈ cs) (hdigit : isDigit c = false)
    (hmark : c ≠ '_') : grouped? cs = none := by
  fun_induction grouped? cs with
  | case1 => rfl
  | case2 d hd =>
    obtain rfl := List.mem_singleton.mp hc
    exact absurd hd (by simp [hdigit])
  | case3 => rfl
  | case4 d rest hd ih =>
    have hne : c ≠ d := fun heq => Bool.eq_false_iff.mp hdigit (heq ▸ hd)
    rw [ih (by simpa [hne, hmark] using hc), Option.map_none]
  | case5 => rfl
  | case6 d rest hnil _ hd ih =>
    have hne : c ≠ d := fun heq => Bool.eq_false_iff.mp hdigit (heq ▸ hd)
    rw [ih ((List.mem_cons.mp hc).resolve_left hne), Option.map_none]
  | case7 => rfl

theorem digitsValue_toDigits (n : Nat) : digitsValue (Nat.toDigits 10 n) = n := by
  refine Eq.trans ?_ (Nat.ofDigitChars_ten_toDigits (n := n))
  rw [Nat.ofDigitChars_eq_foldl]
  refine List.foldl_ext _ _ _ fun value c hc => ?_
  have hdigit := isDigit_of_mem_toDigits c hc
  rw [Text.digitValue_ascii (Text.isAscii_of_isDigit hdigit) hdigit]
  rfl

theorem digitsValue_writeNat (n : Nat) : digitsValue (writeNat n).toList = n := by
  rw [toList_writeNat, digitsValue_toDigits]

theorem writeNat_injective : Function.Injective writeNat := by
  intro n m h
  rw [← digitsValue_writeNat n, h, digitsValue_writeNat]

theorem digits_injective : Function.Injective digits := by
  have hvalue : ∀ {n m : Nat}, Nat.toDigits 10 n = Nat.toDigits 10 m → n = m := by
    intro n m h
    rw [← digitsValue_toDigits n, h, digitsValue_toDigits]
  have hminus : ∀ {n m : Nat}, '-' :: Nat.toDigits 10 n ≠ Nat.toDigits 10 m := by
    intro n m h
    exact absurd (isDigit_of_mem_toDigits '-' (h ▸ List.mem_cons_self)) (by decide)
  intro n m h
  rw [digits_eq, digits_eq] at h
  split at h <;> split at h
  · have hsize := hvalue (List.cons.inj h).2
    omega
  · exact absurd h hminus
  · exact absurd h.symm hminus
  · have hsize := hvalue h
    omega

theorem length_toDigits_le {n k : Nat} (hk : 0 < k) (h : n < Nat.pow 10 k) : (Nat.toDigits 10 n).length ≤ k :=
  (Nat.length_toDigits_le_iff (by decide) hk).mpr h

theorem magnitude?_toDigits {n : Nat} (h : n < Nat.pow 10 digitLimit) :
    readInt?.magnitude? (Nat.toDigits 10 n) = some n := by
  have hlen := length_toDigits_le (by decide) h
  rw [readInt?.magnitude?, grouped?_of_digits Nat.toDigits_ne_nil isDigit_of_mem_toDigits, Option.bind_some,
    readDigits?, if_pos hlen, digitsValue_toDigits]

/-- A number is read as it is written. -/
theorem readInt?_digits {n : Int} (h : Writable n) : readInt? (digits n) = some n := by
  have hstrip : Text.strip isPadding (digits n) = digits n :=
    Text.strip_of_forall_not fun c hc => by rw [isPadding, not_blank_digits c hc, Bool.false_and]
  by_cases hn : n < 0
  · have hdigits : digits n = '-' :: Nat.toDigits 10 n.natAbs := by rw [digits_eq, if_pos hn]
    rw [readInt?, hstrip, hdigits]
    simp only [magnitude?_toDigits h]
    exact congrArg some (show -(n.natAbs : Int) = n by omega)
  · have hdigits : digits n = Nat.toDigits 10 n.natAbs := by rw [digits_eq, if_neg hn]
    have hsign : ∀ c ∈ digits n, c ≠ '-' ∧ c ≠ '+' := by
      rw [hdigits]
      rintro c hc
      constructor <;> rintro rfl <;> exact absurd (isDigit_of_mem_toDigits _ hc) (by decide)
    rw [readInt?, hstrip]
    split
    · rename_i rest hrest
      exact absurd rfl (hsign '-' (by simp [hrest])).1
    · rename_i rest hrest
      exact absurd rfl (hsign '+' (by simp [hrest])).2
    · rw [hdigits, magnitude?_toDigits h]
      exact congrArg some (show (n.natAbs : Int) = n by omega)

/-- Nothing is read of a text with something in it that no number is written with. -/
theorem readInt?_eq_none {c : Char} {cs : List Char} (hc : c ∈ cs)
    (hnot : isDigit c = false ∧ isPadding c = false ∧ c ≠ '_' ∧ c ≠ '-' ∧ c ≠ '+') : readInt? cs = none := by
  obtain ⟨hdigit, hpadding, hmark, hminus, hplus⟩ := hnot
  have hrest : ∀ cs, c ∈ cs → readInt?.magnitude? cs = none := fun cs hc => by
    rw [readInt?.magnitude?, grouped?_eq_none hc hdigit hmark, Option.bind_none]
  have hstrip := Text.mem_strip hpadding hc
  rw [readInt?]
  split
  · rename_i rest heq
    rw [heq] at hstrip
    simp [hrest rest ((List.mem_cons.mp hstrip).resolve_left hminus)]
  · rename_i rest heq
    rw [heq] at hstrip
    simp [hrest rest ((List.mem_cons.mp hstrip).resolve_left hplus)]
  · simp [hrest _ hstrip]

end Decimal

end TabletopDice
