import Mathlib.Data.List.TakeWhile
import TabletopDice.Proofs.Text.Words
import TabletopDice.Notation.Reader

/-!
# Cutting a text into fragments

The fragments of a text stand in it one after another with nothing but blank
characters around them, and no fragment holds a blank. Where one fragment ends
is decided by its shape and by the character that follows.
-/

namespace TabletopDice.Notation

open Text (isBlank sameLetter sameLetter_ascii sameLetter_cases isDigit_eq_false isAscii_of_isAlpha isAlpha_of_toLower
  isDigit_of_isAlpha isBlank_of_isAlphanum)
open Decimal (isDigit)

-- ---------------------------------------------------------------------------
-- Runs
-- ---------------------------------------------------------------------------

def Ends (p : Char → Bool) (rest : List Char) : Prop := ∀ c ∈ rest.head?, p c = false

section
variable {p : Char → Bool} {run rest : List Char}

@[simp] theorem ends_nil (p : Char → Bool) : Ends p [] := by simp [Ends]

@[simp] theorem ends_cons {c : Char} : Ends p (c :: rest) ↔ p c = false := by simp [Ends]

theorem takeWhile_run (hrun : ∀ c ∈ run, p c) (hrest : Ends p rest) :
    (run ++ rest).takeWhile p = run := by
  rw [List.takeWhile_append_of_pos hrun]
  cases rest with
  | nil => simp
  | cons c rest => simp [ends_cons.mp hrest]

theorem dropWhile_run (hrun : ∀ c ∈ run, p c) (hrest : Ends p rest) :
    (run ++ rest).dropWhile p = rest := by
  rw [List.dropWhile_append_of_pos hrun]
  cases rest with
  | nil => rfl
  | cons c rest => simp [ends_cons.mp hrest]

/-- A run of characters of a class is all of them. -/
theorem run_unique {run' rest' : List Char} (hrun : ∀ c ∈ run, p c) (hrest : Ends p rest) (hrun' : ∀ c ∈ run', p c)
    (hrest' : Ends p rest') (h : run ++ rest = run' ++ rest') : run = run' ∧ rest = rest' := by
  have htake := congrArg (List.takeWhile p) h
  have hdrop := congrArg (List.dropWhile p) h
  rw [takeWhile_run hrun hrest, takeWhile_run hrun' hrest'] at htake
  rw [dropWhile_run hrun hrest, dropWhile_run hrun' hrest'] at hdrop
  exact ⟨htake, hdrop⟩

theorem ends_dropWhile (p : Char → Bool) (cs : List Char) : Ends p (cs.dropWhile p) := by
  intro c hc
  have h := List.head?_dropWhile_not p cs
  rw [Option.mem_def.mp hc] at h
  exact h

end

structure Digits (ds : List Char) : Prop where
  ne_nil : ds ≠ []
  all : ∀ c ∈ ds, isDigit c

theorem Digits.count_append {ds rest : List Char} (h : Digits ds) (hrest : Ends isDigit rest) :
    digitCount (ds ++ rest) = ds.length := by
  rw [digitCount, takeWhile_run h.all hrest]

theorem digits_writeNat (n : Nat) : Digits (Decimal.writeNat n).toList where
  ne_nil := by rw [Decimal.toList_writeNat]; exact Nat.toDigits_ne_nil
  all c hc := by
    rw [Decimal.toList_writeNat] at hc
    have hdigit := Decimal.isDigit_of_mem_toDigits c hc
    rw [Text.isDigit_ascii (Text.isAscii_of_isDigit hdigit), hdigit]

theorem digitCount_of_ends {rest : List Char} (h : Ends isDigit rest) : digitCount rest = 0 := by
  cases rest with
  | nil => rfl
  | cons c rest => simp [digitCount, ends_cons.mp h]

-- ---------------------------------------------------------------------------
-- Digits and letters
-- ---------------------------------------------------------------------------

theorem ne_of_isDigit {c x : Char} (hc : isDigit c) (hx : isDigit x = false) : c ≠ x := by
  rintro rfl
  rw [hx] at hc
  cases hc

theorem isBlank_of_isDigit {c : Char} (h : isDigit c) : isBlank c = false :=
  Text.forall_of_isDigit (P := fun c => isBlank c = false) (by decide +kernel) h

/-- What the letters of the notation are not. -/
structure Apart (c : Char) : Prop where
  blank : isBlank c = false
  digit : isDigit c = false
  stop : c ≠ '.'
  colon : c ≠ ':'

theorem apart_of_isAlpha {c : Char} (h : c.isAlpha) : Apart c where
  blank := isBlank_of_isAlphanum (by rw [Char.isAlphanum, h, Bool.true_or])
  digit := isDigit_eq_false ⟨isAscii_of_isAlpha h, isDigit_of_isAlpha h⟩
  stop := by
    rintro rfl
    cases h
  colon := by
    rintro rfl
    cases h

theorem apart_of_sameLetter {letter c : Char} (hl : letter.isAlpha) (h : sameLetter letter c) :
    Apart c := by
  rcases sameLetter_cases (isAscii_of_isAlpha hl) h with ⟨-, rfl⟩ | hmem
  · exact apart_of_isAlpha (isAlpha_of_toLower hl)
  · have hothers : ∀ c ∈ [Char.ofNat 0x212a, Char.ofNat 0x17f, Char.ofNat 0x130, Char.ofNat 0x131],
        isBlank c = false ∧ isDigit c = false ∧ c ≠ '.' ∧ c ≠ ':' :=
      List.all_iff_forall_prop.mp (by decide +kernel)
    obtain ⟨hblank, hdigit, hstop, hcolon⟩ := hothers c hmem
    exact ⟨hblank, hdigit, hstop, hcolon⟩

theorem apart_of_isTerseLetter {c : Char} (h : isTerseLetter c) : Apart c := by
  simp only [isTerseLetter, isVerboseLetter, Bool.or_eq_true] at h
  rcases h with h | (h | h) | h
  all_goals exact apart_of_sameLetter (by decide) h

theorem isTerseLetter_of_isVerboseLetter {c : Char} (h : isVerboseLetter c) : isTerseLetter c := by
  simp [isTerseLetter, h]

theorem isTerseLetter_of_isDigit {c : Char} (h : isDigit c) : isTerseLetter c = false := by
  cases ht : isTerseLetter c with
  | false => rfl
  | true => rw [(apart_of_isTerseLetter ht).digit] at h; cases h

-- ---------------------------------------------------------------------------
-- Lengths by shape
-- ---------------------------------------------------------------------------

section
variable {c : Char} {ds body rest : List Char}

theorem verboseLength?_of_not_letter (h : isVerboseLetter c = false) :
    verboseLength? (c :: rest) = none := by
  cases rest with
  | nil => rfl
  | cons d rest =>
    unfold verboseLength?
    split
    · rename_i heq
      cases heq
      simp [h]
    · rfl

theorem verboseLength?_of_not_colon (h : ∀ d ∈ rest.head?, d ≠ ':') :
    verboseLength? (c :: rest) = none := by
  unfold verboseLength?
  split
  · rename_i heq
    cases heq
    exact absurd rfl (h ':' rfl)
  · rfl

theorem terseLength?_of_not_letter (h : isTerseLetter c = false) :
    terseLength? (c :: rest) = none := by
  simp [terseLength?, h]

theorem isVerboseLetter_of_not_terse (h : isTerseLetter c = false) : isVerboseLetter c = false := by
  simp only [isTerseLetter, Bool.or_eq_false_iff] at h
  exact h.2

theorem fragmentLength_single (hletter : isTerseLetter c = false) (hdigit : isDigit c = false) :
    fragmentLength (c :: rest) = 1 := by
  have hcount : digitCount (c :: rest) = 0 := digitCount_of_ends (ends_cons.mpr hdigit)
  have hdice : diceLength? (c :: rest) = none := by
    simp [diceLength?, hdigit, hcount]
  simp [fragmentLength, verboseLength?_of_not_letter (isVerboseLetter_of_not_terse hletter),
    terseLength?_of_not_letter hletter, hdice, numberLength?, hcount]

/-- A text that begins with digits begins with dice or a number. -/
theorem Digits.fragmentLength_eq (h : Digits ds) (rest : List Char) :
    fragmentLength (ds ++ rest) = ((diceLength? (ds ++ rest)).or (numberLength? (ds ++ rest))).getD 1 := by
  obtain ⟨d, ds, rfl⟩ := List.exists_cons_of_ne_nil h.ne_nil
  have hd := isTerseLetter_of_isDigit (h.all d List.mem_cons_self)
  rw [List.cons_append, fragmentLength, verboseLength?_of_not_letter (isVerboseLetter_of_not_terse hd),
    terseLength?_of_not_letter hd]
  simp [Option.orElse_eq_or]

theorem Digits.numberLength?_eq (h : Digits ds) (hrest : Ends isDigit rest) :
    numberLength? (ds ++ rest) = some ds.length := by
  have hlen : ds.length ≠ 0 := by simpa using h.ne_nil
  rw [numberLength?, h.count_append hrest, if_neg hlen]

theorem diceLength?_of_not_letter (hds : ∀ d ∈ ds, isDigit d) (hrest : Ends isDigit rest)
    (hletter : Ends (sameLetter 'd') rest) : diceLength? (ds ++ rest) = none := by
  rw [diceLength?, dropWhile_run hds hrest]
  cases rest with
  | nil => rfl
  | cons c rest => simp [ends_cons.mp hletter]

theorem diceLength?_eq {sides : List Char} (hds : Digits ds) (hd : sameLetter 'd' c) (hsides : Digits sides)
    (hrest : Ends isDigit rest) :
    diceLength? (ds ++ c :: (sides ++ rest)) = some (ds.length + 1 + sides.length) := by
  have hends : Ends isDigit (c :: (sides ++ rest)) :=
    ends_cons.mpr (apart_of_sameLetter (by decide) hd).digit
  have hlen : ds.length ≠ 0 := by simpa using hds.ne_nil
  have hlen' : sides.length ≠ 0 := by simpa using hsides.ne_nil
  rw [diceLength?, dropWhile_run hds.all hends]
  simp [hds.count_append hends, hsides.count_append hrest, hd, hlen, hlen']

theorem fragmentLength_number (hds : Digits ds) (hrest : Ends isDigit rest)
    (hletter : Ends (sameLetter 'd') rest) : fragmentLength (ds ++ rest) = ds.length := by
  rw [hds.fragmentLength_eq, diceLength?_of_not_letter hds.all hrest hletter, hds.numberLength?_eq hrest]
  rfl

theorem fragmentLength_dice {sides : List Char} (hds : Digits ds) (hd : sameLetter 'd' c)
    (hsides : Digits sides) (hrest : Ends isDigit rest) :
    fragmentLength (ds ++ c :: (sides ++ rest)) = ds.length + 1 + sides.length := by
  rw [hds.fragmentLength_eq, diceLength?_eq hds hd hsides hrest]
  rfl

/-- Where a modifier in one letter ends: before what is not a digit, a full stop or a colon. -/
structure TerseEnds (rest : List Char) : Prop where
  digit : Ends isDigit rest
  stop : ∀ c ∈ rest.head?, c ≠ '.'
  colon : ∀ c ∈ rest.head?, c ≠ ':'

theorem head_digits_ne_colon (hds : ∀ d ∈ ds, isDigit d) (hrest : ∀ d ∈ rest.head?, d ≠ ':') :
    ∀ d ∈ (ds ++ rest).head?, d ≠ ':' := by
  cases ds with
  | nil => exact hrest
  | cons d ds =>
    rintro _ ⟨⟩
    exact ne_of_isDigit (hds _ List.mem_cons_self) (isDigit_eq_false (by decide))

theorem terseLength?_eq (hc : isTerseLetter c) (hds : ∀ d ∈ ds, isDigit d) (hdigit : Ends isDigit rest)
    (hstop : ∀ d ∈ rest.head?, d ≠ '.') : terseLength? (c :: (ds ++ rest)) = some (ds.length + 1) := by
  rw [terseLength?, if_pos hc, dropWhile_run hds hdigit, digitCount, takeWhile_run hds hdigit]
  split
  · exact absurd rfl (hstop _ rfl)
  · rfl

theorem terseLength?_stop (hc : isTerseLetter c) (hds : ∀ d ∈ ds, isDigit d) :
    terseLength? (c :: (ds ++ '.' :: rest)) = some (ds.length + 2) := by
  have hends : Ends isDigit ('.' :: rest) := ends_cons.mpr (isDigit_eq_false (by decide))
  rw [terseLength?, if_pos hc, dropWhile_run hds hends, digitCount, takeWhile_run hds hends]
  rfl

theorem fragmentLength_terse (hc : isTerseLetter c) (hds : ∀ d ∈ ds, isDigit d)
    (hrest : TerseEnds rest) : fragmentLength (c :: (ds ++ rest)) = ds.length + 1 := by
  rw [fragmentLength, verboseLength?_of_not_colon (head_digits_ne_colon hds hrest.colon),
    terseLength?_eq hc hds hrest.digit hrest.stop]
  rfl

theorem fragmentLength_terse_stop (hc : isTerseLetter c) (hds : ∀ d ∈ ds, isDigit d) :
    fragmentLength (c :: (ds ++ '.' :: rest)) = ds.length + 2 := by
  have hcolon : ∀ d ∈ ('.' :: rest).head?, d ≠ ':' := by
    rintro _ ⟨⟩
    decide
  rw [fragmentLength, verboseLength?_of_not_colon (head_digits_ne_colon hds hcolon), terseLength?_stop hc hds]
  rfl

theorem verboseLength?_eq (hc : isVerboseLetter c) (hbody : ∀ d ∈ body, isVerboseBody d) :
    verboseLength? (c :: ':' :: (body ++ '.' :: rest)) = some (body.length + 3) := by
  have hends : Ends isVerboseBody ('.' :: rest) := ends_cons.mpr (by decide)
  rw [verboseLength?, if_pos hc, dropWhile_run hbody hends, takeWhile_run hbody hends]
  rfl

theorem fragmentLength_verbose (hc : isVerboseLetter c) (hbody : ∀ d ∈ body, isVerboseBody d) :
    fragmentLength (c :: ':' :: (body ++ '.' :: rest)) = body.length + 3 := by
  rw [fragmentLength, verboseLength?_eq hc hbody]
  rfl

end

-- ---------------------------------------------------------------------------
-- Shapes by length
-- ---------------------------------------------------------------------------

/-- The patterns that fragments are cut by, in the order in which they are tried. -/
inductive Pattern where
  | verbose | terse | dice | number | single
deriving DecidableEq

namespace Pattern

def all : List Pattern := [.verbose, .terse, .dice, .number, .single]

/-- How much of a text the pattern takes. A single character is any that is not blank. -/
def length? : Pattern → List Char → Option Nat
  | .verbose, cs => verboseLength? cs
  | .terse, cs => terseLength? cs
  | .dice, cs => diceLength? cs
  | .number, cs => numberLength? cs
  | .single, c :: _ => if isBlank c then none else some 1
  | .single, [] => none

end Pattern

def firstMatch (cs : List Char) : Option (Pattern × Nat) :=
  Pattern.all.findSome? fun p => (p.length? cs).map (p, ·)

inductive Fits : Pattern → List Char → Prop
  | verbose {c body} (hc : isVerboseLetter c) (hbody : ∀ d ∈ body, isVerboseBody d) :
      Fits .verbose (c :: ':' :: (body ++ ['.']))
  | terse {c ds stop} (hc : isTerseLetter c) (hds : ∀ d ∈ ds, isDigit d)
      (hstop : stop = [] ∨ stop = ['.']) : Fits .terse (c :: (ds ++ stop))
  | dice {count c sides} (hcount : Digits count) (hc : sameLetter 'd' c) (hsides : Digits sides) :
      Fits .dice (count ++ c :: sides)
  | number {ds} (hds : Digits ds) : Fits .number ds
  | single {c} (hc : isBlank c = false) (hletter : isTerseLetter c = false) (hdigit : isDigit c = false) :
      Fits .single [c]

section
variable {p : Pattern} {fragment : List Char}

theorem Fits.ne_nil (h : Fits p fragment) : fragment ≠ [] := by
  cases h with
  | dice => simp
  | number hds => exact hds.ne_nil
  | _ => exact List.cons_ne_nil _ _

theorem Fits.not_blank (h : Fits p fragment) : ∀ c ∈ fragment, isBlank c = false := by
  cases h with
  | verbose hc hbody =>
    have hletter := (apart_of_isTerseLetter (isTerseLetter_of_isVerboseLetter hc)).blank
    have hstop : isBlank '.' = false ∧ isBlank ':' = false := by decide
    simp only [List.mem_cons, List.mem_append, List.not_mem_nil, or_false]
    rintro d (rfl | rfl | hd | rfl)
    · exact hletter
    · exact hstop.2
    · have hin := hbody d hd
      simp only [isVerboseBody, Bool.and_eq_true, Bool.not_eq_true'] at hin
      exact hin.1
    · exact hstop.1
  | terse hc hds hstop =>
    have hdot : isBlank '.' = false := by decide
    simp only [List.mem_cons, List.mem_append]
    rintro d (rfl | hd | hd)
    · exact (apart_of_isTerseLetter hc).blank
    · exact isBlank_of_isDigit (hds d hd)
    · rcases hstop with rfl | rfl
      · cases hd
      · rw [List.mem_singleton.mp hd, hdot]
  | dice hcount hc hsides =>
    simp only [List.mem_cons, List.mem_append]
    rintro d (hd | rfl | hd)
    · exact isBlank_of_isDigit (hcount.all d hd)
    · exact (apart_of_sameLetter (by decide) hc).blank
    · exact isBlank_of_isDigit (hsides.all d hd)
  | number hds => exact fun d hd => isBlank_of_isDigit (hds.all d hd)
  | single hc => simpa using hc

end

def Shape (fragment : List Char) : Prop := ∃ p, Fits p fragment

theorem Shape.ne_nil {fragment : List Char} (h : Shape fragment) : fragment ≠ [] := by
  obtain ⟨p, hp⟩ := h
  exact hp.ne_nil

theorem Shape.not_blank {fragment : List Char} (h : Shape fragment) : ∀ c ∈ fragment, isBlank c = false := by
  obtain ⟨p, hp⟩ := h
  exact hp.not_blank

section
variable {cs : List Char} {n : Nat} {p : Pattern}

theorem digits_takeWhile (h : digitCount cs ≠ 0) : Digits (cs.takeWhile isDigit) where
  ne_nil hnil := h (by rw [digitCount, hnil, List.length_nil])
  all _ hc := List.mem_takeWhile_imp hc

theorem fits_verbose (h : verboseLength? cs = some n) : Fits .verbose (cs.take n) := by
  unfold verboseLength? at h
  split at h
  · rename_i c rest
    split at h
    · rename_i hc
      split at h
      · rename_i after hafter
        obtain rfl := Option.some.inj h
        have hsplit := List.takeWhile_append_dropWhile (p := isVerboseBody) (l := rest)
        rw [hafter] at hsplit
        generalize hbody : rest.takeWhile isVerboseBody = body at hsplit
        rw [← hsplit, show body.length + 3 = body.length + 1 + 1 + 1 by omega, List.take_succ_cons,
          List.take_succ_cons, List.take_length_add_append]
        exact .verbose hc fun d hd => List.mem_takeWhile_imp (hbody ▸ hd)
      · cases h
    · cases h
  · cases h

theorem fits_terse (h : terseLength? cs = some n) : Fits .terse (cs.take n) := by
  unfold terseLength? at h
  split at h
  · rename_i c rest
    split at h
    · rename_i hc
      have hsplit := List.takeWhile_append_dropWhile (p := isDigit) (l := rest)
      have hds : ∀ d ∈ rest.takeWhile isDigit, isDigit d := fun d hd => List.mem_takeWhile_imp hd
      rw [digitCount] at h
      generalize rest.takeWhile isDigit = ds at h hsplit hds
      split at h
      · rename_i after hafter
        obtain rfl := Option.some.inj h
        rw [hafter] at hsplit
        rw [← hsplit, List.take_succ_cons, List.take_length_add_append]
        exact .terse hc hds (.inr rfl)
      · obtain rfl := Option.some.inj h
        rw [← hsplit, List.take_succ_cons, List.take_left, ← List.append_nil ds]
        exact .terse hc hds (.inl rfl)
    · cases h
  · cases h

theorem fits_dice (h : diceLength? cs = some n) : Fits .dice (cs.take n) := by
  unfold diceLength? at h
  split at h
  · rename_i c rest hdrop
    split at h
    · rename_i hall
      obtain ⟨hcount, hc, hsides⟩ := hall
      obtain rfl := Option.some.inj h
      have hsplit := List.takeWhile_append_dropWhile (p := isDigit) (l := cs)
      have hsplit' := List.takeWhile_append_dropWhile (p := isDigit) (l := rest)
      have hds := digits_takeWhile hcount
      have hds' := digits_takeWhile hsides
      rw [hdrop] at hsplit
      rw [digitCount, digitCount]
      generalize cs.takeWhile isDigit = ds at hsplit hds
      generalize rest.takeWhile isDigit = ds' at hsplit' hds'
      rw [← hsplit, ← hsplit', Nat.add_assoc, List.take_length_add_append, Nat.add_comm 1,
        List.take_succ_cons, List.take_left]
      exact .dice hds hc hds'
    · cases h
  · cases h

theorem fits_number (h : numberLength? cs = some n) : Fits .number (cs.take n) := by
  unfold numberLength? at h
  split at h
  · cases h
  · rename_i hcount
    obtain rfl := Option.some.inj h
    have hsplit := List.takeWhile_append_dropWhile (p := isDigit) (l := cs)
    have hds := digits_takeWhile hcount
    rw [digitCount]
    generalize cs.takeWhile isDigit = ds at hsplit hds
    rw [← hsplit, List.take_left]
    exact .number hds

theorem fits_single {c : Char} (hc : isBlank c = false) (hterse : terseLength? (c :: cs) = none)
    (hnumber : numberLength? (c :: cs) = none) : Fits .single [c] := by
  refine .single hc ?_ ?_
  · cases hletter : isTerseLetter c with
    | false => rfl
    | true =>
      simp only [terseLength?, hletter, if_true] at hterse
      split at hterse <;> cases hterse
  · cases hdigit : isDigit c with
    | false => rfl
    | true => simp [numberLength?, digitCount, hdigit] at hnumber

theorem fits_of_firstMatch (h : firstMatch cs = some (p, n)) : Fits p (cs.take n) := by
  simp only [firstMatch, Pattern.all, Pattern.length?, List.findSome?] at h
  cases h1 : verboseLength? cs with
  | some n =>
    rw [h1] at h
    cases h
    exact fits_verbose h1
  | none =>
    cases h2 : terseLength? cs with
    | some n =>
      rw [h1, h2] at h
      cases h
      exact fits_terse h2
    | none =>
      cases h3 : diceLength? cs with
      | some n =>
        rw [h1, h2, h3] at h
        cases h
        exact fits_dice h3
      | none =>
        cases h4 : numberLength? cs with
        | some n =>
          rw [h1, h2, h3, h4] at h
          cases h
          exact fits_number h4
        | none =>
          -- a character is taken by itself only where no letter of a modifier and no digit stands
          rw [h1, h2, h3, h4] at h
          cases cs with
          | nil => cases h
          | cons c cs =>
            cases hc : isBlank c with
            | true => simp [hc] at h
            | false =>
              simp only [hc, Bool.false_eq_true, if_false, Option.map_none, Option.map_some, Option.some.injEq,
                Prod.mk.injEq] at h
              obtain ⟨rfl, rfl⟩ := h
              exact fits_single hc h2 h4

theorem exists_firstMatch {c : Char} (hc : isBlank c = false) (cs : List Char) :
    ∃ p, firstMatch (c :: cs) = some (p, fragmentLength (c :: cs)) := by
  have hsingle : Pattern.single.length? (c :: cs) = some 1 := by
    rw [Pattern.length?, hc]
    rfl
  simp only [firstMatch, Pattern.all, List.findSome?, hsingle, fragmentLength]
  simp only [Pattern.length?]
  cases verboseLength? (c :: cs) with
  | some n => exact ⟨_, rfl⟩
  | none =>
    cases terseLength? (c :: cs) with
    | some n => exact ⟨_, rfl⟩
    | none =>
      cases diceLength? (c :: cs) with
      | some n => exact ⟨_, rfl⟩
      | none =>
        cases numberLength? (c :: cs) with
        | some n => exact ⟨_, rfl⟩
        | none => exact ⟨_, rfl⟩

/-- What is cut off a text that begins with no blank has a shape. -/
theorem shape_fragment {c : Char} (hc : isBlank c = false) (cs : List Char) :
    Shape ((c :: cs).take (fragmentLength (c :: cs))) := by
  obtain ⟨p, hp⟩ := exists_firstMatch hc cs
  exact ⟨p, fits_of_firstMatch hp⟩

theorem fragmentLength_pos {c : Char} (hc : isBlank c = false) (cs : List Char) :
    0 < fragmentLength (c :: cs) := by
  refine Nat.pos_of_ne_zero fun hzero => (shape_fragment hc cs).ne_nil ?_
  rw [hzero, List.take_zero]

end

-- ---------------------------------------------------------------------------
-- Cutting
-- ---------------------------------------------------------------------------

theorem fragmentsAfter_eq_drop (pending : Nat) (cs : List Char) :
    fragmentsAfter pending cs = fragments (cs.drop pending) := by
  induction cs generalizing pending with
  | nil => simp [fragments, fragmentsAfter]
  | cons c cs ih =>
    cases pending with
    | zero => rfl
    | succ pending => rw [fragmentsAfter, ih, List.drop_succ_cons]

@[simp] theorem fragments_nil : fragments [] = [] := rfl

theorem fragments_blank {c : Char} (hc : isBlank c) (cs : List Char) :
    fragments (c :: cs) = fragments cs := by
  rw [fragments, fragmentsAfter]
  simp [hc, fragments]

theorem fragments_cons {c : Char} (hc : isBlank c = false) (cs : List Char) :
    fragments (c :: cs) = (c :: cs).take (fragmentLength (c :: cs)) ::
      fragments ((c :: cs).drop (fragmentLength (c :: cs))) := by
  obtain ⟨n, hn⟩ := Nat.exists_eq_succ_of_ne_zero (fragmentLength_pos hc cs).ne'
  rw [fragments, fragmentsAfter]
  simp [hc, hn, fragmentsAfter_eq_drop]

theorem fragments_append {fragment rest : List Char} (hne : fragment ≠ [])
    (hblank : ∀ c ∈ fragment, isBlank c = false)
    (hlen : fragmentLength (fragment ++ rest) = fragment.length) :
    fragments (fragment ++ rest) = fragment :: fragments rest := by
  obtain ⟨c, cs, rfl⟩ := List.exists_cons_of_ne_nil hne
  rw [List.cons_append] at hlen ⊢
  rw [fragments_cons (hblank c List.mem_cons_self), hlen, ← List.cons_append]
  simp

/-- The fragments stand in the text in their order, with blanks around and between them. -/
inductive Spaced : List (List Char) → List Char → Prop
  | nil {blanks} (h : ∀ c ∈ blanks, isBlank c) : Spaced [] blanks
  | cons {blanks fragment fragments rest} (h : ∀ c ∈ blanks, isBlank c)
      (hrest : Spaced fragments rest) : Spaced (fragment :: fragments) (blanks ++ fragment ++ rest)

theorem fragments_blanks {blanks : List Char} (h : ∀ c ∈ blanks, isBlank c) (cs : List Char) :
    fragments (blanks ++ cs) = fragments cs := by
  induction blanks with
  | nil => rfl
  | cons c blanks ih =>
    rw [List.forall_mem_cons] at h
    rw [List.cons_append, fragments_blank h.1, ih h.2]

theorem Spaced.blank {fragments : List (List Char)} {c : Char} {cs : List Char}
    (h : Spaced fragments cs) (hc : isBlank c) : Spaced fragments (c :: cs) := by
  cases h with
  | nil h => exact .nil (List.forall_mem_cons.mpr ⟨hc, h⟩)
  | @cons blanks fragment fs rest h hrest =>
    exact @Spaced.cons (c :: blanks) fragment fs rest (List.forall_mem_cons.mpr ⟨hc, h⟩) hrest

/-- Cutting loses nothing but blanks. -/
theorem spaced_fragments (cs : List Char) : Spaced (fragments cs) cs := by
  induction hn : cs.length using Nat.strongRecOn generalizing cs with
  | _ n ih =>
    cases cs with
    | nil => exact .nil (by simp)
    | cons c cs =>
      cases hc : isBlank c with
      | true =>
        rw [fragments_blank hc]
        exact (ih cs.length (by simp [← hn]) cs rfl).blank hc
      | false =>
        have hpos := fragmentLength_pos hc cs
        have hrest := ih ((c :: cs).drop (fragmentLength (c :: cs))).length
          (by rw [List.length_drop, ← hn, List.length_cons]; omega) _ rfl
        have hall := @Spaced.cons [] ((c :: cs).take (fragmentLength (c :: cs))) _ _ (by simp) hrest
        rw [fragments_cons hc]
        simpa using hall

theorem Spaced.isInfix {fragments : List (List Char)} {cs : List Char} (h : Spaced fragments cs) :
    ∀ fragment ∈ fragments, fragment <:+: cs := by
  induction h with
  | nil => simp
  | @cons blanks fragment fs rest _ _ ih =>
    intro f hf
    rcases List.mem_cons.mp hf with rfl | hf
    · exact ⟨blanks, rest, by simp⟩
    · exact (ih f hf).trans (List.suffix_append (blanks ++ fragment) rest).isInfix

theorem shape_of_mem_fragments {cs fragment : List Char} (h : fragment ∈ fragments cs) :
    Shape fragment := by
  induction hn : cs.length using Nat.strongRecOn generalizing cs with
  | _ n ih =>
    cases cs with
    | nil => cases h
    | cons c cs =>
      cases hc : isBlank c with
      | true =>
        rw [fragments_blank hc] at h
        exact ih cs.length (by simp [← hn]) h rfl
      | false =>
        have hpos := fragmentLength_pos hc cs
        rw [fragments_cons hc, List.mem_cons] at h
        rcases h with rfl | h
        · exact shape_fragment hc cs
        · exact ih _ (by rw [List.length_drop, ← hn, List.length_cons]; omega) h rfl

-- ---------------------------------------------------------------------------
-- Where fragments can end
-- ---------------------------------------------------------------------------

/-- What can follow any token of a sentence: a blank, a sign, or the letter of a modifier. -/
def Boundary (rest : List Char) : Prop :=
  ∀ c ∈ rest.head?, isBlank c ∨ c = '+' ∨ c = '-' ∨ isTerseLetter c

section
variable {rest : List Char}

theorem Boundary.all {P : Char → Prop} (h : Boundary rest) (hblank : ∀ c, isBlank c → P c)
    (hplus : P '+') (hminus : P '-') (hletter : ∀ c, isTerseLetter c → P c) :
    ∀ c ∈ rest.head?, P c := by
  intro c hc
  rcases h c hc with hc | rfl | rfl | hc
  · exact hblank c hc
  · exact hplus
  · exact hminus
  · exact hletter c hc

theorem Boundary.digit (h : Boundary rest) : Ends isDigit rest := by
  refine h.all (fun c hc => ?_) (isDigit_eq_false (by decide)) (isDigit_eq_false (by decide))
    fun c hc => (apart_of_isTerseLetter hc).digit
  cases hdigit : isDigit c with
  | false => rfl
  | true => rw [isBlank_of_isDigit hdigit] at hc; cases hc

theorem not_dice_of_isTerseLetter {c : Char} (h : isTerseLetter c) : sameLetter 'd' c = false := by
  have hothers : ∀ c ∈ [Char.ofNat 0x212a, Char.ofNat 0x17f, Char.ofNat 0x130, Char.ofNat 0x131],
      sameLetter 'd' c = false := List.all_iff_forall_prop.mp (by decide)
  have hne : ∀ letter, letter.isAlpha → (letter == 'd') = false → sameLetter letter c →
      sameLetter 'd' c = false := by
    intro letter hl hd h
    rcases sameLetter_cases (isAscii_of_isAlpha hl) h with ⟨hc, rfl⟩ | hmem
    · rw [sameLetter_ascii hc, hd]
    · exact hothers c hmem
  simp only [isTerseLetter, isVerboseLetter, Bool.or_eq_true] at h
  rcases h with h | (h | h) | h
  all_goals exact hne _ (by decide) (by decide) h

theorem Boundary.dice (h : Boundary rest) : Ends (sameLetter 'd') rest := by
  refine h.all (fun c hc => ?_) (by decide) (by decide) fun c hc => not_dice_of_isTerseLetter hc
  cases hletter : sameLetter 'd' c with
  | false => rfl
  | true => rw [(apart_of_sameLetter (by decide) hletter).blank] at hc; cases hc

theorem Boundary.terse (h : Boundary rest) : TerseEnds rest where
  digit := h.digit
  stop := by
    refine h.all (fun c hc => ?_) (by decide) (by decide) fun c hc => (apart_of_isTerseLetter hc).stop
    rintro rfl
    exact absurd hc (by decide)
  colon := by
    refine h.all (fun c hc => ?_) (by decide) (by decide) fun c hc => (apart_of_isTerseLetter hc).colon
    rintro rfl
    exact absurd hc (by decide)

end

-- ---------------------------------------------------------------------------
-- What goes on with no fragment
-- ---------------------------------------------------------------------------

section
variable {p : Char → Bool} {rest : List Char}

theorem takeWhile_append_ends (h : Ends p rest) (cs : List Char) : (cs ++ rest).takeWhile p = cs.takeWhile p := by
  induction cs with
  | nil => exact takeWhile_run (List.forall_mem_nil (p · = true)) h
  | cons c cs ih => simp only [List.cons_append, List.takeWhile_cons, ih]

theorem dropWhile_append_ends (h : Ends p rest) (cs : List Char) :
    (cs ++ rest).dropWhile p = cs.dropWhile p ++ rest := by
  induction cs with
  | nil => exact dropWhile_run (List.forall_mem_nil (p · = true)) h
  | cons c cs ih =>
    simp only [List.cons_append, List.dropWhile_cons, ih]
    split <;> rfl

/-- What no fragment before it goes on with, nor ends in: a modifier in words ends in a full stop, however
far that is. -/
structure Breaks (rest : List Char) : Prop where
  boundary : Boundary rest
  stop : '.' ∉ rest

theorem breaks_of_blanks {blanks : List Char} (h : ∀ c ∈ blanks, isBlank c) : Breaks blanks where
  boundary c hc := .inl (h c (List.mem_of_mem_head? hc))
  stop hstop := absurd (h '.' hstop) (by decide)

variable (h : Breaks rest)
include h

theorem digitCount_append (cs : List Char) : digitCount (cs ++ rest) = digitCount cs := by
  rw [digitCount, takeWhile_append_ends h.boundary.digit, digitCount]

theorem verboseLength?_append {cs : List Char} (hcs : cs ≠ []) :
    verboseLength? (cs ++ rest) = verboseLength? cs := by
  match cs with
  | [letter] => exact (verboseLength?_of_not_colon h.boundary.terse.colon).trans rfl
  | letter :: c :: body =>
    by_cases hc : c = ':'
    · subst hc
      simp only [List.cons_append, verboseLength?, List.dropWhile_append, List.takeWhile_append]
      have hsplit := List.takeWhile_append_dropWhile (p := isVerboseBody) (l := body)
      cases hafter : body.dropWhile isVerboseBody with
      | nil =>
        -- the body would have to go on to a full stop in what follows
        simp only [List.isEmpty_nil, if_true]
        cases hrest : rest.dropWhile isVerboseBody with
        | nil => rfl
        | cons d after =>
          have hmem : d ∈ rest := (List.dropWhile_suffix isVerboseBody).subset (by simp [hrest])
          have hd : d ≠ '.' := fun heq => h.stop (heq ▸ hmem)
          simp [hd]
      | cons d after =>
        have hshort : (body.takeWhile isVerboseBody).length ≠ body.length := by
          have hlen := congrArg List.length hsplit
          rw [hafter, List.length_append, List.length_cons] at hlen
          omega
        simp only [List.isEmpty_cons, hshort, if_false, List.cons_append, Bool.false_eq_true]
        by_cases hd : d = '.'
        · subst hd
          rfl
        · simp [hd]
    · rw [List.cons_append, List.cons_append, verboseLength?_of_not_colon (by simpa using hc),
        verboseLength?_of_not_colon (by simpa using hc)]

theorem terseLength?_append {cs : List Char} (hcs : cs ≠ []) : terseLength? (cs ++ rest) = terseLength? cs := by
  obtain ⟨letter, ds, rfl⟩ := List.exists_cons_of_ne_nil hcs
  simp only [List.cons_append, terseLength?, dropWhile_append_ends h.boundary.digit, digitCount_append h]
  cases ds.dropWhile isDigit with
  | nil =>
    cases hrest : rest with
    | nil => rfl
    | cons c rest =>
      have hc : c ≠ '.' := fun heq => h.stop (by simp [hrest, heq])
      simp [hc]
  | cons c after =>
    by_cases hstop : c = '.'
    · subst hstop
      rfl
    · simp [hstop]

theorem diceLength?_append (cs : List Char) : diceLength? (cs ++ rest) = diceLength? cs := by
  unfold diceLength?
  rw [dropWhile_append_ends h.boundary.digit]
  cases cs.dropWhile isDigit with
  | nil =>
    cases hrest : rest with
    | nil => rfl
    | cons c rest => simp [ends_cons.mp (hrest ▸ h.boundary.dice)]
  | cons letter sides => simp only [List.cons_append, digitCount_append h]

theorem fragmentLength_append {cs : List Char} (hcs : cs ≠ []) : fragmentLength (cs ++ rest) = fragmentLength cs := by
  simp only [fragmentLength, verboseLength?_append h hcs, terseLength?_append h hcs, diceLength?_append h,
    numberLength?, digitCount_append h]

end

theorem fragmentLength_le {c : Char} (hc : isBlank c = false) (cs : List Char) :
    fragmentLength (c :: cs) ≤ (c :: cs).length := by
  by_contra hlong
  -- a fragment that reached a blank at the end would hold it
  have hblank : ∀ d ∈ [' '], isBlank d := List.forall_mem_singleton.mpr (by decide)
  have hlen := fragmentLength_append (breaks_of_blanks hblank) (List.cons_ne_nil c cs)
  have hshape := shape_fragment hc (cs ++ [' '])
  rw [← List.cons_append, hlen, List.take_of_length_le (by simp at hlong ⊢; omega)] at hshape
  exact absurd (hshape.not_blank ' ' (by simp)) (by decide)

/-- What goes on with no fragment is cut by itself. -/
theorem fragments_append_breaks {rest : List Char} (h : Breaks rest) (cs : List Char) :
    fragments (cs ++ rest) = fragments cs ++ fragments rest := by
  induction hn : cs.length using Nat.strongRecOn generalizing cs with
  | _ n ih =>
    cases cs with
    | nil => rfl
    | cons c cs =>
      cases hc : isBlank c with
      | true =>
        rw [List.cons_append, fragments_blank hc, fragments_blank hc]
        exact ih cs.length (by simp [← hn]) cs rfl
      | false =>
        have hpos := fragmentLength_pos hc cs
        have hle := fragmentLength_le hc cs
        have hlen := fragmentLength_append h (List.cons_ne_nil c cs)
        have hdrop := ih ((c :: cs).drop (fragmentLength (c :: cs))).length
          (by rw [List.length_drop, ← hn, List.length_cons]; omega) _ rfl
        rw [List.cons_append] at hlen ⊢
        rw [fragments_cons hc, fragments_cons hc, hlen, ← List.cons_append, List.take_append_of_le_length hle,
          List.drop_append_of_le_length hle, hdrop, List.cons_append]

theorem fragments_append_blanks {blanks : List Char} (h : ∀ c ∈ blanks, isBlank c) (cs : List Char) :
    fragments (cs ++ blanks) = fragments cs := by
  have hblanks := fragments_blanks h []
  rw [List.append_nil, fragments_nil] at hblanks
  rw [fragments_append_breaks (breaks_of_blanks h), hblanks, List.append_nil]

theorem exists_blanks_trim (cs : List Char) : ∃ before after : List Char, (∀ c ∈ before, isBlank c) ∧
    (∀ c ∈ after, isBlank c) ∧ cs = before ++ (Text.trim cs ++ after) := by
  have hfront := List.takeWhile_append_dropWhile (p := isBlank) (l := cs)
  have hback := List.takeWhile_append_dropWhile (p := isBlank) (l := (cs.dropWhile isBlank).reverse)
  refine ⟨cs.takeWhile isBlank, ((cs.dropWhile isBlank).reverse.takeWhile isBlank).reverse,
    fun c hc => List.mem_takeWhile_imp hc, fun c hc => List.mem_takeWhile_imp (List.mem_reverse.mp hc), ?_⟩
  rw [Text.trim, Text.strip, ← List.reverse_append, hback, List.reverse_reverse, hfront]

theorem trim_infix (cs : List Char) : Text.trim cs <:+: cs := by
  obtain ⟨before, after, -, -, hcs⟩ := exists_blanks_trim cs
  exact ⟨before, after, by rw [List.append_assoc, ← hcs]⟩

theorem mem_trim {c : Char} {cs : List Char} (hc : isBlank c = false) (h : c ∈ cs) : c ∈ Text.trim cs :=
  Text.mem_strip hc h

/-- Blanks at both ends make no difference. -/
theorem fragments_trim (cs : List Char) : fragments (Text.trim cs) = fragments cs := by
  obtain ⟨before, after, hbefore, hafter, hcs⟩ := exists_blanks_trim cs
  refine Eq.symm ((congrArg fragments hcs).trans ?_)
  rw [fragments_blanks hbefore, fragments_append_blanks hafter]

end TabletopDice.Notation
