import Mathlib.Data.List.Nodup
import TabletopDice.Proofs.Notation.Parse
import TabletopDice.Proofs.Completion.Typed

/-!
# Stepping a bunch

A bunch that is typed is stepped into one of a few texts that step to one
another, going round: the usual dice, or the proposed modifiers. All of them are
read, to one bunch with the count that was typed and, in case of a modifier, with
the sides that were.
-/

namespace TabletopDice.Completion

open Notation
open Decimal (isDigit digitsValue digitLimit writeNat toList_writeNat digitsValue_writeNat)
open Text (lower small IsAscii)

-- ---------------------------------------------------------------------------
-- Going round
-- ---------------------------------------------------------------------------

section
variable {β : Type} [BEq β] [LawfulBEq β] {x y : β} {xs : List β}

theorem dropWhile_ne_of_nodup (h : xs.Nodup) {i : Nat} (hx : xs[i]? = some x) :
    xs.dropWhile (· != x) = xs.drop i := by
  induction xs generalizing i with
  | nil => simp
  | cons y xs ih =>
    rw [List.nodup_cons] at h
    cases i with
    | zero =>
      obtain rfl : y = x := by simpa using hx
      simp
    | succ i =>
      have hx : xs[i]? = some x := by simpa using hx
      have hne : y ≠ x := by
        rintro rfl
        exact h.1 (List.mem_of_getElem? hx)
      rw [List.dropWhile_cons_of_pos (by simpa using hne), ih h.2 hx, List.drop_succ_cons]

theorem after_of_nodup (h : xs.Nodup) {i : Nat} (hx : xs[i]? = some x) :
    after x xs = xs[(i + 1) % xs.length]? := by
  obtain ⟨hi, -⟩ := List.getElem?_eq_some_iff.mp hx
  rw [after, dropWhile_ne_of_nodup h hx, List.drop_eq_getElem_cons hi]
  rcases Nat.lt_or_ge (i + 1) xs.length with hlt | hge
  · rw [List.drop_eq_getElem_cons hlt, Nat.mod_eq_of_lt hlt, List.getElem?_eq_getElem hlt]
  · have hlast : (i + 1) % xs.length = 0 := by rw [show xs.length = i + 1 by omega, Nat.mod_self]
    rw [List.drop_of_length_le hge, hlast]
    exact List.head?_eq_getElem?

omit [LawfulBEq β] in
theorem mem_of_after (h : after x xs = some y) : y ∈ xs := by
  unfold after at h
  split at h
  · rename_i heq
    obtain rfl := Option.some.inj h
    exact (List.dropWhile_suffix _).subset (by rw [heq]; simp)
  · exact List.mem_of_mem_head? h

end

-- ---------------------------------------------------------------------------
-- One step
-- ---------------------------------------------------------------------------

namespace Typed

def next? (t : Typed) : Except Fault (Option Typed) :=
  match t.modifier with
  | none => (nextSides t.sides).map fun n => some { t with sides := (writeNat n).toList }
  | some m =>
    if t.sides.isEmpty then .ok none
    else do
      let count ← readNumber t.count
      let sides ← readNumber t.sides
      return (nextModifier (modifiers count sides) m).map fun p => { t with modifier := some p }

def round (t : Typed) : List Typed :=
  match t.modifier with
  | none => dieSizes.map fun n => { t with sides := (writeNat n).toList }
  | some _ => (modifiers (digitsValue t.count) (digitsValue t.sides)).map fun p => { t with modifier := some p }

/-- A bunch with numbers that are not too long, and with sides if it has a modifier. -/
structure Ready (t : Typed) : Prop extends Formed t where
  count_le : t.count.length ≤ digitLimit
  sides_le : t.sides.length ≤ digitLimit
  sides_ne_nil : t.modifier.isSome → t.sides ≠ []

end Typed

theorem nextBunch_eq {text : String} {t : Typed} (h : readTyped (lower text.toList) = some t) :
    nextBunch text = t.next?.map (Option.map Typed.text) := by
  obtain ⟨count, sides, modifier⟩ := t
  have htext : ∀ sides m,
      String.ofList (count ++ 'd' :: sides ++ modifierChars m) = Typed.text ⟨count, sides, m⟩ := fun sides m =>
    congrArg String.ofList (List.append_assoc count ('d' :: sides) (modifierChars m))
  rw [nextBunch, h]
  cases modifier with
  | none =>
    simp only [Typed.next?]
    cases nextSides sides with
    | error f => rfl
    | ok n => exact congrArg (fun s => Except.ok (some s)) (htext (writeNat n).toList none)
  | some m =>
    simp only [Typed.next?]
    split
    · rfl
    · cases readNumber count with
      | error f => rfl
      | ok n =>
        cases readNumber sides with
        | error f => rfl
        | ok n' =>
          refine congrArg Except.ok (Eq.trans ?_ (Option.map_map Typed.text _ _).symm)
          exact congrArg (Option.map · (nextModifier (modifiers n n') m)) (funext fun p => htext sides (some p))

theorem readNumber_of_le {ds : List Char} (h : ds.length ≤ digitLimit) : readNumber ds = .ok (digitsValue ds) := by
  rw [readNumber, Decimal.readDigits?, if_pos h]

theorem length_writeNat_le {n k : Nat} (hk : 0 < k) (h : n < 10 ^ k) : (writeNat n).toList.length ≤ k := by
  rw [toList_writeNat]
  exact Decimal.length_toDigits_le hk h

theorem exists_nextSides {sides : List Char} (h : sides.length ≤ digitLimit) :
    ∃ n ∈ dieSizes, nextSides sides = .ok n := by
  unfold nextSides
  split
  · exact ⟨4, by decide, rfl⟩
  · rw [readNumber_of_le h]
    cases hafter : after (digitsValue sides) dieSizes with
    | none => exact ⟨4, by decide, congrArg (fun n? : Option Nat => Except.ok (n?.getD 4)) hafter⟩
    | some n => exact ⟨n, mem_of_after hafter, congrArg (fun n? : Option Nat => Except.ok (n?.getD 4)) hafter⟩

theorem nextSides_writeNat {i n n' : Nat} (hn : dieSizes[i]? = some n)
    (hn' : dieSizes[(i + 1) % dieSizes.length]? = some n') : nextSides (writeNat n).toList = .ok n' := by
  have hshort : ∀ n ∈ dieSizes, (writeNat n).toList.length ≤ digitLimit := by decide
  have hne : (writeNat n).toList.isEmpty = false := List.isEmpty_eq_false_iff.mpr (digits_writeNat n).ne_nil
  have hafter := (after_of_nodup (by decide) hn).trans hn'
  rw [nextSides, hne, readNumber_of_le (hshort n (List.mem_of_getElem? hn)), digitsValue_writeNat]
  exact congrArg (fun n? : Option Nat => Except.ok (n?.getD 4)) hafter

theorem nodup_modifiers (count sides : Nat) : (modifiers count sides).Nodup :=
  List.Nodup.of_map Prod.fst (show ['x', 'k', 'r', 'm'].Nodup by decide)

/-- A proposed modifier is followed by the next of them. -/
theorem nextModifier_of_getElem? {proposed : List (Char × List Char)} (h : proposed.Nodup) {i : Nat}
    {p : Char × List Char} (hp : proposed[i]? = some p) :
    nextModifier proposed p = proposed[(i + 1) % proposed.length]? := by
  rw [nextModifier, if_pos (List.contains_iff_mem.mpr (List.mem_of_getElem? hp)), after_of_nodup h hp]

theorem exists_nextModifier {m : Char × List Char} (hm : m.1 ∈ modifierLetters) (count sides : Nat) :
    ∃ p ∈ modifiers count sides, nextModifier (modifiers count sides) m = some p := by
  by_cases hproposed : m ∈ modifiers count sides
  · obtain ⟨i, hi⟩ := List.mem_iff_getElem?.mp hproposed
    have hlt : (i + 1) % (modifiers count sides).length < (modifiers count sides).length :=
      Nat.mod_lt _ (show 0 < 4 by decide)
    rw [nextModifier_of_getElem? (nodup_modifiers count sides) hi, List.getElem?_eq_getElem hlt]
    exact ⟨_, List.getElem_mem hlt, rfl⟩
  · obtain ⟨p, hp, hletter⟩ : ∃ p ∈ modifiers count sides, p.1 = m.1 :=
      List.mem_map.mp (show m.1 ∈ (modifiers count sides).map Prod.fst from hm)
    rw [nextModifier, if_neg (by simpa using hproposed)]
    cases hfind : (modifiers count sides).find? fun p => p.1 == m.1 with
    | none => exact absurd (List.find?_eq_none.mp hfind p hp) (by simp [hletter])
    | some p' => exact ⟨p', List.mem_of_find?_eq_some hfind, rfl⟩

theorem formed_of_mem_modifiers {count sides : Nat} {p : Char × List Char} (hp : p ∈ modifiers count sides) :
    p.1 ∈ modifierLetters ∧ ∀ c ∈ p.2, isDigit c := by
  have hone : ∀ c ∈ ['1'], isDigit c := List.forall_mem_singleton.mpr (by decide)
  simp only [modifiers, List.mem_cons, List.not_mem_nil, or_false] at hp
  rcases hp with rfl | rfl | rfl | rfl
  · exact ⟨(by decide : 'x' ∈ modifierLetters), List.forall_mem_nil _⟩
  · exact ⟨(by decide : 'k' ∈ modifierLetters), (digits_writeNat _).all⟩
  · exact ⟨(by decide : 'r' ∈ modifierLetters), hone⟩
  · exact ⟨(by decide : 'm' ∈ modifierLetters), (digits_writeNat sides).all⟩

-- ---------------------------------------------------------------------------
-- Rounds
-- ---------------------------------------------------------------------------

namespace Typed

variable {t t' : Typed}

theorem nodup_round (t : Typed) : t.round.Nodup := by
  obtain ⟨count, sides, modifier⟩ := t
  cases modifier with
  | none =>
    refine List.Nodup.map (fun n n' h => ?_) (by decide : dieSizes.Nodup)
    have hvalue := congrArg (fun t : Typed => digitsValue t.sides) h
    simpa only [digitsValue_writeNat] using hvalue
  | some m =>
    refine List.Nodup.map (fun p p' h => ?_) (nodup_modifiers _ _)
    exact Option.some.inj (congrArg Typed.modifier h)

theorem length_round (t : Typed) : t.round.length = if t.modifier.isSome then 4 else 7 := by
  obtain ⟨count, sides, modifier⟩ := t
  cases modifier <;> rfl

theorem Ready.of_mem_round (h : t.Ready) (ht : t' ∈ t.round) : t'.Ready := by
  obtain ⟨count, sides, modifier⟩ := t
  cases modifier with
  | none =>
    obtain ⟨n, hn, rfl⟩ := List.mem_map.mp ht
    have hshort : ∀ n ∈ dieSizes, (writeNat n).toList.length ≤ digitLimit := by decide
    exact ⟨⟨h.count, (digits_writeNat n).all, h.modifier⟩, h.count_le, hshort n hn,
      fun _ => (digits_writeNat n).ne_nil⟩
  | some m =>
    obtain ⟨p, hp, rfl⟩ := List.mem_map.mp ht
    have hform : ∀ p' ∈ some p, p'.1 ∈ modifierLetters ∧ ∀ c ∈ p'.2, isDigit c := by
      rintro _ ⟨⟩
      exact formed_of_mem_modifiers hp
    exact ⟨⟨h.count, h.sides, hform⟩, h.count_le, h.sides_le, fun _ => h.sides_ne_nil rfl⟩

/-- A step leads into the round. -/
theorem Ready.exists_next? (h : t.Ready) : ∃ t' ∈ t.round, t.next? = .ok (some t') := by
  obtain ⟨count, sides, modifier⟩ := t
  cases modifier with
  | none =>
    obtain ⟨n, hn, hnext⟩ := exists_nextSides h.sides_le
    refine ⟨_, List.mem_map_of_mem hn, ?_⟩
    rw [next?, hnext]
    rfl
  | some m =>
    obtain ⟨p, hp, hnext⟩ := exists_nextModifier (h.modifier m rfl).1 (digitsValue count) (digitsValue sides)
    refine ⟨_, List.mem_map_of_mem hp, ?_⟩
    have hne : sides.isEmpty = false := List.isEmpty_eq_false_iff.mpr (h.sides_ne_nil rfl)
    rw [next?, hne, readNumber_of_le h.count_le, readNumber_of_le h.sides_le]
    exact congrArg (fun p? : Option (Char × List Char) => Except.ok (p?.map _)) hnext

/-- A step within the round leads to the next of it. -/
theorem Ready.next?_eq (h : t.Ready) {i : Nat} (ht : t.round[i]? = some t') :
    t'.next? = .ok t.round[(i + 1) % t.round.length]? := by
  obtain ⟨count, sides, modifier⟩ := t
  cases modifier with
  | none =>
    rw [round, List.getElem?_map] at ht
    obtain ⟨n, hn, rfl⟩ := Option.map_eq_some_iff.mp ht
    have hlt : (i + 1) % dieSizes.length < dieSizes.length := Nat.mod_lt _ (by decide)
    have hn' := List.getElem?_eq_getElem hlt
    rw [round, List.length_map, List.getElem?_map, hn', next?, nextSides_writeNat hn hn']
    rfl
  | some m =>
    rw [round, List.getElem?_map] at ht
    obtain ⟨p, hp, rfl⟩ := Option.map_eq_some_iff.mp ht
    have hne : sides.isEmpty = false := List.isEmpty_eq_false_iff.mpr (h.sides_ne_nil rfl)
    have hnext := nextModifier_of_getElem? (nodup_modifiers (digitsValue count) (digitsValue sides)) hp
    rw [round, List.length_map, List.getElem?_map, ← hnext, next?, hne, readNumber_of_le h.count_le,
      readNumber_of_le h.sides_le]
    rfl

end Typed

-- ---------------------------------------------------------------------------
-- Reading what is proposed
-- ---------------------------------------------------------------------------

section
variable {count sides : List Char}

theorem readToken_dice (hcount : Digits count) (hsides : Digits sides) (hcount_le : count.length ≤ digitLimit)
    (hsides_le : sides.length ≤ digitLimit) :
    readToken (count ++ 'd' :: sides) = .ok (.dice (digitsValue count) (digitsValue sides)) := by
  have hblank := (Fits.dice hcount (by decide : Text.sameLetter 'd' 'd') hsides).not_blank
  have hd : 'd' ∈ count ++ 'd' :: sides := by simp
  have hends : Ends isDigit ('d' :: sides) := ends_cons.mpr not_isDigit_d
  have hplus : count ++ 'd' :: sides ≠ ['+'] := fun heq => absurd (heq ▸ hd) (by decide)
  have hminus : count ++ 'd' :: sides ≠ ['-'] := fun heq => absurd (heq ▸ hd) (by decide)
  have hnumber : ∀ {ds}, ds.length ≤ digitLimit → number ds = .ok (digitsValue ds) := fun hds => by
    rw [number, Decimal.readDigits?, if_pos hds]
  have hconstant : (readConstant (count ++ 'd' :: sides)).toOption = none := by
    rw [readConstant, withoutLineEnd_eq hblank, digits?_eq_some.mpr ⟨hcount, hends, rfl⟩]
    rfl
  have hparts : DiceParts.ofText? (count ++ 'd' :: sides) = some ⟨count, sides⟩ :=
    DiceParts.ofText?_eq_some.mpr ⟨'d', by decide, hcount, hsides, rfl⟩
  have hdice : (readDice (count ++ 'd' :: sides)).toOption =
      some (.dice (digitsValue count) (digitsValue sides)) := by
    rw [readDice, withoutLineEnd_eq hblank, hparts]
    simp only [hnumber hcount_le, hnumber hsides_le]
    rfl
  simp only [readToken, if_neg hplus, if_neg hminus, classReaders, List.findSome?, hconstant, hdice]

theorem isNumber_writeNat (n : Nat) : IsNumber (writeNat n).toList n where
  ne_nil := (digits_writeNat n).ne_nil
  all := by
    rw [toList_writeNat]
    exact Decimal.isDigit_of_mem_toDigits
  value := by
    rw [← digitsValue_eq, digitsValue_writeNat]
    rw [toList_writeNat]
    exact Decimal.isDigit_of_mem_toDigits

theorem plain_writeNat {n : Nat} (h : (writeNat n).toList.length ≤ digitLimit) : Plain (writeNat n).toList where
  ascii c hc := Text.isAscii_of_isDigit ((isNumber_writeNat n).all c hc)
  short _ hin _ := hin.length_le.trans h

theorem readToken_numbered {c : Char} {n : Nat} {m : Modifier} (hc : isTerseLetter c) (hascii : IsAscii c)
    (hn : (writeNat n).toList.length ≤ digitLimit) (hform : TerseForm m (c :: ((writeNat n).toList ++ []))) :
    readToken (c :: (writeNat n).toList) = .ok (.modifier m) := by
  have hapart := apart_of_isTerseLetter hc
  have hblank : ∀ d ∈ c :: (writeNat n).toList, Text.isBlank d = false :=
    List.forall_mem_cons.mpr ⟨hapart.blank, fun d hd => isBlank_of_isDigit ((digits_writeNat n).all d hd)⟩
  have hplain := (plain_writeNat hn).cons hascii (Text.isDigit_ascii hascii ▸ hapart.digit)
  rw [List.append_nil] at hform
  exact (readToken_eq_ok hplain hblank).mpr (.terse hform)

/-- Every proposed modifier is read. -/
theorem exists_readToken_modifier (hcount : Digits count) (hcount_le : count.length ≤ digitLimit)
    (hsides : Digits sides) (hsides_le : sides.length ≤ digitLimit) {p : Char × List Char}
    (hp : p ∈ modifiers (digitsValue count) (digitsValue sides)) :
    ∃ m, readToken (p.1 :: p.2) = .ok (.modifier m) := by
  have hpos : 0 < count.length := List.length_pos_iff.mpr hcount.ne_nil
  simp only [modifiers, List.mem_cons, List.not_mem_nil, or_false] at hp
  rcases hp with rfl | rfl | rfl | rfl
  · exact ⟨.explode, ok_of_toOption (by decide)⟩
  · have hlt := digitsValue_lt count
    have hkept : max (digitsValue count - 1) 1 < 10 ^ count.length :=
      max_lt (by omega) (Nat.one_lt_pow hpos.ne' (by decide))
    exact ⟨_, readToken_numbered (c := 'k') (by decide) (by decide)
      ((length_writeNat_le hpos hkept).trans hcount_le) (.keepBest rfl (isNumber_writeNat _) (.inl rfl))⟩
  · exact ⟨.rerollAtMost 1, ok_of_toOption (by decide)⟩
  · have hshort := length_writeNat_le (List.length_pos_iff.mpr hsides.ne_nil) (digitsValue_lt sides)
    exact ⟨_, readToken_numbered (c := 'm') (by decide) (by decide) (hshort.trans hsides_le)
      (.successAtLeast rfl (isNumber_writeNat _) (.inl rfl))⟩

end

theorem run_dice_alone (count sides : Nat) {ms : List Modifier} (h : ms.length ≤ 1) :
    run {} (.dice count sides :: ms.map .modifier) = .ok { bunches := [bunchOf .plus count sides ms] } := by
  refine run_eq_ok.mpr ⟨⟨none, .dice count sides ms, []⟩, ?_, by simp [Sentence.tokens, Phrase.tokens], rfl⟩
  exact List.forall_mem_singleton.mpr ((List.length_filterMap_le keepOf ms).trans h)

theorem fragments_modifierChars {m : Option (Char × List Char)}
    (hm : ∀ p ∈ m, p.1 ∈ modifierLetters ∧ ∀ c ∈ p.2, isDigit c) :
    fragments (modifierChars m) = m.toList.map fun p => p.1 :: p.2 := by
  cases m with
  | none => rfl
  | some p =>
    obtain ⟨letter, ds⟩ := p
    obtain ⟨hletter, hds⟩ := hm _ rfl
    have hterse : isTerseLetter letter := forall_modifierLetters (P := (isTerseLetter ·)) (by decide) letter hletter
    have hblank := (Fits.terse hterse hds (.inl rfl)).not_blank
    have hlength := fragmentLength_terse hterse hds ⟨ends_nil isDigit, by simp, by simp⟩
    rw [List.append_nil] at hblank hlength
    have hfragments : fragments ((letter :: ds) ++ []) = (letter :: ds) :: fragments [] :=
      fragments_append (List.cons_ne_nil letter ds) hblank (by simpa using hlength)
    rwa [List.append_nil] at hfragments

namespace Typed

variable {t t' : Typed}

theorem Formed.fragments_chars (h : t.Formed) (hsides : Digits t.sides) :
    fragments t.chars = (t.count ++ 'd' :: t.sides) :: t.modifier.toList.map fun p => p.1 :: p.2 := by
  have hd : Text.sameLetter 'd' 'd' := by decide
  have hends := ends_modifierChars (fun p hp => (h.modifier p hp).1) (ends_nil isDigit)
  rw [List.append_nil] at hends
  have hshape := Fits.dice h.count hd hsides
  have hlength := fragmentLength_dice h.count hd hsides hends
  have hchars : t.chars = (t.count ++ 'd' :: t.sides) ++ modifierChars t.modifier := by simp [chars]
  rw [hchars, fragments_append hshape.ne_nil hshape.not_blank, fragments_modifierChars h.modifier]
  rw [List.append_assoc, List.cons_append, hlength, List.length_append, List.length_cons]
  omega

/-- A bunch with sides, and with a modifier that is read if it has one, is read. -/
theorem Ready.exists_parse (h : t.Ready) (hsides : Digits t.sides)
    (hm : ∀ p ∈ t.modifier, ∃ m, readToken (p.1 :: p.2) = .ok (.modifier m)) :
    ∃ ms, parse t.text = .ok { bunches := [bunchOf .plus (digitsValue t.count) (digitsValue t.sides) ms] } := by
  have hdice := readToken_dice h.count hsides h.count_le h.sides_le
  obtain ⟨ms, hlen, hread⟩ : ∃ ms : List Modifier, ms.length ≤ 1 ∧
      List.Forall₂ (fun cs t => readToken cs = .ok t) (t.modifier.toList.map fun p => p.1 :: p.2)
        (ms.map .modifier) := by
    cases hp : t.modifier with
    | none => exact ⟨[], Nat.zero_le 1, .nil⟩
    | some p =>
      obtain ⟨m, hread⟩ := hm p hp
      exact ⟨[m], le_refl 1, .cons hread .nil⟩
  have htokens : tokenize t.text = .ok (.dice (digitsValue t.count) (digitsValue t.sides) :: ms.map .modifier) := by
    rw [tokenize_eq_ok, text, String.toList_ofList, h.fragments_chars hsides]
    exact .cons hdice hread
  exact ⟨ms, parse_eq_ok.mpr ⟨_, htokens, run_dice_alone _ _ hlen⟩⟩

/-- All of a round is read. -/
theorem Ready.exists_parse_round (h : t.Ready) (ht : t' ∈ t.round) : ∃ n ms,
    parse t'.text = .ok { bunches := [bunchOf .plus (digitsValue t.count) n ms] } ∧
      (t.modifier.isSome → n = digitsValue t.sides) := by
  have hready := h.of_mem_round ht
  obtain ⟨count, sides, modifier⟩ := t
  cases modifier with
  | none =>
    obtain ⟨n, hn, rfl⟩ := List.mem_map.mp ht
    obtain ⟨ms, hparse⟩ := hready.exists_parse (digits_writeNat n) (by simp)
    exact ⟨_, ms, hparse, by simp⟩
  | some m =>
    obtain ⟨p, hp, rfl⟩ := List.mem_map.mp ht
    have hdigits : Digits sides := ⟨h.sides_ne_nil rfl, h.sides⟩
    have hread : ∀ p' ∈ some p, ∃ m, readToken (p'.1 :: p'.2) = .ok (.modifier m) := by
      rintro _ ⟨⟩
      exact exists_readToken_modifier h.count h.count_le hdigits h.sides_le hp
    obtain ⟨ms, hparse⟩ := hready.exists_parse hdigits hread
    exact ⟨_, ms, hparse, fun _ => rfl⟩

def texts (t : Typed) : List String := t.round.map text

theorem Ready.nodup_texts (h : t.Ready) : t.texts.Nodup := by
  refine List.Nodup.map_on (fun t₁ h₁ t₂ h₂ heq => ?_) t.nodup_round
  have hread := (h.of_mem_round h₁).readTyped_text
  rw [heq, (h.of_mem_round h₂).readTyped_text] at hread
  exact (Option.some.inj hread).symm

/-- A step within the texts leads to the next of them. -/
theorem Ready.nextBunch_eq (h : t.Ready) {i : Nat} {s : String} (hs : t.texts[i]? = some s) :
    nextBunch s = .ok t.texts[(i + 1) % t.texts.length]? := by
  rw [texts, List.getElem?_map] at hs
  obtain ⟨t', ht, rfl⟩ := Option.map_eq_some_iff.mp hs
  have hready := h.of_mem_round (List.mem_of_getElem? ht)
  rw [Completion.nextBunch_eq hready.readTyped_text, h.next?_eq ht, texts, List.length_map, List.getElem?_map]
  rfl

end Typed

-- ---------------------------------------------------------------------------
-- Any number of steps
-- ---------------------------------------------------------------------------

/-- A text after a number of steps, for as long as there are any. -/
def stepped : Nat → String → Except Fault (Option String)
  | 0, text => .ok (some text)
  | n + 1, text => do
    match ← nextBunch text with
    | some next => stepped n next
    | none => return none

theorem Typed.Ready.stepped_eq {t : Typed} (h : t.Ready) (j : Nat) {i : Nat} {s : String}
    (hs : t.texts[i]? = some s) : stepped j s = .ok t.texts[(i + j) % t.texts.length]? := by
  obtain ⟨hi, -⟩ := List.getElem?_eq_some_iff.mp hs
  induction j generalizing i s with
  | zero => rw [stepped, Nat.add_zero, Nat.mod_eq_of_lt hi, hs]
  | succ j ih =>
    have hlt : (i + 1) % t.texts.length < t.texts.length := Nat.mod_lt _ (Nat.zero_lt_of_lt hi)
    have hnext := List.getElem?_eq_getElem hlt
    have hindex : ((i + 1) % t.texts.length + j) % t.texts.length = (i + (j + 1)) % t.texts.length := by
      rw [Nat.mod_add_mod, Nat.add_assoc, Nat.add_comm 1 j]
    rw [stepped, h.nextBunch_eq hs, hnext, ← hindex]
    exact ih hnext hlt

theorem Typed.Ready.of_next? {t t' : Typed} {cs : List Char} (hwritten : t.WrittenIn cs)
    (hshort : ∀ ds, ds <:+: cs → (∀ c ∈ ds, isDigit c) → ds.length ≤ digitLimit)
    (h : t.next? = .ok (some t')) : t.Ready where
  toFormed := hwritten.toFormed
  count_le := by
    obtain ⟨c, after, rfl⟩ := hwritten.exists_infix
    exact hshort t.count (List.prefix_append _ _).isInfix hwritten.count.all
  sides_le := by
    obtain ⟨c, after, rfl⟩ := hwritten.exists_infix
    exact hshort t.sides ⟨t.count ++ [c], after, by simp⟩ hwritten.sides
  sides_ne_nil hm hnil := by
    obtain ⟨p, hp⟩ := Option.isSome_iff_exists.mp hm
    simp only [next?, hp, hnil, List.isEmpty_nil, if_true] at h
    cases h

/-- A step from any text that has one leads into a round of texts, each the step from the one before, which
are all read: to one bunch with the count that was typed, and with the sides if there was a modifier. -/
theorem nextBunch_goes_round {text next : String}
    (hshort : ∀ ds, ds <:+: text.toList → (∀ c ∈ ds, isDigit c) → ds.length ≤ digitLimit)
    (h : nextBunch text = .ok (some next)) :
    ∃ (t : Typed) (i : Nat), t.WrittenIn text.toList ∧
      t.texts.length = (if t.modifier.isSome then 4 else 7) ∧ t.texts.Nodup ∧ t.texts[i]? = some next ∧
      (∀ j, ∃ s, t.texts[(i + j) % t.texts.length]? = some s ∧ stepped j next = .ok (some s)) ∧
      ∀ s ∈ t.texts, ∃ b : BunchSpec, parse s = .ok { bunches := [b] } ∧ b.ndice = digitsValue t.count ∧
        b.multiplier = 1 ∧ (t.modifier.isSome → b.sides = digitsValue t.sides) := by
  cases hread : readTyped (lower text.toList) with
  | none =>
    rw [nextBunch, hread] at h
    cases h
  | some t =>
    have hwritten := Typed.writtenIn_of_readTyped hread
    rw [nextBunch_eq hread] at h
    obtain ⟨t?, hnext, ht⟩ := map_ok.mp h
    obtain ⟨t', rfl, rfl⟩ := Option.map_eq_some_iff.mp ht
    have hready := Typed.Ready.of_next? hwritten hshort hnext
    obtain ⟨t'', hround, hnext'⟩ := hready.exists_next?
    obtain rfl : t' = t'' := by simpa using hnext.symm.trans hnext'
    obtain ⟨i, hi⟩ := List.mem_iff_getElem?.mp (List.mem_map_of_mem (f := Typed.text) hround)
    obtain ⟨hlt, -⟩ := List.getElem?_eq_some_iff.mp hi
    refine ⟨t, i, hwritten, by rw [Typed.texts, List.length_map, t.length_round], hready.nodup_texts, hi,
      fun j => ?_, fun s hs => ?_⟩
    · have hj := List.getElem?_eq_getElem (Nat.mod_lt (i + j) (Nat.zero_lt_of_lt hlt))
      exact ⟨_, hj, (hready.stepped_eq j hi).trans (congrArg Except.ok hj)⟩
    · obtain ⟨t₁, ht₁, rfl⟩ := List.mem_map.mp hs
      obtain ⟨n, ms, hparse, hsides⟩ := hready.exists_parse_round ht₁
      exact ⟨_, hparse, rfl, rfl, fun hm => congrArg Nat.cast (hsides hm)⟩

/-- A keep that is half typed: its number is put in, and the other modifiers follow. -/
theorem nextBunch_goes_round_keep :
    (∀ ds, ds <:+: "04D06K".toList → (∀ c ∈ ds, isDigit c) → ds.length ≤ digitLimit) ∧
      nextBunch "04D06K" = .ok (some "04d06k3") ∧
      ∃ (t : Typed) (i : Nat), t.WrittenIn "04D06K".toList ∧
        t.texts = ["04d06x", "04d06k3", "04d06r1", "04d06m6"] ∧ t.texts[i]? = some "04d06k3" ∧
        (∀ j, ∃ s, t.texts[(i + j) % t.texts.length]? = some s ∧ stepped j "04d06k3" = .ok (some s)) ∧
        ∀ s ∈ t.texts, ∃ b : BunchSpec, parse s = .ok { bunches := [b] } ∧ b.ndice = 4 ∧ b.multiplier = 1 ∧
          b.sides = 6 := by
  have hshort : ∀ ds, ds <:+: "04D06K".toList → (∀ c ∈ ds, isDigit c) → ds.length ≤ digitLimit :=
    fun ds hin _ => hin.length_le.trans (by decide)
  have hnext : nextBunch "04D06K" = .ok (some "04d06k3") := ok_of_toOption (by decide +kernel)
  obtain ⟨t, i, hwritten, -, -, hi, hsteps, hparse⟩ := nextBunch_goes_round hshort hnext
  obtain rfl : t = ⟨['0', '4'], ['0', '6'], some ('k', [])⟩ := by
    obtain ⟨stop, hover, hchars⟩ := hwritten.chars
    have hread := readTyped_eq_some.mpr ⟨hwritten.toFormed, stop, isOver_iff.mpr hover, hchars⟩
    have hkeep : readTyped ("04D06K".toList.map small) = some ⟨['0', '4'], ['0', '6'], some ('k', [])⟩ := by decide
    exact Option.some.inj (hread.symm.trans hkeep)
  refine ⟨hshort, hnext, _, i, hwritten, by decide, hi, hsteps, fun s hs => ?_⟩
  obtain ⟨b, hb, hcount, hmultiplier, hsides⟩ := hparse s hs
  have hvalues : digitsValue ['0', '4'] = 4 ∧ digitsValue ['0', '6'] = 6 := by decide
  rw [hvalues.1] at hcount
  rw [hvalues.2] at hsides
  exact ⟨b, hb, hcount, hmultiplier, hsides rfl⟩

end TabletopDice.Completion
