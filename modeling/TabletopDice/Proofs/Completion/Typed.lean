import TabletopDice.Proofs.Notation.Scan
import TabletopDice.Proofs.Text.Case
import TabletopDice.Completion

/-!
# Bunches as they are typed

A text is read as a bunch just where it is the text of one, with letters of
either case and at most a line end after it.
-/

namespace TabletopDice.Completion

open Notation
open Decimal (isDigit)
open Text (lower small IsAscii LowersAlone)

-- ---------------------------------------------------------------------------
-- Bunches as they are typed
-- ---------------------------------------------------------------------------

def modifierChars : Option (Char × List Char) → List Char
  | none => []
  | some m => m.1 :: m.2

namespace Typed

def chars (t : Typed) : List Char := t.count ++ 'd' :: (t.sides ++ modifierChars t.modifier)

def text (t : Typed) : String := String.ofList t.chars

structure Formed (t : Typed) : Prop where
  count : Digits t.count
  sides : ∀ c ∈ t.sides, isDigit c
  modifier : ∀ m ∈ t.modifier, m.1 ∈ modifierLetters ∧ ∀ c ∈ m.2, isDigit c

/-- The text is that of the bunch, with letters of either case. It may end in a line end. -/
structure WrittenIn (t : Typed) (cs : List Char) : Prop extends Formed t where
  chars : ∃ stop, (stop = [] ∨ stop = ['\n']) ∧ cs.map small = t.chars ++ stop

end Typed

theorem isOver_iff {cs : List Char} : isOver cs = true ↔ cs = [] ∨ cs = ['\n'] := by
  simp [isOver]

theorem ends_of_isOver {cs : List Char} (h : isOver cs) : Ends isDigit cs := by
  rcases isOver_iff.mp h with rfl | rfl
  · exact ends_nil _
  · exact ends_cons.mpr (Text.isDigit_eq_false (by decide))

theorem readModifier_eq_some {cs : List Char} {m : Option (Char × List Char)} :
    readModifier cs = some m ↔ (∀ p ∈ m, p.1 ∈ modifierLetters ∧ ∀ c ∈ p.2, isDigit c) ∧
      ∃ stop, isOver stop ∧ cs = modifierChars m ++ stop := by
  constructor
  · intro h
    unfold readModifier at h
    split at h
    · rename_i c rest
      split at h
      · rename_i hc
        split at h
        · rename_i hover
          obtain rfl := Option.some.inj h
          refine ⟨?_, rest.dropWhile isDigit, hover, ?_⟩
          · rintro _ ⟨⟩
            exact ⟨by simpa using hc, fun d hd => List.mem_takeWhile_imp hd⟩
          · simp [modifierChars, List.takeWhile_append_dropWhile]
        · cases h
      · split at h
        · rename_i hover
          obtain rfl := Option.some.inj h
          exact ⟨by simp, _, hover, rfl⟩
        · cases h
    · obtain rfl := Option.some.inj h
      exact ⟨by simp, [], rfl, rfl⟩
  · rintro ⟨hm, stop, hover, rfl⟩
    cases m with
    | none =>
      rcases isOver_iff.mp hover with rfl | rfl
      · rfl
      · rfl
    | some p =>
      obtain ⟨hletter, hds⟩ := hm p rfl
      have hcontains : modifierLetters.contains p.1 = true := by simpa using hletter
      have hends := ends_of_isOver hover
      simp only [modifierChars, List.cons_append, readModifier, hcontains, if_true, dropWhile_run hds hends,
        takeWhile_run hds hends, hover]

theorem forall_modifierLetters {P : Char → Prop} (h : P 'x' ∧ P 'k' ∧ P 'r' ∧ P 'm') :
    ∀ c ∈ modifierLetters, P c := by
  simpa only [modifierLetters, List.forall_mem_cons, List.not_mem_nil, false_imp_iff, implies_true, and_true] using h

theorem not_isDigit_d : isDigit 'd' = false := Text.isDigit_eq_false (by decide)

theorem ends_modifierChars {m : Option (Char × List Char)} (hm : ∀ p ∈ m, p.1 ∈ modifierLetters)
    {stop : List Char} (hstop : Ends isDigit stop) : Ends isDigit (modifierChars m ++ stop) := by
  cases m with
  | none => exact hstop
  | some p =>
    have hletters : ∀ c ∈ modifierLetters, isDigit c = false := fun c hc =>
      Text.isDigit_eq_false (forall_modifierLetters (P := fun c => IsAscii c ∧ c.isDigit = false) (by decide) c hc)
    exact ends_cons.mpr (hletters p.1 (hm p rfl))

theorem readTyped_eq_some {cs : List Char} {t : Typed} :
    readTyped cs = some t ↔ t.Formed ∧ ∃ stop, isOver stop ∧ cs = t.chars ++ stop := by
  constructor
  · intro h
    have hsplit := List.takeWhile_append_dropWhile (p := isDigit) (l := cs)
    unfold readTyped at h
    split at h
    · cases h
    · rename_i rest hrest hne
      obtain ⟨m, hm, rfl⟩ := Option.map_eq_some_iff.mp h
      obtain ⟨hform, stop, hover, hstop⟩ := readModifier_eq_some.mp hm
      have hsplit' := List.takeWhile_append_dropWhile (p := isDigit) (l := rest)
      refine ⟨⟨⟨hne, fun c hc => List.mem_takeWhile_imp hc⟩, fun c hc => List.mem_takeWhile_imp hc, hform⟩,
        stop, hover, ?_⟩
      calc cs = cs.takeWhile isDigit ++ 'd' :: rest := by rw [← hrest, hsplit]
        _ = cs.takeWhile isDigit ++ 'd' :: (rest.takeWhile isDigit ++ (modifierChars m ++ stop)) := by
          rw [← hstop, hsplit']
        _ = _ := by simp [Typed.chars]
    · cases h
  · rintro ⟨ht, stop, hover, rfl⟩
    have hends : Ends isDigit ('d' :: (t.sides ++ modifierChars t.modifier ++ stop)) := ends_cons.mpr not_isDigit_d
    have hends' := ends_modifierChars (fun p hp => (ht.modifier p hp).1) (ends_of_isOver hover)
    have hchars : t.chars ++ stop = t.count ++ 'd' :: (t.sides ++ modifierChars t.modifier ++ stop) := by
      simp [Typed.chars]
    have hread := readModifier_eq_some.mpr ⟨ht.modifier, stop, hover, rfl⟩
    rw [hchars, readTyped, takeWhile_run ht.count.all hends, dropWhile_run ht.count.all hends, List.append_assoc]
    split
    · exact absurd ‹_› ht.count.ne_nil
    · rename_i hrest _
      obtain ⟨-, rfl⟩ := List.cons.inj hrest
      rw [dropWhile_run ht.sides hends', takeWhile_run ht.sides hends', hread]
      rfl
    · rename_i hne
      exact absurd rfl (hne _)

-- ---------------------------------------------------------------------------
-- Lower case
-- ---------------------------------------------------------------------------

namespace Typed

variable {t : Typed}

theorem Formed.mem_chars (h : t.Formed) {c : Char} (hc : c ∈ t.chars) :
    isDigit c ∨ c ∈ 'd' :: modifierLetters := by
  simp only [chars, List.mem_append, List.mem_cons] at hc
  rcases hc with hc | rfl | hc | hc
  · exact .inl (h.count.all c hc)
  · exact .inr List.mem_cons_self
  · exact .inl (h.sides c hc)
  · cases hm : t.modifier with
    | none =>
      rw [hm] at hc
      cases hc
    | some p =>
      rw [hm] at hc
      obtain ⟨hletter, hds⟩ := h.modifier p hm
      rcases List.mem_cons.mp hc with rfl | hc
      · exact .inr (List.mem_cons_of_mem 'd' hletter)
      · exact .inl (hds c hc)

theorem Formed.lower_chars (h : t.Formed) : lower t.chars = t.chars := by
  have hletters : ∀ c ∈ 'd' :: modifierLetters, LowersAlone c ∧ small c = c :=
    List.forall_mem_cons.mpr ⟨by decide, forall_modifierLetters (by decide)⟩
  have hsmall : ∀ c ∈ t.chars, LowersAlone c ∧ small c = c := fun c hc => by
    rcases h.mem_chars hc with hc | hc
    · exact ⟨Text.lowersAlone_of_isDigit hc, (Text.caseless_of_isDigit hc c).mpr rfl⟩
    · exact hletters c hc
  rw [Text.lower_of_lowersAlone fun c hc => (hsmall c hc).1, List.map_congr_left fun c hc => (hsmall c hc).2]
  exact List.map_id t.chars

theorem Formed.readTyped_text (h : t.Formed) : readTyped (lower t.text.toList) = some t := by
  rw [text, String.toList_ofList, h.lower_chars]
  exact readTyped_eq_some.mpr ⟨h, [], rfl, (List.append_nil t.chars).symm⟩

/-- What is read in lower case is written in the text itself. -/
theorem writtenIn_of_readTyped {cs : List Char} (h : readTyped (lower cs) = some t) : t.WrittenIn cs := by
  obtain ⟨hform, stop, hover, hlower⟩ := readTyped_eq_some.mp h
  have hletters : ∀ c ∈ 'd' :: modifierLetters, IsAscii c :=
    List.forall_mem_cons.mpr ⟨by decide, forall_modifierLetters (by decide)⟩
  have hchars : ∀ x ∈ lower cs, IsAscii x ∨ isDigit x := by
    intro x hx
    rw [hlower, List.mem_append] at hx
    rcases hx with hx | hx
    · exact (hform.mem_chars hx).symm.imp_left (hletters x)
    · rcases isOver_iff.mp hover with rfl | rfl
      · cases hx
      · exact .inl (List.mem_singleton.mp hx ▸ by decide)
  exact { hform with chars := ⟨stop, isOver_iff.mp hover, (Text.lower_eq_map_small hchars).symm.trans hlower⟩ }

theorem WrittenIn.exists_infix {cs : List Char} (h : t.WrittenIn cs) :
    ∃ c after, cs = t.count ++ c :: (t.sides ++ after) := by
  obtain ⟨stop, -, hcs⟩ := h.chars
  rw [Typed.chars, List.append_assoc,
    Text.map_small_eq_append fun c hc => Text.caseless_of_isDigit (h.count.all c hc)] at hcs
  obtain ⟨rest, rfl, hrest⟩ := hcs
  rw [List.cons_append] at hrest
  obtain ⟨c, sides, rfl, -, hsides⟩ := List.map_eq_cons_iff.mp hrest
  rw [List.append_assoc, Text.map_small_eq_append fun c hc => Text.caseless_of_isDigit (h.sides c hc)] at hsides
  obtain ⟨after, rfl, -⟩ := hsides
  exact ⟨c, after, rfl⟩

end Typed

end TabletopDice.Completion
