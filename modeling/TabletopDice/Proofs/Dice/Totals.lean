import Mathlib.Data.List.TakeWhile
import TabletopDice.Proofs.Dice.Selection
import TabletopDice.Proofs.Roll.Relabel
import TabletopDice.Proofs.Session
import TabletopDice.Proofs.Text.Words

/-!
# Totals that are shown

What a report shows of a bunch without maps, read word by word as a player reads
it: the totals of the dice that count, which come to the result of the bunch.
Whether the bunch has maps or not, the result is the last word.
-/

namespace TabletopDice

open Text (isBlank words)
open Decimal (digits readInt?)

-- ---------------------------------------------------------------------------
-- Readers
-- ---------------------------------------------------------------------------

namespace Report

def numbers (ws : List (List Char)) : List Int := ws.filterMap readInt?

/-- The words about the dice that are kept, or all words where none says that some are. -/
def afterKeep (ws : List (List Char)) : List (List Char) :=
  match ws.dropWhile (· ≠ "Keep:".toList) with
  | [] => ws
  | _ :: kept => kept

def shownTotals (text : String) : List Int :=
  numbers ((afterKeep (words text.toList)).takeWhile (· ≠ ['=']))

@[simp] theorem numbers_append (ws ws' : List (List Char)) : numbers (ws ++ ws') = numbers ws ++ numbers ws' :=
  List.filterMap_append

theorem numbers_digits {n : Int} (h : Decimal.Writable n) : numbers (words (digits n)) = [n] := by
  rw [Decimal.words_digits, numbers, List.filterMap_cons_some (Decimal.readInt?_digits h)]
  rfl

theorem numbers_of_mem {c : Char} {cs : List Char} (hblank : ∀ d ∈ cs, isBlank d = false) (hc : c ∈ cs)
    (hnot : Decimal.isDigit c = false ∧ c ≠ '_' ∧ c ≠ '-' ∧ c ≠ '+') : numbers (words cs) = [] := by
  have hnone := Decimal.readInt?_eq_none hc ⟨hnot.1, by rw [Decimal.isPadding, hblank c hc, Bool.false_and],
    hnot.2⟩
  rw [Text.words_of_not_blank (List.ne_nil_of_mem hc) hblank, numbers, List.filterMap_cons_none hnone]
  rfl

/-- Neither the word about the kept dice nor the sign of equality begins with it. -/
def IsQuiet (c : Char) : Prop := c ≠ 'K' ∧ c ≠ '='

instance (c : Char) : Decidable (IsQuiet c) := inferInstanceAs (Decidable (_ ∧ _))

theorem isQuiet_of_digits {c : Char} (hc : c = '-' ∨ c.isDigit) : IsQuiet c := by
  rcases hc with rfl | hc
  · decide
  · constructor <;> rintro rfl <;> exact absurd hc (by decide)

theorem quiet_append_blank {cs ds : List Char} (hcs : ∀ c ∈ cs, IsQuiet c) (hds : ∀ c ∈ ds, IsQuiet c) :
    ∀ c ∈ cs ++ ' ' :: ds, IsQuiet c :=
  List.forall_mem_append.mpr ⟨hcs, List.forall_mem_cons.mpr ⟨by decide, hds⟩⟩

/-- A word with a character that a text has not is none of its words. -/
theorem ne_of_mem_words {c : Char} {cs word : List Char} (hword : c ∈ word) (h : c ∉ cs) :
    ∀ w ∈ words cs, decide (w ≠ word) = true := by
  refine fun w hw => decide_eq_true ?_
  rintro rfl
  exact h (Text.mem_of_mem_words hw hword)

end Report

-- ---------------------------------------------------------------------------
-- Wordings
-- ---------------------------------------------------------------------------

namespace Wording

variable {n : Int} {w w' : Wording} {P : Char → Prop}

def chars (w : Wording) : List Char := w.flatMap fun p => p.text.toList

theorem toList_text (w : Wording) : w.text.toList = w.chars := by
  simp [text, chars, String.toList_join, List.flatMap_map]

@[simp] theorem chars_nil : chars [] = [] := rfl

@[simp] theorem chars_append (w w' : Wording) : (w ++ w').chars = w.chars ++ w'.chars := List.flatMap_append

@[simp] theorem chars_words (s : String) (w : Wording) : chars (.words s :: w) = s.toList ++ w.chars :=
  List.flatMap_cons

@[simp] theorem chars_number (n : Int) (w : Wording) : chars (.number n :: w) = digits n ++ w.chars :=
  List.flatMap_cons

theorem chars_flatMap {β : Type} (f : β → Wording) (bs : List β) :
    chars (bs.flatMap f) = bs.flatMap fun b => (f b).chars := List.flatMap_assoc

theorem forall_chars_join {separator : String} (hseparator : ∀ c ∈ separator.toList, P c) {ws : List Wording}
    (h : ∀ w ∈ ws, ∀ c ∈ w.chars, P c) : ∀ c ∈ (join separator ws).chars, P c := by
  cases ws with
  | nil => exact fun c hc => absurd hc List.not_mem_nil
  | cons w ws =>
    rw [List.forall_mem_cons] at h
    rw [join_cons, chars_append, List.forall_mem_append]
    refine ⟨h.1, fun c hc => ?_⟩
    obtain ⟨w', hw', hc⟩ := List.mem_flatMap.mp (chars_flatMap .. ▸ hc)
    exact List.forall_mem_append.mpr ⟨hseparator, h.2 w' hw'⟩ c hc

theorem chars_join (separator : String) (ws : List Wording) :
    (join separator ws).chars = separator.toList.intercalate (ws.map chars) := by
  induction ws with
  | nil => rfl
  | cons w ws ih =>
    cases ws with
    | nil => simp [join]
    | cons w' ws =>
      rw [join_cons_cons, chars_append, chars_words, ih]
      simp

theorem text_join (separator : String) (ws : List Wording) :
    (join separator ws).text = separator.intercalate (ws.map text) := by
  refine String.toList_injective ?_
  rw [toList_text, chars_join, String.toList_intercalate, List.map_map]
  simp only [Function.comp_def, toList_text]

theorem writable_of_join {separator : String} {ws : List Wording} (h : (join separator ws).Writable) :
    ∀ w ∈ ws, w.Writable := by
  cases ws with
  | nil => exact fun w hw => absurd hw List.not_mem_nil
  | cons w ws =>
    rw [join_cons, writable_append] at h
    refine List.forall_mem_cons.mpr ⟨h.1, fun w' hw' p hp => h.2 p ?_⟩
    exact List.mem_flatMap.mpr ⟨w', hw', List.mem_cons_of_mem _ hp⟩

def EndsIn (n : Int) (w : Wording) : Prop := ∃ cs, w.chars = cs ++ ' ' :: digits n

theorem EndsIn.append (v : Wording) (h : w.EndsIn n) : (v ++ w).EndsIn n := by
  obtain ⟨cs, hcs⟩ := h
  exact ⟨v.chars ++ cs, by rw [chars_append, hcs, List.append_assoc]⟩

theorem EndsIn.cons (p : Piece) (h : w.EndsIn n) : EndsIn n (p :: w) := h.append [p]

theorem EndsIn.getLast? (h : w.EndsIn n) : (words w.chars).getLast? = some (digits n) := by
  obtain ⟨cs, hcs⟩ := h
  rw [hcs, Text.words_append_blank (by decide), Decimal.words_digits, List.getLast?_concat]

theorem EndsIn.join (separator : String) (ws : List Wording) (h : w.EndsIn n) :
    (join separator (ws ++ [w])).EndsIn n := by
  cases ws with
  | nil => simpa [Wording.join] using h
  | cons v ws =>
    rw [List.cons_append, join_cons, List.flatMap_append, List.flatMap_singleton]
    exact ((h.append [.words separator]).append _).append v

section
variable {β : Type} {f : β → Wording} {v : β → Int} {bs : List β}
  (h : ∀ b ∈ bs, Report.numbers (words (f b).chars) = [v b])
include h

theorem numbers_more (cs : List Char) :
    Report.numbers (words (cs ++ chars (bs.flatMap fun b => .words " + " :: f b))) =
      Report.numbers (words cs) ++ bs.map v := by
  induction bs generalizing cs with
  | nil => simp
  | cons b bs ih =>
    rw [List.forall_mem_cons] at h
    have hplus : Report.numbers (words ['+']) = [] := by decide
    have hsplit : cs ++ chars ((b :: bs).flatMap fun b => .words " + " :: f b) =
        cs ++ ' ' :: (['+'] ++ ' ' :: ((f b).chars ++ chars (bs.flatMap fun b => .words " + " :: f b))) := by
      simp
    rw [hsplit, Text.words_append_blank (by decide), Text.words_append_blank (by decide)]
    simp [hplus, ih h.2, h.1]

/-- Several numbers with plus signs between them. -/
theorem numbers_join : Report.numbers (words (Wording.join " + " (bs.map f)).chars) = bs.map v := by
  cases bs with
  | nil => rfl
  | cons b bs =>
    rw [List.forall_mem_cons] at h
    rw [List.map_cons, join_cons, List.flatMap_map, chars_append, numbers_more h.2, h.1]
    rfl

end

end Wording

-- ---------------------------------------------------------------------------
-- Histories
-- ---------------------------------------------------------------------------

/-- Its total is its value and has no label. -/
structure History.Bare (h : History) : Prop where
  total : h.total = some h.value
  label : h.label = ""

namespace History

variable {h : History} {P : Char → Prop}

theorem bare_add (h : History) (roll : Int) (reason : Effect) : (h.add roll reason).Bare := ⟨rfl, rfl⟩

theorem Bare.explainTotal_eq (hh : h.Bare) : h.explainTotal = [.number h.value] := by
  simp [explainTotal, labelSuffix, hh.label, hh.total, Wording.ofNumber?]

theorem Bare.explain_eq (hh : h.Bare) : h.explain =
    (if h.steps.size < 2 then [] else .words "[" :: stepsText h.steps.toList ++ [.words "] "]) ++
      [.number h.value] := by
  unfold explain breakdown
  rw [labelSuffix, if_pos hh.label, hh.total]
  split <;> simp [Wording.ofNumber?]

/-- What is in a text that only has numbers and the marks of effects in it. -/
theorem forall_chars_stepsText (hdigits : ∀ c, c = '-' ∨ c.isDigit → P c)
    (hmarks : ∀ e : Effect, ∀ c ∈ e.symbol.toList, P c) (steps : List RollStep) :
    ∀ c ∈ (stepsText steps).chars, P c := by
  have hroll : ∀ (roll : Int), ∀ c ∈ digits roll, P c := fun _ c hc => hdigits c (Decimal.mem_digits hc)
  cases steps with
  | nil => exact fun c hc => absurd hc List.not_mem_nil
  | cons first later =>
    rw [stepsText, Wording.chars_number, Wording.chars_flatMap, List.forall_mem_append]
    refine ⟨hroll first.roll, fun c hc => ?_⟩
    obtain ⟨step, -, hc⟩ := List.mem_flatMap.mp hc
    rw [Wording.chars_words, Wording.chars_number, List.mem_append, List.mem_append] at hc
    rcases hc with hc | hc | hc
    · exact hmarks step.reason c hc
    · exact hroll step.roll c hc
    · cases hc

theorem Bare.forall_chars_explain (hh : h.Bare) (hdigits : ∀ c, c = '-' ∨ c.isDigit → P c)
    (hmarks : ∀ e : Effect, ∀ c ∈ e.symbol.toList, P c) (hbrackets : ∀ c ∈ ['[', ']', ' '], P c) :
    ∀ c ∈ h.explain.chars, P c := by
  have hsteps := forall_chars_stepsText hdigits hmarks h.steps.toList
  have hvalue : ∀ c ∈ digits h.value, P c := fun c hc => hdigits c (Decimal.mem_digits hc)
  simp only [List.forall_mem_cons] at hbrackets
  rw [hh.explain_eq]
  split
  · simpa using hvalue
  · simpa [or_imp, forall_and, hbrackets] using ⟨hsteps, hvalue⟩

theorem not_blank_stepsText (steps : List RollStep) : ∀ c ∈ (stepsText steps).chars, isBlank c = false := by
  refine forall_chars_stepsText ?_ ?_ steps
  · rintro c (rfl | hc)
    · decide
    · exact Text.isBlank_of_isAlphanum (by simp [Char.isAlphanum, hc])
  · exact fun e => List.all_iff_forall_prop.mp (by cases e <;> decide)

/-- The only number that stands alone in it is the value. -/
theorem Bare.numbers_explain (hh : h.Bare) (hw : h.explain.Writable) :
    Report.numbers (words h.explain.chars) = [h.value] := by
  rw [hh.explain_eq] at hw ⊢
  have hvalue : Decimal.Writable h.value := (Wording.writable_number _).mp (Wording.writable_append.mp hw).2
  split
  · simpa using Report.numbers_digits hvalue
  · have hrolls : ∀ c ∈ '[' :: ((stepsText h.steps.toList).chars ++ [']']), isBlank c = false := by
      have hbrackets : isBlank '[' = false ∧ isBlank ']' = false := by decide
      simpa [or_imp, forall_and, hbrackets] using not_blank_stepsText h.steps.toList
    have hnone := Report.numbers_of_mem hrolls List.mem_cons_self (by decide)
    have hsplit : Wording.chars (.words "[" :: stepsText h.steps.toList ++ [.words "] "] ++ [.number h.value]) =
        '[' :: ((stepsText h.steps.toList).chars ++ [']']) ++ ' ' :: digits h.value := by
      simp
    rw [hsplit, Text.words_append_blank (by decide), Report.numbers_append, hnone,
      Report.numbers_digits hvalue]
    rfl

theorem Bare.endsIn_explain (hh : h.Bare) (label : String) :
    Wording.EndsIn h.value (.words (label ++ ": ") :: h.explain) := by
  rw [hh.explain_eq]
  split
  · exact ⟨label.toList ++ [':'], by simp⟩
  · have hend : Wording.EndsIn h.value [.words "] ", .number h.value] := ⟨"]".toList, by simp⟩
    rw [List.append_assoc]
    exact (hend.append _).cons _

end History

namespace RuledDie

variable {σ : Type} (draw : Nat → StateM σ Int) {d : RuledDie} {h : History}

theorem returns_bare_rollOn (fuel : Nat) (left : List Nat) (face : Int) (hh : h.Bare) :
    Returns History.Bare (d.rollOn draw fuel left face h) := by
  induction fuel generalizing left face h with
  | zero => exact .pure hh
  | succ fuel ih =>
    rw [rollOn_succ]
    split
    · exact .pure hh
    · exact fun s => ih _ _ (h.bare_add _ _) _

/-- A die without maps shows its value, whatever the draws are. -/
theorem returns_bare (hd : d.maps.isEmpty) : Returns History.Bare (d.roll draw) := by
  have hrolled := fun face => returns_bare_rollOn draw (d := d) (d.uses.foldr (· + ·) 0) d.uses face
    (History.bare_add {} face .basic)
  have hface : Returns (fun _ : Int => True) (d.toDie.roll draw) := fun _ => trivial
  refine hface.bind fun face _ => (hrolled face).bind fun h hh => .pure ?_
  rwa [finish, if_pos hd]

end RuledDie

-- ---------------------------------------------------------------------------
-- Bunches
-- ---------------------------------------------------------------------------

def Wording.equals (p : Prop) [Decidable p] (n : Int) : Wording :=
  if p then [.words " = ", .number n] else []

namespace Report

section
variable {cs : List Char} (h : ∀ c ∈ cs, IsQuiet c) (p : Prop) [Decidable p] (n : Int)
include h

theorem afterKeep_append (ws : List (List Char)) : afterKeep (words cs ++ "Keep:".toList :: ws) = ws := by
  have hbefore := ne_of_mem_words (by decide : 'K' ∈ "Keep:".toList) fun hc => (h 'K' hc).1 rfl
  rw [afterKeep, List.dropWhile_append_of_pos hbefore]
  rfl

theorem afterKeep_words :
    afterKeep (words (cs ++ (Wording.equals p n).chars)) = words (cs ++ (Wording.equals p n).chars) := by
  have hsum : 'K' ∉ (Wording.equals p n).chars := by
    unfold Wording.equals
    split
    · simpa using fun hc => (isQuiet_of_digits (Decimal.mem_digits hc)).1 rfl
    · exact List.not_mem_nil
  have hnot : 'K' ∉ cs ++ (Wording.equals p n).chars := fun hc =>
    (List.mem_append.mp hc).elim (fun hc => (h 'K' hc).1 rfl) hsum
  have hall := ne_of_mem_words (by decide : 'K' ∈ "Keep:".toList) hnot
  rw [afterKeep, List.dropWhile_eq_nil_iff.mpr hall]

/-- Up to the sign of equality there are only the words before it. -/
theorem takeWhile_words :
    (words (cs ++ (Wording.equals p n).chars)).takeWhile (· ≠ ['=']) = words cs := by
  have hbefore := ne_of_mem_words (by decide : '=' ∈ ['=']) fun hc => (h '=' hc).2 rfl
  unfold Wording.equals
  split
  · have hsplit : cs ++ Wording.chars [.words " = ", .number n] = cs ++ ' ' :: (['='] ++ ' ' :: digits n) := by
      simp
    rw [hsplit, Text.words_append_blank (by decide), Text.words_append_blank (by decide),
      List.takeWhile_append_of_pos hbefore]
    exact List.append_nil _
  · simpa using List.takeWhile_eq_self_iff.mpr hbefore

end

end Report

namespace Bunch

variable {b : Bunch} {r : BunchRoll}

theorem toList_label (b : Bunch) : b.label.toList = digits b.count ++ 'd' :: digits b.die.sides := by
  simp [label, Decimal.digits_natCast, Decimal.writeNat, Nat.repr_eq_ofList_toDigits]

theorem chars_explainLabelled (b : Bunch) (r : BunchRoll) :
    (b.explainLabelled r).chars = (b.label.toList ++ [':']) ++ ' ' :: (b.explain r).chars := by
  simp [explainLabelled]

theorem quiet_label (b : Bunch) : ∀ c ∈ b.label.toList ++ [':'], Report.IsQuiet c := by
  have hdigits : ∀ n : Int, ∀ c ∈ digits n, Report.IsQuiet c := fun n c hc =>
    Report.isQuiet_of_digits (Decimal.mem_digits hc)
  have hmarks : Report.IsQuiet 'd' ∧ Report.IsQuiet ':' := by decide
  rw [toList_label]
  simpa [or_imp, forall_and, hmarks] using ⟨hdigits _, hdigits _⟩

theorem numbers_label (b : Bunch) : Report.numbers (words (b.label.toList ++ [':'])) = [] := by
  have hmarks : isBlank 'd' = false ∧ isBlank ':' = false := by decide
  refine Report.numbers_of_mem ?_ (List.mem_concat_self : ':' ∈ _) (by decide)
  rw [toList_label]
  simpa [or_imp, forall_and, hmarks] using ⟨Decimal.not_blank_digits, Decimal.not_blank_digits⟩

section
variable (hmaps : b.hasMaps = false)
include hmaps

theorem explain_of_all (hk : b.keep = none) : b.explain r =
    Wording.join " + " (r.details.map History.explain) ++ .equals (b.count > 1) r.result := by
  simp [explain, hk, hmaps, Wording.equals]

theorem explain_of_keep {k : Keep} (hk : b.keep = some k) : b.explain r =
    Wording.join ", " (r.details.map History.explain) ++ .words ". Keep: " ::
      (Wording.join " + " (r.kept.map History.explainTotal) ++ .equals (k.count > 1) r.result) := by
  simp [explain, hk, hmaps, Wording.equals]

end

theorem quiet_details (separator : String) (hseparator : ∀ c ∈ separator.toList, Report.IsQuiet c)
    {details : List History} (h : ∀ h ∈ details, h.Bare) :
    ∀ c ∈ (Wording.join separator (details.map History.explain)).chars, Report.IsQuiet c := by
  have hmarks : ∀ e : Effect, ∀ c ∈ e.symbol.toList, Report.IsQuiet c := fun e =>
    List.all_iff_forall_prop.mp (by cases e <;> decide)
  refine Wording.forall_chars_join hseparator fun w hw => ?_
  obtain ⟨x, hx, rfl⟩ := List.mem_map.mp hw
  exact (h x hx).forall_chars_explain (fun _ => Report.isQuiet_of_digits) hmarks
    (List.all_iff_forall_prop.mp (by decide))

theorem quiet_kept {kept : List History} (h : ∀ h ∈ kept, h.Bare) :
    ∀ c ∈ (Wording.join " + " (kept.map History.explainTotal)).chars, Report.IsQuiet c := by
  refine Wording.forall_chars_join (List.all_iff_forall_prop.mp (by decide)) fun w hw => ?_
  obtain ⟨x, hx, rfl⟩ := List.mem_map.mp hw
  rw [(h x hx).explainTotal_eq]
  simpa using fun c hc => Report.isQuiet_of_digits (Decimal.mem_digits hc)

section
variable (hmaps : b.hasMaps = false) (hbare : ∀ h ∈ r.details, h.Bare) (hw : (b.explain r).Writable)
include hmaps hbare hw

theorem shownTotals_of_all (hk : b.keep = none) :
    Report.shownTotals (b.explainLabelled r).text = r.details.map History.value := by
  have hquiet := Report.quiet_append_blank b.quiet_label
    (quiet_details " + " (List.all_iff_forall_prop.mp (by decide)) hbare)
  rw [explain_of_all hmaps hk] at hw
  have hwritable := Wording.writable_of_join (Wording.writable_append.mp hw).1
  have hnumbers := Wording.numbers_join (f := History.explain) (v := History.value) fun h hh =>
    (hbare h hh).numbers_explain (hwritable _ (List.mem_map_of_mem hh))
  rw [Report.shownTotals, Wording.toList_text, chars_explainLabelled, explain_of_all hmaps hk,
    Wording.chars_append, ← List.cons_append, ← List.append_assoc, Report.afterKeep_words hquiet,
    Report.takeWhile_words hquiet, Text.words_append_blank (by decide), Report.numbers_append, b.numbers_label,
    hnumbers]
  rfl

theorem shownTotals_of_keep {k : Keep} (hk : b.keep = some k) (hkept : ∀ h ∈ r.kept, h.Bare) :
    Report.shownTotals (b.explainLabelled r).text = r.kept.map History.value := by
  have hquiet := Report.quiet_append_blank b.quiet_label
    (quiet_details ", " (List.all_iff_forall_prop.mp (by decide)) hbare)
  rw [explain_of_keep hmaps hk] at hw
  have hrest := (List.forall_mem_cons.mp (Wording.writable_append.mp hw).2).2
  have hwritable := Wording.writable_of_join (Wording.writable_append.mp hrest).1
  have hnumbers : ∀ h ∈ r.kept, Report.numbers (words h.explainTotal.chars) = [h.value] := by
    intro h hh
    have hvalue := hwritable _ (List.mem_map_of_mem hh)
    rw [(hkept h hh).explainTotal_eq] at hvalue ⊢
    simpa using Report.numbers_digits ((Wording.writable_number _).mp hvalue)
  have hstop := List.forall_mem_append.mpr
    ⟨hquiet, (List.forall_mem_singleton.mpr (by decide) : ∀ c ∈ ['.'], Report.IsQuiet c)⟩
  obtain ⟨cs, hcs, hsplit⟩ : ∃ cs : List Char, (∀ c ∈ cs, Report.IsQuiet c) ∧ (b.explainLabelled r).chars =
      cs ++ ' ' :: ("Keep:".toList ++ ' ' :: ((Wording.join " + " (r.kept.map History.explainTotal)).chars ++
        (Wording.equals (k.count > 1) r.result).chars)) := by
    refine ⟨_, hstop, ?_⟩
    rw [chars_explainLabelled, explain_of_keep hmaps hk]
    simp
  have hword : words "Keep:".toList = ["Keep:".toList] := by decide
  rw [Report.shownTotals, Wording.toList_text, hsplit, Text.words_append_blank (by decide),
    Text.words_append_blank (by decide), hword, List.singleton_append, Report.afterKeep_append hcs,
    Report.takeWhile_words (quiet_kept hkept), Wording.numbers_join hnumbers]

end

/-- The totals that the bunch shows of the dice that count come to its result. -/
theorem shownTotals_perm (hmaps : b.hasMaps = false) (hr : b.Keeps r) (hbare : ∀ h ∈ r.details, h.Bare)
    (hw : (b.explain r).Writable) :
    (Report.shownTotals (b.explainLabelled r).text).Perm (r.kept.map History.value) := by
  cases hk : b.keep with
  | none =>
    rw [shownTotals_of_all hmaps hbare hw hk]
    exact ((hr.kept_perm hk).map History.value).symm
  | some k => rw [shownTotals_of_keep hmaps hbare hw hk fun h hh => hbare h (hr.kept_subset hh)]

theorem endsIn_explain_of_maps (hmaps : b.hasMaps) : (b.explain r).EndsIn r.result := by
  have hsuccesses : Wording.EndsIn r.result [.words ". Successes: ", .number r.result] :=
    ⟨". Successes:".toList, by simp⟩
  rw [explain]
  cases hk : b.keep with
  | none =>
    simp only [hmaps, if_true]
    exact hsuccesses.append _
  | some k =>
    simp only [hmaps, if_true]
    exact hsuccesses.append _

/-- What the bunch shows ends with its result, be it as the value of the only die that counts. -/
theorem endsIn_explainLabelled (hr : b.Keeps r) (hbare : b.hasMaps = false → ∀ h ∈ r.details, h.Bare) :
    (b.explainLabelled r).EndsIn r.result := by
  have hequals : Wording.EndsIn r.result [.words " = ", .number r.result] := ⟨" =".toList, by simp⟩
  cases hmaps : b.hasMaps with
  | true => exact (endsIn_explain_of_maps hmaps).cons _
  | false =>
    replace hbare := hbare hmaps
    rw [explainLabelled]
    cases hk : b.keep with
    | none =>
      rw [explain_of_all hmaps hk]
      by_cases hcount : b.count > 1
      · rw [Wording.equals, if_pos hcount]
        exact (hequals.append _).cons _
      · have hpos := b.count_pos
        obtain ⟨x, hkept, hresult⟩ := hr.exists_kept (by
          simp only [counted, hk]
          omega)
        have hdetails := hr.kept_perm hk
        rw [hkept, List.singleton_perm] at hdetails
        rw [hresult, ← hdetails, Wording.equals, if_neg hcount, List.append_nil, List.map_singleton]
        have hx := hbare x (by rw [← hdetails]; exact List.mem_cons_self)
        simpa [Wording.join] using hx.endsIn_explain b.label
    | some k =>
      rw [explain_of_keep hmaps hk]
      by_cases hcount : k.count > 1
      · rw [Wording.equals, if_pos hcount]
        exact (((hequals.append _).cons _).append _).cons _
      · have hpos := b.count_pos
        have hkpos := k.count_pos
        obtain ⟨x, hkept, hresult⟩ := hr.exists_kept (by
          simp only [counted, hk]
          omega)
        have hx := hbare x (hr.kept_subset (by rw [hkept]; exact List.mem_cons_self))
        have hend : Wording.EndsIn x.value [.words ". Keep: ", .number x.value] := ⟨". Keep:".toList, by simp⟩
        rw [hresult, hkept, Wording.equals, if_neg hcount, List.append_nil, List.map_singleton,
          hx.explainTotal_eq]
        exact (hend.append _).cons _

end Bunch

end TabletopDice
