import Mathlib.Data.List.Forall2
import TabletopDice.Proofs.Dice.Totals
import TabletopDice.Proofs.FrontEnds

/-!
# Reports add up

A line about a roll begins and ends with the result, the sum that it may have
at its end comes to the result, and the totals that it shows of each bunch come
to the result of the bunch. All of that holds wherever the draws come from, also
if they are no faces.
-/

namespace TabletopDice

open Text (words)
open Decimal (digits readInt?)

-- ---------------------------------------------------------------------------
-- Sums
-- ---------------------------------------------------------------------------

namespace Report

def sumOn (sum : Int) : List (List Char) → Option Int
  | [] => some sum
  | ['+'] :: w :: ws => do sumOn (sum + (← readInt? w)) ws
  | ['-'] :: w :: ws => do sumOn (sum - (← readInt? w)) ws
  | _ => none

def sumValue : List (List Char) → Option Int
  | [] => none
  | w :: ws => do sumOn (← readInt? w) ws

/-- The words of a sum: its first number, then a sign and a number without one for each other. -/
def sumWords : List Int → List (List Char)
  | [] => []
  | x :: xs => digits x :: xs.flatMap fun y => [if y < 0 then ['-'] else ['+'], digits y.natAbs]

theorem sumOn_signed (sum : Int) {xs : List Int} (h : ∀ x ∈ xs, Decimal.Writable x) :
    sumOn sum (xs.flatMap fun y => [if y < 0 then ['-'] else ['+'], digits y.natAbs]) = some (sum + xs.sum) := by
  induction xs generalizing sum with
  | nil => simp [sumOn]
  | cons x xs ih =>
    rw [List.forall_mem_cons] at h
    have hread : readInt? (digits x.natAbs) = some (x.natAbs : Int) := Decimal.readInt?_digits h.1
    rw [List.flatMap_cons, List.cons_append, List.singleton_append]
    split
    · rw [sumOn, hread, Option.bind_eq_bind, Option.bind_some, ih _ h.2, List.sum_cons]
      exact congrArg some (by omega)
    · rw [sumOn, hread, Option.bind_eq_bind, Option.bind_some, ih _ h.2, List.sum_cons]
      exact congrArg some (by omega)

theorem sumValue_sumWords {xs : List Int} (hne : xs ≠ []) (h : ∀ x ∈ xs, Decimal.Writable x) :
    sumValue (sumWords xs) = some xs.sum := by
  cases xs with
  | nil => exact absurd rfl hne
  | cons x xs =>
    rw [List.forall_mem_cons] at h
    rw [sumWords, sumValue, Decimal.readInt?_digits h.1, Option.bind_eq_bind, Option.bind_some,
      sumOn_signed x h.2, List.sum_cons]

end Report

namespace Dice

theorem chars_first (x : Int) : Wording.chars (if (Summand.ofInt x).isNegative
    then .words "-" :: (Summand.ofInt x).size else (Summand.ofInt x).size) = digits x := by
  rw [Decimal.digits_eq_sign]
  by_cases hx : x < 0 <;> simp [Summand.ofInt, hx]

theorem words_more (cs ds : List Char) (xs : List Int) :
    words (cs ++ (Wording.chars ((xs.map Summand.ofInt).flatMap fun s =>
        .words (if s.isNegative then " - " else " + ") :: s.size) ++ ' ' :: ds)) =
      words cs ++ (xs.flatMap fun y => [if y < 0 then ['-'] else ['+'], digits y.natAbs]) ++ words ds := by
  induction xs generalizing cs with
  | nil => simpa using Text.words_append_blank (by decide) cs ds
  | cons x xs ih =>
    have hsign : words (if x < 0 then ['-'] else ['+']) = [if x < 0 then ['-'] else ['+']] := by
      split <;> decide
    have hsplit : Wording.chars (((x :: xs).map Summand.ofInt).flatMap fun s =>
        .words (if s.isNegative then " - " else " + ") :: s.size) =
        ' ' :: ((if x < 0 then ['-'] else ['+']) ++ ' ' :: (digits x.natAbs ++
          Wording.chars ((xs.map Summand.ofInt).flatMap fun s =>
            .words (if s.isNegative then " - " else " + ") :: s.size))) := by
      by_cases hx : x < 0 <;> simp [Summand.ofInt, hx]
    rw [hsplit]
    simp only [List.cons_append, List.append_assoc]
    rw [Text.words_append_blank (by decide), Text.words_append_blank (by decide), ih, hsign, Decimal.words_digits]
    simp

/-- A sum as its words. -/
theorem words_sumText (n : Int) {xs : List Int} (hne : xs ≠ []) :
    words (sumText [.number n] (xs.map Summand.ofInt)).chars = Report.sumWords xs ++ [['='], digits n] := by
  cases xs with
  | nil => exact absurd rfl hne
  | cons x xs =>
    rw [List.map_cons, sumText, Wording.chars_append, Wording.chars_append, chars_first]
    have hend : Wording.chars (.words " = " :: [.number n]) = ' ' :: (['='] ++ ' ' :: digits n) := by simp
    have hequals : words ['='] = [['=']] := by decide
    rw [hend, List.append_assoc, words_more, Decimal.words_digits, Text.words_append_blank (by decide), hequals,
      Decimal.words_digits, Report.sumWords]
    rfl

theorem writable_of_sumText {n : Int} {xs : List Int} (h : (sumText [.number n] (xs.map Summand.ofInt)).Writable) :
    ∀ x ∈ xs, Decimal.Writable x := by
  cases xs with
  | nil => exact fun x hx => absurd hx List.not_mem_nil
  | cons x xs =>
    rw [List.map_cons, sumText, Wording.writable_append, Wording.writable_append] at h
    refine List.forall_mem_cons.mpr ⟨?_, fun y hy => ?_⟩
    · exact h.1.1 (.number x.natAbs) (by split <;> simp [Summand.ofInt])
    · refine h.1.2 (.number y.natAbs) (List.mem_flatMap.mpr ⟨_, List.mem_map_of_mem hy, ?_⟩)
      simp [Summand.ofInt]

theorem endsIn_sumText (n : Int) {xs : List Int} (hne : xs ≠ []) :
    (sumText [.number n] (xs.map Summand.ofInt)).EndsIn n := by
  have hend : Wording.EndsIn n [.words " = ", .number n] := ⟨" =".toList, by simp⟩
  cases xs with
  | nil => exact absurd rfl hne
  | cons x xs => exact hend.append _

end Dice

-- ---------------------------------------------------------------------------
-- Reports
-- ---------------------------------------------------------------------------

def Report.part (e : Term × BunchRoll) : Wording := e.1.bunch.explainLabelled e.2

/-- How a line about a roll adds up. It is framed by the result. Between them stands an offset by itself, or
what each bunch shows and then a sum where there is more than one summand or the only one is taken away. The sum
comes to the result, as do the totals of each bunch without maps to that of the bunch. -/
structure Report.AddsUp (d : Dice) (r : DiceRoll) (line : String) : Prop where
  first : (words line.toList).head? = some (digits r.result)
  last : (words line.toList).getLast? = some (digits r.result)
  constant : d.terms = [] → line = Decimal.writeInt r.result ++ " <= " ++ Decimal.writeInt r.result
  parts : d.terms ≠ [] → ∃ sum : Option String,
    line = Decimal.writeInt r.result ++ " <= " ++
      ". ".intercalate ((d.terms.zip r.bunches).map (fun e => (part e).text) ++ sum.toList) ∧
    (sum.isSome ↔ 1 < d.terms.length ∨ d.offset ≠ 0 ∨ ∃ t ∈ d.terms.head?, t.multiplier < 0) ∧
    ∀ s ∈ sum, ∃ left, words s.toList = left ++ [['='], digits r.result] ∧ sumValue left = some r.result
  rolled : r.bunches.length = d.terms.length
  totals : ∀ e ∈ d.terms.zip r.bunches, e.1.bunch.hasMaps = false →
    (shownTotals (part e).text).length = e.1.bunch.counted ∧ (shownTotals (part e).text).sum = e.2.result

namespace Report

variable (n : Int) (w : Wording)

theorem text_line : (line .plain [.number n] w).text = Decimal.writeInt n ++ " <= " ++ w.text := by
  simp [line, Style.bold, Style.arrow, Wording.text, Piece.text, String.append_assoc]

theorem words_line : words (line .plain [.number n] w).text.toList =
    [digits n, ['<', '=']] ++ words w.chars := by
  have hsplit : (line .plain [.number n] w).chars = digits n ++ ' ' :: (['<', '='] ++ ' ' :: w.chars) := by
    simp [line, Style.bold, Style.arrow]
  have harrow : words ['<', '='] = [['<', '=']] := by decide
  rw [Wording.toList_text, hsplit, Text.words_append_blank (by decide), Text.words_append_blank (by decide),
    Decimal.words_digits, harrow]
  rfl

end Report

/-- What the roll of a bunch has to be like for what is shown of it to add up. -/
structure Bunch.Shown (b : Bunch) (r : BunchRoll) : Prop where
  keeps : b.Keeps r
  bare : b.hasMaps = false → ∀ h ∈ r.details, h.Bare

theorem Bunch.returns_shown {σ : Type} (draw : Nat → StateM σ Int) (b : Bunch) :
    Returns b.Shown (b.roll draw) := by
  have hbare : Returns (fun r : BunchRoll => b.hasMaps = false → ∀ h ∈ r.details, h.Bare) (b.roll draw) := by
    refine (Returns.mapM (R := fun _ h => b.hasMaps = false → History.Bare h) fun die hdie => ?_).bind
      fun details hall => ?_
    · rw [List.eq_of_mem_replicate hdie]
      exact fun s hmaps => RuledDie.returns_bare draw (by simpa [hasMaps] using hmaps) s
    · refine .pure fun hmaps h hh => ?_
      rw [details_choose] at hh
      exact forall_of_forall₂ hall h hh hmaps
  exact fun s => ⟨b.returns_keeps draw s, hbare s⟩

namespace Dice

variable {d : Dice} {rolls : List BunchRoll}

theorem multiplier_of_create {text : String} (hd : create text = .ok d) :
    ∀ t ∈ d.terms, t.multiplier = 1 ∨ t.multiplier = -1 := by
  obtain ⟨spec, hparse, hspec⟩ := create_ok.mp hd
  have hdescribes := ((RollSpec.builds_ofSpec (readable_of_parse hparse)).ok hspec).2
  have hsign : ∀ b ∈ spec.bunches, b.multiplier = 1 ∨ b.multiplier = -1 := by
    obtain ⟨ts, -, hrun⟩ := Notation.parse_eq_ok.mp hparse
    obtain ⟨s, -, -, rfl⟩ := Notation.run_eq_ok.mp hrun
    intro b hb
    obtain ⟨⟨sign, phrase⟩, -, hb⟩ := List.mem_flatMap.mp hb
    cases phrase with
    | constant n => cases hb
    | dice count sides ms =>
      obtain rfl := List.mem_singleton.mp hb
      cases sign
      · exact .inl rfl
      · exact .inr rfl
  refine forall_of_forall₂ (((List.forall₂_and_left _ _).mpr ⟨hsign, hdescribes.terms⟩).imp fun b t h => ?_)
  rw [h.2.multiplier]
  exact h.1

@[simp] theorem bunches_total (d : Dice) (rolls : List BunchRoll) : (d.total rolls).bunches = rolls := rfl

def summands (d : Dice) (rolls : List BunchRoll) : List Int :=
  d.scaledResults rolls ++ if d.offset = 0 then [] else [d.offset]

theorem sum_summands (d : Dice) (rolls : List BunchRoll) : (d.summands rolls).sum = (d.total rolls).result := by
  rw [summands, total, ← List.sum_eq_foldr]
  split <;> simp_all [add_comm]

theorem explain_of_nil (h : d.terms = []) :
    d.explain (d.total rolls) = [.number (d.total rolls).result] := by
  simp [explain, total, scaledResults, h]

section
variable (hall : List.Forall₂ (fun t r => t.bunch.Shown r) d.terms rolls)
include hall

theorem length_summands : (d.summands rolls).length = d.terms.length + if d.offset = 0 then 0 else 1 := by
  have hlen : (d.scaledResults rolls).length = d.terms.length := by simp [scaledResults, hall.length_eq]
  rw [summands, List.length_append, hlen]
  split <;> rfl

theorem summands_ne_nil (hne : d.terms ≠ []) : d.summands rolls ≠ [] := by
  refine List.ne_nil_of_length_pos ?_
  rw [length_summands hall]
  exact Nat.add_pos_left (List.length_pos_of_ne_nil hne) _

/-- The bunches are shown one after another, then a sum where it says anything new. -/
theorem exists_explain (hne : d.terms ≠ []) : ∃ sum : Option Wording,
    d.explain (d.total rolls) = Wording.join ". " ((d.terms.zip rolls).map Report.part ++ sum.toList) ∧
    (sum.isSome ↔ 1 < d.terms.length ∨ d.offset ≠ 0 ∨ ∃ t ∈ d.terms.head?, t.multiplier < 0) ∧
    ∀ s ∈ sum, s = sumText [.number (d.total rolls).result] ((d.summands rolls).map Summand.ofInt) := by
  obtain ⟨first, more, hterms⟩ := List.exists_cons_of_ne_nil hne
  have hlen := length_summands hall
  refine ⟨if (d.summands rolls).length > 1 || first.multiplier < 0
    then some (sumText [.number (d.total rolls).result] ((d.summands rolls).map Summand.ofInt)) else none,
    ?_, ?_, ?_⟩
  · rw [explain, hterms]
    dsimp only
    change Wording.join ". " (_ ++ if (d.summands rolls).length > 1 || first.multiplier < 0 then _ else _) = _
    split <;> rfl
  · have hisSome : ∀ (c : Bool) (w : Wording), (if c then some w else none).isSome = c := by
      rintro (_ | _) w <;> rfl
    rw [hisSome, hlen, hterms]
    by_cases hoffset : d.offset = 0 <;> simp [hoffset]
  · intro s hs
    exact (Option.some.inj (Option.ite_none_right_eq_some.mp hs).2).symm

theorem endsIn_explain (hsign : ∀ t ∈ d.terms, t.multiplier = 1 ∨ t.multiplier = -1) (hne : d.terms ≠ []) :
    (d.explain (d.total rolls)).EndsIn (d.total rolls).result := by
  obtain ⟨sum, hexplain, hshown, hsum⟩ := exists_explain hall hne
  rw [hexplain]
  cases hs : sum with
  | some s =>
    rw [hsum s hs]
    exact (endsIn_sumText _ (summands_ne_nil hall hne)).join ". " _
  | none =>
    -- Without a sum there is one bunch, which counts once, and no offset.
    rw [hs, Option.isSome_none, Bool.false_eq_true, false_iff, not_or, not_or] at hshown
    obtain ⟨hone, hoffset, hpositive⟩ := hshown
    obtain ⟨t, hterms⟩ := List.length_eq_one_iff.mp
      (Nat.le_antisymm (Nat.le_of_not_lt hone) (List.length_pos_of_ne_nil hne))
    rw [hterms] at hall hsign hpositive
    obtain ⟨r, _, hr, ⟨⟩, rfl⟩ := List.forall₂_cons_left_iff.mp hall
    have hmultiplier : t.multiplier = 1 := by
      refine (hsign t List.mem_cons_self).resolve_right fun hminus => hpositive ⟨t, rfl, ?_⟩
      rw [hminus]
      decide
    have hresult : (d.total [r]).result = r.result := by
      simp [total, scaledResults, hterms, hmultiplier, not_not.mp hoffset]
    rw [hresult, hterms]
    simpa [Wording.join, Report.part] using Bunch.endsIn_explainLabelled hr.keeps hr.bare

/-- Whatever has been rolled like this, the line about it adds up. -/
theorem addsUp (hsign : ∀ t ∈ d.terms, t.multiplier = 1 ∨ t.multiplier = -1)
    (hw : (Report.roll .plain d (some (d.total rolls))).Writable) :
    Report.AddsUp d (d.total rolls) (Report.roll .plain d (some (d.total rolls))).text := by
  rw [Report.roll] at hw ⊢
  have hexplained : (d.explain (d.total rolls)).Writable :=
    (List.forall_mem_cons.mp (Wording.writable_append.mp hw).2).2
  have hpart : ∀ e ∈ d.terms.zip rolls, (Report.part e).Writable := fun e he => by
    obtain ⟨sum, hexplain, -, -⟩ := exists_explain hall (List.ne_nil_of_mem (List.of_mem_zip he).1)
    rw [hexplain] at hexplained
    exact Wording.writable_of_join hexplained _ (List.mem_append_left _ (List.mem_map_of_mem he))
  refine ⟨by rw [Report.words_line]; rfl, ?_, fun hnil => ?_, fun hne => ?_, hall.length_eq.symm,
    fun e he hmaps => ?_⟩
  · have hlast : (words (d.explain (d.total rolls)).chars).getLast? = some (digits (d.total rolls).result) := by
      by_cases hnil : d.terms = []
      · rw [explain_of_nil hnil]
        simp [Decimal.words_digits]
      · exact (endsIn_explain hall hsign hnil).getLast?
    rw [Report.words_line, List.getLast?_append, hlast]
    rfl
  · rw [Report.text_line, explain_of_nil hnil]
    simp [Wording.text, Piece.text]
  · obtain ⟨sum, hexplain, hshown, hsum⟩ := exists_explain hall hne
    refine ⟨sum.map Wording.text, ?_, by simpa using hshown, fun s hs => ?_⟩
    · rw [Report.text_line, hexplain, Wording.text_join]
      cases sum <;> simp [Function.comp_def]
    · obtain ⟨w, hw, rfl⟩ := Option.map_eq_some_iff.mp hs
      have hwritable : w.Writable := by
        rw [hexplain] at hexplained
        exact Wording.writable_of_join hexplained w (List.mem_append_right _ (by simp [hw]))
      obtain rfl := hsum w hw
      refine ⟨Report.sumWords (d.summands rolls), ?_, ?_⟩
      · rw [Wording.toList_text, words_sumText _ (summands_ne_nil hall hne)]
      · rw [Report.sumValue_sumWords (summands_ne_nil hall hne) (writable_of_sumText hwritable), sum_summands]
  · have hshown := List.forall₂_zip hall he
    have hperm := Bunch.shownTotals_perm hmaps hshown.keeps (hshown.bare hmaps)
      (List.forall_mem_cons.mp (hpart e he)).2
    exact ⟨by rw [Report.part, hperm.length_eq, List.length_map, hshown.keeps.kept],
      by rw [Report.part, hperm.sum_eq, hshown.keeps.result]⟩

end

end Dice

namespace Session

variable {σ : Type} (draw : Nat → StateM σ Int) (s : σ) {text : String} {d : Dice}

/-- Dice that a text stands for are rolled with any draws. If no number is too long to be written there is a line
about the roll, and every such line adds up. -/
theorem evaluate_addsUp (hd : Dice.create text = .ok d) :
    ((∃ line, (evaluate draw .plain text s).1 = .ok line) ↔
      (Report.roll .plain d (some (d.roll draw s).1)).Writable) ∧
    ∀ line, (evaluate draw .plain text s).1 = .ok line → Report.AddsUp d (d.roll draw s).1 line := by
  have hrolled := Returns.mapM (fun (t : Term) (_ : t ∈ d.terms) => t.bunch.returns_shown draw) s
  rw [evaluate_eq draw s .plain hd]
  by_cases hw : (Report.roll .plain d (some (d.roll draw s).1)).Writable
  · rw [Wording.write_of_writable hw]
    refine ⟨iff_of_true ⟨_, rfl⟩ hw, fun line hline => ?_⟩
    obtain rfl := Except.ok.inj hline
    exact Dice.addsUp hrolled (Dice.multiplier_of_create hd) hw
  · rw [Wording.write_of_not_writable hw]
    exact ⟨iff_of_false (by simp) hw, fun line hline => by cases hline⟩

def bothOfTwo : Dice where
  terms := Dice.betterOfTwo.terms.map fun t => { t with bunch := { t.bunch with keep := some ⟨.best, 2, Nat.two_pos⟩ } }
  offset := 3

/-- A die that rolls again and one that gives some of its roll back are taken away. -/
theorem evaluate_addsUp_bothOfTwo :
    Dice.create "3-2d6r1r:6,subtract,9.k2" = .ok bothOfTwo ∧
      (evaluate drawNext .plain "3-2d6r1r:6,subtract,9.k2" fun i => [0, 4, 5, 1].getD i 0).1 =
        .ok "-6 <= 2d6: [1|5] 5, [6-2] 4. Keep: 5 + 4 = 9. -9 + 3 = -6" ∧
      Report.AddsUp bothOfTwo (bothOfTwo.roll drawNext fun i => [0, 4, 5, 1].getD i 0).1
        "-6 <= 2d6: [1|5] 5, [6-2] 4. Keep: 5 + 4 = 9. -9 + 3 = -6" := by
  have hcreate : Dice.create "3-2d6r1r:6,subtract,9.k2" = .ok bothOfTwo := ok_of_toOption (by decide +kernel)
  have hline : (evaluate drawNext .plain "3-2d6r1r:6,subtract,9.k2" fun i => [0, 4, 5, 1].getD i 0).1 =
      .ok "-6 <= 2d6: [1|5] 5, [6-2] 4. Keep: 5 + 4 = 9. -9 + 3 = -6" := by
    rw [evaluate_eq _ _ _ hcreate, Wording.write_of_writable (by decide +kernel)]
    rfl
  exact ⟨hcreate, hline, (evaluate_addsUp drawNext _ hcreate).2 _ hline⟩

end Session

end TabletopDice
