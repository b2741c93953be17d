import TabletopDice.CommandLine
import TabletopDice.Proofs.Notation.Case
import TabletopDice.Proofs.Roll.Relabel
import TabletopDice.Proofs.Session

/-!
# One text, two front ends

The command line rolls what a text stands for. A session reads the same text in
lower case. For dice that makes no difference but to their labels, since nothing
else of the notation has a case; a capital I with a dot, though, has no
lower-case form that the notation is written in.
-/

namespace TabletopDice

-- ---------------------------------------------------------------------------
-- The command line
-- ---------------------------------------------------------------------------

section
variable {text : String} {spec : RollSpec} {d : Dice}

theorem CommandLine.request_eq (h : Notation.parse text = .ok spec) :
    request [text] = .evaluate (Notation.trimText text) := by
  have hflag : text ≠ oddsFlag := by
    rintro rfl
    have hnone : (Notation.parse oddsFlag).toOption = none := by decide
    rw [h] at hnone
    cases hnone
  have htext : Notation.trimText text ≠ "" := by
    intro hempty
    rw [← Notation.parse_trimText] at h
    exact Notation.ne_nil_of_parse h (String.toList_eq_nil_iff.mpr hempty)
  have hargs : String.ofList (Text.trim (" ".intercalate ([text].filter (· != oddsFlag))).toList) =
      Notation.trimText text := by
    simp [hflag, Notation.trimText]
  unfold request
  rw [hargs]
  simp [htext, hflag.symm]

/-- The command line rolls the dice that its argument stands for. -/
theorem CommandLine.outcome_eq {σ : Type} (draw : Nat → StateM σ Int) (s : σ) (input : List String)
    (hd : Dice.create text = .ok d) : outcome draw [text] input s =
      (Outcome.of (Report.roll .plain d (some (d.roll draw s).1)).write, (d.roll draw s).2) := by
  obtain ⟨spec, hparse, -⟩ := Dice.create_ok.mp hd
  rw [outcome, request_eq hparse]
  dsimp only
  rw [Session.evaluate, Dice.create_trimText, hd]
  rfl

end

-- ---------------------------------------------------------------------------
-- Dice in lower case
-- ---------------------------------------------------------------------------

section
open Notation (lowerText smallText)

variable {text : String} {d : Dice} (hd : Dice.create text = .ok d) (hi : Text.dottedI ∉ text.toList)
include hd hi

/-- In lower case the text stands for the same dice with labels in lower case. -/
theorem Dice.create_lower : create (lowerText text) = .ok (d.relabel lowerText) := by
  obtain ⟨spec, hparse, hspec⟩ := create_ok.mp hd
  refine create_ok.mpr ⟨_, Notation.parse_lower hparse hi, ?_⟩
  rw [ofSpec_relabel rfl, hspec]
  rfl

theorem Dice.relabel_lower : d.relabel lowerText = d.relabel smallText := by
  obtain ⟨spec, hparse, hspec⟩ := create_ok.mp hd
  have hsmall : Notation.parse (lowerText text) = .ok (spec.relabel smallText) := by
    refine ok_of_toOption ?_
    rw [← Notation.lowerText_eq (Notation.ordinary_of_parse hparse) hi, Notation.parse_small, hparse]
    rfl
  have hcreate := create_lower hd hi
  rw [create_of_parse hsmall, ofSpec_relabel rfl, hspec] at hcreate
  exact (Except.ok.inj hcreate).symm

end

-- ---------------------------------------------------------------------------
-- Sessions
-- ---------------------------------------------------------------------------

namespace Session

open Notation (lowerText smallText trimText)

theorem normalize_eq (text : String) : String.ofList (normalize text) = lowerText (trimText text) := by
  rw [normalize, lowerText, trimText, String.toList_ofList]

section
variable {text : String} {spec : RollSpec} {d : Dice}

/-- No exit stands in the line that a session reads of a text without one. -/
theorem not_exit_normalize (h : ∀ c ∈ text.toList, Text.IsOrdinary c)
    (hexit : isWithin "exit".toList (Text.lower text.toList) = false) :
    isWithin "exit".toList (normalize text) = false := by
  refine Bool.eq_false_iff.mpr fun hwithin => Bool.eq_false_iff.mp hexit ?_
  exact isWithin_iff.mpr ((isWithin_iff.mp hwithin).trans (Text.lower_infix h (Notation.trim_infix _)))

theorem readLine_eq_roll (hexit : isWithin "exit".toList (normalize text) = false)
    (h : Notation.parse (lowerText (trimText text)) = .ok spec) :
    readLine text = .roll (lowerText (trimText text)) := by
  rw [← normalize_eq] at h ⊢
  have hne := Notation.ne_nil_of_parse h
  have hquestion := Notation.ne_question_of_parse h
  rw [String.toList_ofList] at hne hquestion
  rcases readLine_cases hexit hne with ⟨rest, hrest, -⟩ | ⟨-, hread⟩
  · exact absurd hrest (hquestion rest)
  · exact hread

/-- What a session replies to a text that it refuses. -/
theorem reply_refused {σ : Type} (draw : Nat → StateM σ Int) (s : σ)
    (hexit : isWithin "exit".toList (normalize text) = false) (hi : Text.dottedI ∈ text.toList) :
    ∃ m, reply Float draw text s = (.line ("Error: " ++ m), s) := by
  have hdot : Text.combiningDot ∈ normalize text :=
    Text.mem_lower_of_dottedI (Notation.mem_trim (by decide) hi)
  have hfails : ∀ cs, Text.combiningDot ∈ cs → ∃ f, Dice.create (String.ofList cs) = .error f := by
    intro cs hcs
    cases hd : Dice.create (String.ofList cs) with
    | error f => exact ⟨f, rfl⟩
    | ok d =>
      obtain ⟨spec, hparse, -⟩ := Dice.create_ok.mp hd
      have hordinary := Notation.ordinary_of_parse hparse
      rw [String.toList_ofList] at hordinary
      exact absurd (hordinary _ hcs) Text.not_ordinary_combiningDot
  obtain ⟨cs, hcs, hread⟩ : ∃ cs, Text.combiningDot ∈ cs ∧
      (readLine text = .roll (String.ofList cs) ∨ readLine text = .odds (String.ofList cs)) := by
    rcases readLine_cases hexit (List.ne_nil_of_mem hdot) with ⟨rest, hrest, hread⟩ | ⟨-, hread⟩
    · rw [hrest] at hdot
      exact ⟨rest, (List.mem_cons.mp hdot).resolve_left (by decide), .inr hread⟩
    · exact ⟨_, hdot, .inl hread⟩
  obtain ⟨f, hf⟩ := hfails cs hcs
  obtain ⟨hreported, m, hm⟩ := Dice.reported_of_create hf
  exact ⟨m, by rw [reply_wrong hread hf, Reply.of_reported hreported hm]⟩

end

-- ---------------------------------------------------------------------------
-- Labels that a session shows
-- ---------------------------------------------------------------------------

section
variable {σ : Type} (draw : Nat → StateM σ Int) (s : σ) {text : String} {d : Dice}

theorem evaluate_eq (style : Style) (hd : Dice.create text = .ok d) : evaluate draw style text s =
    ((Report.roll style d (some (d.roll draw s).1)).write, (d.roll draw s).2) := by
  rw [evaluate, hd]
  rfl

theorem Reply.of_write_eq_iff {P : Prop} {w w' : Wording} (h : Wording.SameIff P w w') :
    Reply.of w'.write = Reply.of w.write ↔ (w.Writable → P) := by
  by_cases hw : w.Writable
  · rw [Wording.write_of_writable hw, Wording.write_of_writable (h.writable.mpr hw), forall_prop_of_true hw,
      ← h.text]
    exact ⟨Reply.line.inj, congrArg Reply.line⟩
  · rw [Wording.write_of_not_writable hw, Wording.write_of_not_writable (mt h.writable.mp hw)]
    exact iff_of_true rfl fun hw' => absurd hw' hw

/-- A report never looks like the line about a fault. -/
theorem Reply.report_ne_error (r : DiceRoll) (m : String) :
    Reply.line ("Error: " ++ m) ≠ Reply.of (Report.roll .ansi d (some r)).write := by
  intro heq
  by_cases hw : (Report.roll .ansi d (some r)).Writable
  · rw [Wording.write_of_writable hw] at heq
    have hheads := congrArg (fun s : String => s.toList.head?) (Reply.line.inj heq)
    simp [Report.roll, Report.line, Style.bold, Wording.text, Piece.text] at hheads
  · rw [Wording.write_of_not_writable hw] at heq
    cases heq

section
variable (hd : Dice.create text = .ok d) (hexit : isWithin "exit".toList (Text.lower text.toList) = false)
include hd hexit

/-- A session rolls the same dice, and what they show has its labels in lower case. -/
theorem reply_lower (hi : Text.dottedI ∉ text.toList) : reply Float draw text s =
    (Reply.of (Report.roll .ansi (d.relabel lowerText) (some ((d.roll draw s).1.relabel lowerText))).write,
      (d.roll draw s).2) := by
  obtain ⟨spec, hparse, -⟩ := Dice.create_ok.mp hd
  have hcreate : Dice.create (lowerText (trimText text)) = .ok (d.relabel lowerText) := by
    refine Dice.create_lower ((Dice.create_trimText text).trans hd) ?_
    rw [trimText, String.toList_ofList]
    exact fun hmem => hi ((Notation.trim_infix _).subset hmem)
  obtain ⟨spec', hlower, -⟩ := Dice.create_ok.mp hcreate
  have hread := readLine_eq_roll (not_exit_normalize (Notation.ordinary_of_parse hparse) hexit) hlower
  rw [reply_roll hread hcreate, Dice.roll_relabel rfl]
  rfl

/-- So it shows the roll with its own labels if all of them are in lower case, and else only what
cannot be written. -/
theorem reply_lower_iff (hi : Text.dottedI ∉ text.toList) :
    (reply Float draw text s).1 = Reply.of (evaluate draw .ansi text s).1 ↔
      ((Report.roll .ansi d (some (d.roll draw s).1)).Writable →
        ∀ b ∈ (d.roll draw s).1.bunches, ∀ h ∈ b.details, lowerText h.label = h.label) := by
  have hlower := Dice.relabel_lower hd hi
  have hroll : (d.roll draw s).1.relabel lowerText = (d.roll draw s).1.relabel smallText := by
    have hlow := congrFun (d.roll_relabel (f := lowerText) rfl draw) s
    have hsmall := congrFun (d.roll_relabel (f := smallText) rfl draw) s
    rw [hlower] at hlow
    exact congrArg Prod.fst (hlow.symm.trans hsmall)
  have hlabels := DiceRoll.label_eq rfl rfl hroll
  obtain ⟨rolls, htotal, hlen, hkept⟩ := d.exists_total draw s
  have hsame := Report.same_roll Notation.length_smallText .ansi d hlen hkept
  rw [reply_lower draw s hd hexit hi, evaluate_eq draw s .ansi hd, hlower, hroll, htotal]
  rw [htotal] at hlabels
  rw [Reply.of_write_eq_iff hsame]
  refine imp_congr_right fun _ => forall₂_congr fun b hb => forall₂_congr fun h hh => ?_
  rw [hlabels b hb h hh]

/-- The command line rolls the dice that its argument stands for. A session rolls the same dice with the
same draws, but shows every label in lower case, or refuses a text with a dotted I in it, so that it
replies with the report of these dice only where all labels are in lower case already. -/
theorem front_ends_agree_iff (input : List String) :
    CommandLine.outcome draw [text] input s =
        (CommandLine.Outcome.of (Report.roll .plain d (some (d.roll draw s).1)).write, (d.roll draw s).2) ∧
      (Text.dottedI ∉ text.toList → reply Float draw text s =
        (Reply.of (Report.roll .ansi (d.relabel lowerText) (some ((d.roll draw s).1.relabel lowerText))).write,
          (d.roll draw s).2)) ∧
      (Text.dottedI ∈ text.toList → ∃ m, reply Float draw text s = (.line ("Error: " ++ m), s)) ∧
      ((reply Float draw text s).1 = Reply.of (evaluate draw .ansi text s).1 ↔ Text.dottedI ∉ text.toList ∧
        ((Report.roll .ansi d (some (d.roll draw s).1)).Writable →
          ∀ b ∈ (d.roll draw s).1.bunches, ∀ h ∈ b.details, lowerText h.label = h.label)) := by
  obtain ⟨spec, hparse, -⟩ := Dice.create_ok.mp hd
  have hrefused := reply_refused draw s (not_exit_normalize (Notation.ordinary_of_parse hparse) hexit)
  refine ⟨CommandLine.outcome_eq draw s input hd, reply_lower draw s hd hexit, hrefused, ?_⟩
  by_cases hi : Text.dottedI ∈ text.toList
  · obtain ⟨m, hreply⟩ := hrefused hi
    rw [hreply, evaluate_eq draw s .ansi hd]
    dsimp only
    exact iff_of_false (Reply.report_ne_error _ m) fun hall => hall.1 hi
  · rw [reply_lower_iff draw s hd hexit hi]
    exact (and_iff_right hi).symm

end

def oneHit (label : String) : Dice where
  terms := [{
    bunch := {
      count := 1
      count_pos := Nat.one_pos
      die := { sides := 1, sides_pos := Nat.one_pos, maps := [⟨.compares .eq 1, ⟨1, label⟩⟩] } } }]

/-- A label in lower case is shown as it is, one with a capital is not, and one with a dotted I is
refused. -/
theorem front_ends_agree_iff_oneHit :
    (Dice.create "1d1m:1,1,hit." = .ok (oneHit "hit") ∧
      (reply (m := StateM Unit) Float (fun _ => pure 0) "1d1m:1,1,hit." ()).1 =
        Reply.of (evaluate (m := StateM Unit) (fun _ => pure 0) .ansi "1d1m:1,1,hit." ()).1) ∧
    (Dice.create "1d1m:1,1,Hit." = .ok (oneHit "Hit") ∧
      (reply (m := StateM Unit) Float (fun _ => pure 0) "1d1m:1,1,Hit." ()).1 ≠
        Reply.of (evaluate (m := StateM Unit) (fun _ => pure 0) .ansi "1d1m:1,1,Hit." ()).1) ∧
    (Dice.create "1d1m:1,1,hİt." = .ok (oneHit "hİt") ∧
      ∃ m, reply (m := StateM Unit) Float (fun _ => pure 0) "1d1m:1,1,hİt." () =
        (.line ("Error: " ++ m), ())) := by
  have hsmall : Dice.create "1d1m:1,1,hit." = .ok (oneHit "hit") := ok_of_toOption (by decide)
  have hcapital : Dice.create "1d1m:1,1,Hit." = .ok (oneHit "Hit") := ok_of_toOption (by decide)
  have hdotted : Dice.create "1d1m:1,1,hİt." = .ok (oneHit "hİt") := ok_of_toOption (by decide)
  refine ⟨⟨hsmall, ?_⟩, ⟨hcapital, fun heq => ?_⟩, hdotted, ?_⟩
  · refine (front_ends_agree_iff _ () hsmall (by decide) []).2.2.2.mpr ?_
    decide +kernel
  · have hlabels := (front_ends_agree_iff _ () hcapital (by decide) []).2.2.2.mp heq
    revert hlabels
    decide +kernel
  · exact (front_ends_agree_iff _ () hdotted (by decide) []).2.2.1 (by decide)

end

end Session

end TabletopDice
