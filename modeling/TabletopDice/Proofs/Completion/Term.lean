import TabletopDice.Proofs.Notation.Parse
import TabletopDice.Completion

/-!
# Terms that are proposed

At the end of a line that can be read, with or without a sign after it, the
completion is what makes a line of it that is read as well: to the same bunches
and the same offset, and one more die with the sign.
-/

namespace TabletopDice.Completion

open Notation
open Text (isBlank trim)
open Decimal (isDigit)

-- ---------------------------------------------------------------------------
-- Signs
-- ---------------------------------------------------------------------------

def signChar : Sign → Char
  | .plus => '+'
  | .minus => '-'

section
variable (s : Sign)

theorem toList_sign : (Token.sign s).text.toList = [signChar s] := by cases s <;> rfl

theorem signChar_not_blank : isBlank (signChar s) = false := by cases s <;> decide

theorem signChar_not_digit : isDigit (signChar s) = false := by
  cases s <;> exact Text.isDigit_eq_false (by decide)

theorem readToken_sign : readToken [signChar s] = .ok (.sign s) := by cases s <;> rfl

/-- A sign stands by itself, whatever follows. -/
theorem fragments_sign (cs : List Char) : fragments (signChar s :: cs) = [signChar s] :: fragments cs := by
  have hletter : isTerseLetter (signChar s) = false := by cases s <;> decide
  have hlength : fragmentLength ([signChar s] ++ cs) = 1 := fragmentLength_single hletter (signChar_not_digit s)
  exact fragments_append (List.cons_ne_nil _ _) (List.forall_mem_singleton.mpr (signChar_not_blank s)) hlength

theorem breaks_sign {cs : List Char} (hcs : '.' ∉ cs) : Breaks (signChar s :: cs) where
  boundary := by cases s <;> simp [Boundary, signChar]
  stop := by cases s <;> simpa [signChar] using hcs

end

-- ---------------------------------------------------------------------------
-- The last character of a line
-- ---------------------------------------------------------------------------

theorem getLast?_trim {c : Char} (hc : isBlank c = false) {blanks : List Char} (hblanks : ∀ b ∈ blanks, isBlank b)
    (cs : List Char) : (trim (cs ++ c :: blanks)).getLast? = some c := by
  have hfront : ∃ front, (cs ++ c :: blanks).dropWhile isBlank = front ++ c :: blanks := by
    induction cs with
    | nil => exact ⟨[], by simp [hc]⟩
    | cons d cs ih =>
      cases hd : isBlank d with
      | true => simpa [hd] using ih
      | false => exact ⟨d :: cs, by simp [hd]⟩
  obtain ⟨front, hfront⟩ := hfront
  have hback : (blanks.reverse ++ c :: front.reverse).dropWhile isBlank = c :: front.reverse :=
    dropWhile_run (fun b hb => hblanks b (List.mem_reverse.mp hb)) (ends_cons.mpr hc)
  rw [trim, Text.strip, hfront, List.getLast?_reverse, List.reverse_append, List.reverse_cons, List.append_assoc]
  exact congrArg List.head? hback

section
variable {line blanks : String} {spec : RollSpec}

/-- Nothing that is read ends in a sign. -/
theorem ne_sign_of_parse (h : parse line = .ok spec) (s : Sign) (cs : List Char) :
    line.toList ≠ cs ++ [signChar s] := by
  intro hline
  obtain ⟨ts, htokens, hrun⟩ := parse_eq_ok.mp h
  have hfragments : fragments line.toList = fragments cs ++ [[signChar s]] := by
    rw [hline, fragments_append_breaks (breaks_sign s List.not_mem_nil), fragments_sign, fragments_nil]
  rw [tokenize, hfragments, List.mapM_append] at htokens
  obtain ⟨before, -, hlast⟩ := bind_ok.mp htokens
  simp only [List.mapM_cons, List.mapM_nil, readToken_sign] at hlast
  obtain rfl := Except.ok.inj hlast
  exact run_concat_sign s hrun

theorem propose_of_parse (h : parse line = .ok spec) : propose line.toList = "+ 1d6" := by
  have htrim := (parse_trimText line).trans h
  have hne := ne_nil_of_parse htrim
  have hsign := ne_sign_of_parse htrim
  simp only [trimText, String.toList_ofList] at hne hsign
  obtain ⟨before, c, hlast⟩ := (List.eq_nil_or_concat (trim line.toList)).resolve_left hne
  rw [List.concat_eq_append] at hlast
  have hc : (c == '+' || c == '-') = false := by
    rw [Bool.or_eq_false_iff, beq_eq_false_iff_ne, beq_eq_false_iff_ne]
    constructor
    · rintro rfl
      exact hsign .plus before hlast
    · rintro rfl
      exact hsign .minus before hlast
  simp [propose, hlast, hc]

theorem propose_after_sign (line : String) (s : Sign) (hblanks : ∀ b ∈ blanks.toList, isBlank b) :
    propose (line ++ (Token.sign s).text ++ blanks).toList = "1d6" := by
  have hlast := getLast?_trim (signChar_not_blank s) hblanks line.toList
  have hsign : (signChar s == '+' || signChar s == '-') = true := by cases s <;> rfl
  rw [String.toList_append, String.toList_append, toList_sign, List.append_assoc, List.singleton_append, propose, hlast]
  exact if_pos hsign

-- ---------------------------------------------------------------------------
-- One more term
-- ---------------------------------------------------------------------------

def withDie (spec : RollSpec) (s : Sign) : RollSpec :=
  { spec with bunches := spec.bunches ++ [{ ndice := 1, sides := 6, multiplier := s.factor }] }

theorem tokenize_term (s : Sign) (hblanks : ∀ b ∈ blanks.toList, isBlank b) :
    tokenize ((Token.sign s).text ++ (blanks ++ "1d6")) = .ok [.sign s, .dice 1 6] := by
  have hdie : fragments (blanks ++ "1d6").toList = ["1d6".toList] := by
    rw [String.toList_append, fragments_blanks hblanks]
    decide
  have hread : readToken "1d6".toList = .ok (.dice 1 6) := ok_of_toOption (by decide)
  rw [tokenize_eq_ok, String.toList_append, toList_sign, List.singleton_append, fragments_sign, hdie]
  exact .cons (readToken_sign s) (.cons hread .nil)

theorem parse_append_term (h : parse line = .ok spec) (s : Sign) (hblanks : ∀ b ∈ blanks.toList, isBlank b) :
    parse (line ++ ((Token.sign s).text ++ (blanks ++ "1d6"))) = .ok (withDie spec s) := by
  have hstop : '.' ∉ (blanks ++ "1d6").toList := by
    rw [String.toList_append, List.mem_append, not_or]
    exact ⟨fun hmem => absurd (hblanks _ hmem) (by decide), by decide⟩
  have hbreaks : Breaks ((Token.sign s).text ++ (blanks ++ "1d6")).toList := by
    rw [String.toList_append, toList_sign]
    exact breaks_sign s hstop
  rw [parse_append h hbreaks (tokenize_term s hblanks) (by simp [Settled]), run_sign, run_dice (.inl rfl)]
  rfl

/-- The completion of a line that is read adds a die; so does that of the line with a sign after it, and the
die has this sign. -/
theorem parse_append_complete (h : parse line = .ok spec) :
    (∃ term, complete "" line 0 = .ok (some term) ∧ parse (line ++ term) = .ok (withDie spec .plus)) ∧
      ∀ (s : Sign) (blanks : String), (∀ b ∈ blanks.toList, isBlank b) →
        ∃ term, complete "" (line ++ (Token.sign s).text ++ blanks) 0 = .ok (some term) ∧
          parse (line ++ (Token.sign s).text ++ blanks ++ term) = .ok (withDie spec s) := by
  have hcomplete : ∀ line : String, complete "" line 0 = .ok (some (propose line.toList)) := fun _ => rfl
  refine ⟨⟨"+ 1d6", ?_, ?_⟩, fun s blanks hblanks => ⟨"1d6", ?_, ?_⟩⟩
  · rw [hcomplete, propose_of_parse h]
  · have hspace : ∀ b ∈ " ".toList, isBlank b := List.forall_mem_singleton.mpr (by decide)
    have hterm : "+ 1d6" = (Token.sign .plus).text ++ (" " ++ "1d6") := by decide
    rw [hterm]
    exact parse_append_term h .plus hspace
  · rw [hcomplete, propose_after_sign line s hblanks]
  · rw [String.append_assoc, String.append_assoc]
    exact parse_append_term h s hblanks

end

def threeLess (more : List BunchSpec) : RollSpec where
  bunches := { ndice := 2, sides := 6, multiplier := -1, rerolls := some [⟨6, .eq, .add, none⟩] } :: more
  offset := 3

theorem parse_append_complete_threeLess :
    parse "3-2d6x" = .ok (threeLess []) ∧
      (∃ term, complete "" "3-2d6x" 0 = .ok (some term) ∧
        parse ("3-2d6x" ++ term) = .ok (threeLess [{ ndice := 1, sides := 6, multiplier := 1 }])) ∧
      ∃ term, complete "" "3-2d6x-  " 0 = .ok (some term) ∧
        parse ("3-2d6x-  " ++ term) = .ok (threeLess [{ ndice := 1, sides := 6, multiplier := -1 }]) := by
  have hparse : parse "3-2d6x" = .ok (threeLess []) := ok_of_toOption (by decide +kernel)
  obtain ⟨hline, hsigned⟩ := parse_append_complete hparse
  have hblanks : ∀ b ∈ "  ".toList, isBlank b := List.all_iff_forall_prop.mp (by decide)
  exact ⟨hparse, hline, hsigned .minus "  " hblanks⟩

end TabletopDice.Completion
