import TabletopDice.Proofs.Notation.Relabel
import TabletopDice.Proofs.Text.Case

/-!
# Dice notation in either case

A text with small letters for capitals is cut into the same fragments, with small
letters, and every class of tokens reads it to the same tokens. All that is left
of the case of a letter is in the labels.
-/

namespace TabletopDice.Notation

open Text (IsAscii isBlank sameLetter sameWord sameLetter_small isDigit_eq_false caseless_of_not_alpha
  caseless_of_isDigit map_small_eq_cons map_small_eq_append map_small_eq_iff map_small_self)
open Decimal (isDigit)

-- ---------------------------------------------------------------------------
-- Runs
-- ---------------------------------------------------------------------------

section
variable {p : Char → Bool} (hp : ∀ c, p (Text.small c) = p c)
include hp

theorem takeWhile_small (cs : List Char) : (cs.map Text.small).takeWhile p = (cs.takeWhile p).map Text.small := by
  rw [List.takeWhile_map, show p ∘ Text.small = p from funext hp]

theorem dropWhile_small (cs : List Char) : (cs.map Text.small).dropWhile p = (cs.dropWhile p).map Text.small := by
  rw [List.dropWhile_map, show p ∘ Text.small = p from funext hp]

theorem part_small {cs : List Char} : Part p (cs.map Text.small) ↔ Part p cs := by
  constructor
  · rintro ⟨hne, hall⟩
    refine ⟨mt (congrArg (List.map Text.small)) hne, fun c hc => ?_⟩
    rw [← hp]
    exact hall _ (List.mem_map_of_mem hc)
  · rintro ⟨hne, hall⟩
    refine ⟨mt List.map_eq_nil_iff.mp hne, List.forall_mem_map.mpr fun c hc => ?_⟩
    rw [hp]
    exact hall c hc

end

theorem isVerboseLetter_small (c : Char) : isVerboseLetter (Text.small c) = isVerboseLetter c :=
  Text.apply_small (by decide) c

theorem isTerseLetter_small (c : Char) : isTerseLetter (Text.small c) = isTerseLetter c :=
  Text.apply_small (by decide) c

theorem isVerboseBody_small (c : Char) : isVerboseBody (Text.small c) = isVerboseBody c :=
  Text.apply_small (by decide) c

theorem isEffectChar_small (c : Char) : isEffectChar (Text.small c) = isEffectChar c :=
  Text.apply_small (by decide) c

theorem isLabelChar_small (c : Char) : isLabelChar (Text.small c) = isLabelChar c :=
  Text.apply_small (by decide) c

theorem caseless_colon : Text.Caseless ':' := caseless_of_not_alpha (by decide)

theorem caseless_stop : Text.Caseless '.' := caseless_of_not_alpha (by decide)

theorem caseless_comma : Text.Caseless ',' := caseless_of_not_alpha (by decide)

-- ---------------------------------------------------------------------------
-- Fragments
-- ---------------------------------------------------------------------------

theorem digitCount_small (cs : List Char) : digitCount (cs.map Text.small) = digitCount cs := by
  rw [digitCount, takeWhile_small Text.isDigit_small, List.length_map, digitCount]

theorem verboseLength?_small (cs : List Char) : verboseLength? (cs.map Text.small) = verboseLength? cs := by
  match cs with
  | [] | [_] => rfl
  | letter :: c :: rest =>
    by_cases hc : c = ':'
    · subst hc
      have hdrop := dropWhile_small isVerboseBody_small rest
      simp only [List.map_cons, (caseless_colon _).mpr rfl, verboseLength?, isVerboseLetter_small, hdrop,
        takeWhile_small isVerboseBody_small, List.length_map]
      cases rest.dropWhile isVerboseBody with
      | nil => rfl
      | cons c after =>
        by_cases hstop : c = '.'
        · subst hstop
          rfl
        · simp [hstop, mt (caseless_stop c).mp hstop]
    · have hsmall := mt (caseless_colon c).mp hc
      rw [List.map_cons, List.map_cons, verboseLength?_of_not_colon (by simpa using hsmall),
        verboseLength?_of_not_colon (by simpa using hc)]

theorem terseLength?_small (cs : List Char) : terseLength? (cs.map Text.small) = terseLength? cs := by
  cases cs with
  | nil => rfl
  | cons letter rest =>
    simp only [List.map_cons, terseLength?, isTerseLetter_small, dropWhile_small Text.isDigit_small,
      digitCount_small]
    cases rest.dropWhile isDigit with
    | nil => rfl
    | cons c after =>
      by_cases hstop : c = '.'
      · subst hstop
        rfl
      · simp [hstop, mt (caseless_stop c).mp hstop]

theorem diceLength?_small (cs : List Char) : diceLength? (cs.map Text.small) = diceLength? cs := by
  unfold diceLength?
  rw [dropWhile_small Text.isDigit_small]
  cases cs.dropWhile isDigit with
  | nil => rfl
  | cons letter rest =>
    simp only [List.map_cons, digitCount_small, sameLetter_small (show IsAscii 'd' by decide)]

theorem fragmentLength_small (cs : List Char) : fragmentLength (cs.map Text.small) = fragmentLength cs := by
  simp only [fragmentLength, verboseLength?_small, terseLength?_small, diceLength?_small, numberLength?,
    digitCount_small]

theorem fragments_small (cs : List Char) :
    fragments (cs.map Text.small) = (fragments cs).map (List.map Text.small) := by
  suffices hafter : ∀ pending, fragmentsAfter pending (cs.map Text.small) =
      (fragmentsAfter pending cs).map (List.map Text.small) from hafter 0
  induction cs with
  | nil => exact fun _ => rfl
  | cons c cs ih =>
    intro pending
    cases pending with
    | succ pending => exact ih pending
    | zero =>
      rw [List.map_cons, fragmentsAfter, fragmentsAfter, Text.isBlank_small]
      split
      · exact ih 0
      · rw [← List.map_cons (f := Text.small), fragmentLength_small]
        simp only [ih, List.map_cons, List.map_take]

-- ---------------------------------------------------------------------------
-- Parts
-- ---------------------------------------------------------------------------

theorem Digits.caseless {ds : List Char} (h : Digits ds) : ∀ d ∈ ds, Text.Caseless d := fun d hd =>
  caseless_of_isDigit (h.all d hd)

theorem ComparisonMark.not_alpha {mark : List Char} {c : Comparison} (h : ComparisonMark mark c) :
    ∀ d ∈ mark, IsAscii d ∧ d.isAlpha = false :=
  List.all_iff_forall_prop.mp (by cases h <;> decide)

theorem SignMark.not_alpha {mark : List Char} {s : Option Sign} (h : SignMark mark s) :
    ∀ d ∈ mark, IsAscii d ∧ d.isAlpha = false :=
  List.all_iff_forall_prop.mp (by cases h <;> decide)

theorem ComparisonMark.caseless {mark : List Char} {c : Comparison} (h : ComparisonMark mark c) :
    ∀ d ∈ mark, Text.Caseless d := fun d hd => caseless_of_not_alpha (h.not_alpha d hd)

theorem SignMark.caseless {mark : List Char} {s : Option Sign} (h : SignMark mark s) :
    ∀ d ∈ mark, Text.Caseless d := fun d hd => caseless_of_not_alpha (h.not_alpha d hd)

section
variable {tail : List Char}

theorem rerollTail_small {effect limit : Option (List Char)} : RerollTail (tail.map Text.small) effect limit ↔
    ∃ name, RerollTail tail name limit ∧ name.map (List.map Text.small) = effect := by
  constructor
  · intro h
    generalize htail : tail.map Text.small = lowered at h
    cases h with
    | bare =>
      obtain rfl := List.map_eq_nil_iff.mp htail
      exact ⟨none, .bare, rfl⟩
    | effect hname =>
      obtain ⟨name, rfl, rfl⟩ := (map_small_eq_cons caseless_comma).mp htail
      exact ⟨some name, .effect ((part_small isEffectChar_small).mp hname), rfl⟩
    | limit hname hds =>
      obtain ⟨rest, rfl, hrest⟩ := (map_small_eq_cons caseless_comma).mp htail
      obtain ⟨name, rest, rfl, rfl, hlimit⟩ := List.map_eq_append_iff.mp hrest
      obtain ⟨ds, rfl, hds'⟩ := (map_small_eq_cons caseless_comma).mp hlimit
      obtain rfl := (map_small_eq_iff hds.caseless).mp hds'
      exact ⟨some name, .limit ((part_small isEffectChar_small).mp hname) hds, rfl⟩
  · rintro ⟨name, h, rfl⟩
    cases h with
    | bare => exact .bare
    | effect hname => exact .effect ((part_small isEffectChar_small).mpr hname)
    | limit hname hds =>
      rw [List.map_cons, List.map_append, List.map_cons, (caseless_comma _).mpr rfl, map_small_self hds.caseless]
      exact .limit ((part_small isEffectChar_small).mpr hname) hds

theorem mapTail_small {mapped : Option (Option Sign × List Char)} {label : Option (List Char)} :
    MapTail (tail.map Text.small) mapped label ↔
      ∃ name, MapTail tail mapped name ∧ name.map (List.map Text.small) = label := by
  constructor
  · intro h
    generalize htail : tail.map Text.small = lowered at h
    cases h with
    | bare =>
      obtain rfl := List.map_eq_nil_iff.mp htail
      exact ⟨none, .bare, rfl⟩
    | value hmark hds =>
      obtain ⟨signed, rfl, hsigned⟩ := (map_small_eq_cons caseless_comma).mp htail
      obtain ⟨ds, rfl, hds'⟩ := (map_small_eq_append hmark.caseless).mp hsigned
      obtain rfl := (map_small_eq_iff hds.caseless).mp hds'
      exact ⟨none, .value hmark hds, rfl⟩
    | label hmark hds hlabel =>
      obtain ⟨signed, rfl, hsigned⟩ := (map_small_eq_cons caseless_comma).mp htail
      obtain ⟨rest, rfl, hrest⟩ := (map_small_eq_append hmark.caseless).mp hsigned
      obtain ⟨last, rfl, hlast⟩ := (map_small_eq_append hds.caseless).mp hrest
      obtain ⟨name, rfl, rfl⟩ := (map_small_eq_cons caseless_comma).mp hlast
      exact ⟨some name, .label hmark hds ((part_small isLabelChar_small).mp hlabel), rfl⟩
  · rintro ⟨name, h, rfl⟩
    cases h with
    | bare => exact .bare
    | value hmark hds =>
      rw [List.map_cons, List.map_append, (caseless_comma _).mpr rfl, map_small_self hmark.caseless,
        map_small_self hds.caseless]
      exact .value hmark hds
    | label hmark hds hlabel =>
      rw [List.map_cons, List.map_append, List.map_append, List.map_cons, (caseless_comma _).mpr rfl,
        map_small_self hmark.caseless, map_small_self hds.caseless]
      exact .label hmark hds ((part_small isLabelChar_small).mpr hlabel)

theorem sameWord_small {word : List Char} (h : ∀ c ∈ word, IsAscii c) (cs : List Char) :
    sameWord word (cs.map Text.small) = sameWord word cs := by
  induction cs generalizing word with
  | nil => rfl
  | cons c cs ih =>
    cases word with
    | nil => rfl
    | cons letter word =>
      rw [List.forall_mem_cons] at h
      rw [List.map_cons, sameWord, sameWord, sameLetter_small h.1, ih h.2]

theorem keepTail_small {mode : Option (List Char)} : KeepTail (tail.map Text.small) mode ↔
    ∃ name, KeepTail tail name ∧ name.map (List.map Text.small) = mode := by
  have hword : ∀ name, (sameWord "best".toList (name.map Text.small) ∨
      sameWord "worst".toList (name.map Text.small)) ↔
        (sameWord "best".toList name ∨ sameWord "worst".toList name) := by
    intro name
    rw [sameWord_small (List.all_iff_forall_prop.mp (by decide)),
      sameWord_small (List.all_iff_forall_prop.mp (by decide))]
  constructor
  · intro h
    generalize htail : tail.map Text.small = lowered at h
    cases h with
    | bare =>
      obtain rfl := List.map_eq_nil_iff.mp htail
      exact ⟨none, .bare, rfl⟩
    | mode hname hmode =>
      obtain ⟨name, rfl, rfl⟩ := (map_small_eq_cons caseless_comma).mp htail
      exact ⟨some name, .mode ((part_small Text.isLetter_small).mp hname) ((hword name).mp hmode), rfl⟩
  · rintro ⟨name, h, rfl⟩
    cases h with
    | bare => exact .bare
    | mode hname hmode => exact .mode ((part_small Text.isLetter_small).mpr hname) ((hword _).mpr hmode)

end

-- ---------------------------------------------------------------------------
-- Texts with all their parts
-- ---------------------------------------------------------------------------

theorem digits?_small (cs : List Char) :
    digits? (cs.map Text.small) = (digits? cs).map (Prod.map id (List.map Text.small)) := by
  rw [digits?, digitCount_small, takeWhile_small Text.isDigit_small, dropWhile_small Text.isDigit_small,
    map_small_self fun c hc => caseless_of_isDigit (List.mem_takeWhile_imp hc), digits?]
  split <;> rfl

theorem DiceParts.ofText?_small (cs : List Char) : ofText? (cs.map Text.small) = ofText? cs := by
  unfold ofText?
  rw [digits?_small]
  rcases digits? cs with _ | ⟨count, _ | ⟨letter, rest⟩⟩
  · rfl
  · rfl
  · simp only [Option.map_some, Prod.map, id, List.map_cons, digits?_small,
      sameLetter_small (show IsAscii 'd' by decide)]
    rcases digits? rest with _ | ⟨sides, _ | ⟨c, rest⟩⟩ <;> rfl

def TerseParts.small (p : TerseParts) : TerseParts := { p with letter := Text.small p.letter }

theorem TerseParts.ofText?_small (cs : List Char) : ofText? (cs.map Text.small) = (ofText? cs).map small := by
  cases cs with
  | nil => rfl
  | cons letter rest =>
    simp only [List.map_cons, ofText?, isTerseLetter_small, dropWhile_small Text.isDigit_small,
      takeWhile_small Text.isDigit_small,
      map_small_self fun c hc => caseless_of_isDigit (List.mem_takeWhile_imp (l := rest) hc)]
    split
    · rcases rest.dropWhile isDigit with _ | ⟨c, _ | ⟨c', after⟩⟩
      · rfl
      · by_cases hstop : c = '.'
        · subst hstop
          rfl
        · simp [hstop, mt (caseless_stop c).mp hstop]
      · simp
    · rfl

/-- The outer form of a modifier in words. -/
theorem map_small_eq_verbose {cs mark value tail : List Char} {c : Char} (hmark : ∀ d ∈ mark, Text.Caseless d)
    (hvalue : Digits value) : cs.map Text.small = c :: ':' :: (mark ++ (value ++ (tail ++ ['.']))) ↔
      ∃ letter rest, Text.small letter = c ∧ rest.map Text.small = tail ∧
        cs = letter :: ':' :: (mark ++ (value ++ (rest ++ ['.']))) := by
  have hstop : ∀ d ∈ ['.'], Text.Caseless d := List.forall_mem_singleton.mpr caseless_stop
  constructor
  · intro h
    obtain ⟨letter, body, rfl, rfl, hbody⟩ := List.map_eq_cons_iff.mp h
    obtain ⟨marked, rfl, hmarked⟩ := (map_small_eq_cons caseless_colon).mp hbody
    obtain ⟨number, rfl, hnumber⟩ := (map_small_eq_append hmark).mp hmarked
    obtain ⟨stopped, rfl, hstopped⟩ := (map_small_eq_append hvalue.caseless).mp hnumber
    obtain ⟨rest, stop, rfl, hrest, hlast⟩ := List.map_eq_append_iff.mp hstopped
    obtain rfl := (map_small_eq_iff hstop).mp hlast
    exact ⟨letter, rest, rfl, hrest, rfl⟩
  · rintro ⟨letter, rest, rfl, rfl, rfl⟩
    rw [List.map_cons, List.map_cons, List.map_append, List.map_append, List.map_append,
      (caseless_colon _).mpr rfl, map_small_self hmark, map_small_self hvalue.caseless, map_small_self hstop]

def RerollParts.small (p : RerollParts) : RerollParts := { p with effect := p.effect.map (List.map Text.small) }

theorem RerollParts.ofText?_small (cs : List Char) : ofText? (cs.map Text.small) = (ofText? cs).map small := by
  ext q
  simp only [Option.map_eq_some_iff, ofText?_eq_some]
  constructor
  · rintro ⟨c, mark, tail, hc, hmark, hvalue, htail, hcs⟩
    obtain ⟨letter, rest, rfl, rfl, rfl⟩ := (map_small_eq_verbose hmark.caseless hvalue).mp hcs
    obtain ⟨effect, htail, heffect⟩ := rerollTail_small.mp htail
    rw [sameLetter_small (by decide)] at hc
    exact ⟨{ q with effect }, ⟨letter, mark, rest, hc, hmark, hvalue, htail, rfl⟩, by rw [small, heffect]⟩
  · rintro ⟨p, ⟨c, mark, tail, hc, hmark, hvalue, htail, rfl⟩, rfl⟩
    rw [← sameLetter_small (by decide)] at hc
    exact ⟨_, mark, tail.map Text.small, hc, hmark, hvalue, rerollTail_small.mpr ⟨_, htail, rfl⟩,
      (map_small_eq_verbose hmark.caseless hvalue).mpr ⟨c, tail, rfl, rfl, rfl⟩⟩

def MapParts.small (p : MapParts) : MapParts := { p with label := p.label.map (List.map Text.small) }

theorem MapParts.ofText?_small (cs : List Char) : ofText? (cs.map Text.small) = (ofText? cs).map small := by
  ext q
  simp only [Option.map_eq_some_iff, ofText?_eq_some]
  constructor
  · rintro ⟨c, mark, tail, hc, hmark, hvalue, htail, hcs⟩
    obtain ⟨letter, rest, rfl, rfl, rfl⟩ := (map_small_eq_verbose hmark.caseless hvalue).mp hcs
    obtain ⟨label, htail, hlabel⟩ := mapTail_small.mp htail
    rw [sameLetter_small (by decide)] at hc
    exact ⟨{ q with label }, ⟨letter, mark, rest, hc, hmark, hvalue, htail, rfl⟩, by rw [small, hlabel]⟩
  · rintro ⟨p, ⟨c, mark, tail, hc, hmark, hvalue, htail, rfl⟩, rfl⟩
    rw [← sameLetter_small (by decide)] at hc
    exact ⟨_, mark, tail.map Text.small, hc, hmark, hvalue, mapTail_small.mpr ⟨_, htail, rfl⟩,
      (map_small_eq_verbose hmark.caseless hvalue).mpr ⟨c, tail, rfl, rfl, rfl⟩⟩

def KeepParts.small (p : KeepParts) : KeepParts := { p with mode := p.mode.map (List.map Text.small) }

theorem KeepParts.ofText?_small (cs : List Char) : ofText? (cs.map Text.small) = (ofText? cs).map small := by
  have hnone : ∀ d ∈ ([] : List Char), Text.Caseless d := nofun
  ext q
  simp only [Option.map_eq_some_iff, ofText?_eq_some]
  constructor
  · rintro ⟨c, tail, hc, hcount, htail, hcs⟩
    obtain ⟨letter, rest, rfl, rfl, rfl⟩ := (map_small_eq_verbose hnone hcount).mp hcs
    obtain ⟨mode, htail, hmode⟩ := keepTail_small.mp htail
    rw [sameLetter_small (by decide)] at hc
    exact ⟨{ q with mode }, ⟨letter, rest, hc, hcount, htail, rfl⟩, by rw [small, hmode]⟩
  · rintro ⟨p, ⟨c, tail, hc, hcount, htail, rfl⟩, rfl⟩
    rw [← sameLetter_small (by decide)] at hc
    exact ⟨_, tail.map Text.small, hc, hcount, keepTail_small.mpr ⟨_, htail, rfl⟩,
      (map_small_eq_verbose hnone hcount).mpr ⟨c, tail, rfl, rfl, rfl⟩⟩

-- ---------------------------------------------------------------------------
-- Tokens
-- ---------------------------------------------------------------------------

def smallText (s : String) : String := String.ofList (s.toList.map Text.small)

theorem withoutLineEnd_small (cs : List Char) :
    withoutLineEnd (cs.map Text.small) = (withoutLineEnd cs).map Text.small := by
  have hlast : (cs.map Text.small).getLast? = some '\n' ↔ cs.getLast? = some '\n' := by
    have hend : Text.Caseless '\n' := caseless_of_not_alpha (by decide)
    rw [List.getLast?_map, Option.map_eq_some_iff]
    simp [hend _]
  simp only [withoutLineEnd, hlast]
  split
  · exact List.map_dropLast.symm
  · rfl

theorem effectNamed_small (name : List Char) :
    (effectNamed (name.map Text.small)).toOption = (effectNamed name).toOption := by
  simp only [effectNamed, Effect.ofValue, Effect.ofValue?, String.toList_ofList, Effect.ofText?, Text.lower_small]
  split <;> rfl

theorem keepModeNamed_small (name : List Char) :
    (keepModeNamed (name.map Text.small)).toOption = (keepModeNamed name).toOption := by
  simp only [keepModeNamed, KeepMode.ofText?, Text.lower_small]
  split <;> rfl

section
variable (cs : List Char)

theorem readConstant_small :
    (readConstant (cs.map Text.small)).toOption = (readConstant cs).toOption.map (Token.relabel smallText) := by
  rw [readConstant, readConstant, withoutLineEnd_small, digits?_small]
  rcases digits? (withoutLineEnd cs) with _ | ⟨ds, _ | ⟨c, rest⟩⟩
  · rfl
  · exact toOption_bind_last (x := number ds) rfl fun _ => rfl
  · rfl

theorem readDice_small :
    (readDice (cs.map Text.small)).toOption = (readDice cs).toOption.map (Token.relabel smallText) := by
  rw [readDice, readDice, withoutLineEnd_small, DiceParts.ofText?_small]
  cases DiceParts.ofText? (withoutLineEnd cs) with
  | none => rfl
  | some parts => exact toOption_bind_last rfl fun _ => toOption_bind_last rfl fun _ => rfl

theorem readTerse_small :
    (readTerse (cs.map Text.small)).toOption = (readTerse cs).toOption.map (Modifier.relabel smallText) := by
  rw [readTerse, readTerse, withoutLineEnd_small, TerseParts.ofText?_small]
  cases TerseParts.ofText? (withoutLineEnd cs) with
  | none => rfl
  | some parts =>
    simp only [Option.map_some, TerseParts.small, sameLetter_small (show IsAscii 'x' by decide),
      sameLetter_small (show IsAscii 'r' by decide), sameLetter_small (show IsAscii 'k' by decide)]
    cases number parts.digits
    all_goals
      split
      · split <;> rfl
      · split
        · rfl
        · split
          · rfl
          · split <;> rfl

theorem readReroll_small :
    (readReroll (cs.map Text.small)).toOption = (readReroll cs).toOption.map (Modifier.relabel smallText) := by
  rw [readReroll, readReroll, withoutLineEnd_small, RerollParts.ofText?_small]
  cases RerollParts.ofText? (withoutLineEnd cs) with
  | none => rfl
  | some parts =>
    obtain ⟨c, value, effect, limit⟩ := parts
    refine toOption_bind_last rfl fun value => ?_
    cases effect with
    | none =>
      refine toOption_bind_last rfl fun effect => ?_
      cases limit <;> exact toOption_bind_last rfl fun _ => rfl
    | some name =>
      refine toOption_bind_last (effectNamed_small name) fun effect => ?_
      cases limit <;> exact toOption_bind_last rfl fun _ => rfl

theorem readMap_small :
    (readMap (cs.map Text.small)).toOption = (readMap cs).toOption.map (Modifier.relabel smallText) := by
  rw [readMap, readMap, withoutLineEnd_small, MapParts.ofText?_small]
  cases MapParts.ofText? (withoutLineEnd cs) with
  | none => rfl
  | some parts =>
    obtain ⟨c, value, mapped, label⟩ := parts
    have hlabel : (label.map (List.map Text.small)).map String.ofList =
        (label.map String.ofList).map smallText := by
      cases label <;> simp [smallText]
    refine toOption_bind_last rfl fun value => ?_
    simp only [MapParts.small, hlabel]
    cases mapped <;> exact toOption_bind_last rfl fun _ => rfl

theorem readKeep_small :
    (readKeep (cs.map Text.small)).toOption = (readKeep cs).toOption.map (Modifier.relabel smallText) := by
  rw [readKeep, readKeep, withoutLineEnd_small, KeepParts.ofText?_small]
  cases KeepParts.ofText? (withoutLineEnd cs) with
  | none => rfl
  | some parts =>
    obtain ⟨count, mode⟩ := parts
    refine toOption_bind_last rfl fun count => ?_
    cases mode with
    | none => exact toOption_bind_last rfl fun _ => rfl
    | some name => exact toOption_bind_last (keepModeNamed_small name) fun _ => rfl

theorem readVerbose_small :
    (readVerbose (cs.map Text.small)).toOption = (readVerbose cs).toOption.map (Modifier.relabel smallText) := by
  cases cs with
  | nil => rfl
  | cons letter rest =>
    have hlength := withoutLineEnd_small (letter :: rest)
    rw [List.map_cons] at hlength
    simp only [List.map_cons, readVerbose, hlength, verboseLength?_small, List.length_map,
      sameLetter_small (show IsAscii 'r' by decide), sameLetter_small (show IsAscii 'm' by decide)]
    simp only [← List.map_cons]
    split
    · split
      · exact readReroll_small _
      · split
        · exact readMap_small _
        · exact readKeep_small _
    · rfl

/-- Every class reads small letters as it reads capitals, but for its labels. -/
theorem read_small : ∀ read ∈ classReaders,
    (read (cs.map Text.small)).toOption = (read cs).toOption.map (Token.relabel smallText) := by
  have hmodifier : ∀ {x x' : Except Fault Modifier}, x'.toOption = x.toOption.map (Modifier.relabel smallText) →
      (x'.map Token.modifier).toOption = (x.map Token.modifier).toOption.map (Token.relabel smallText) := by
    intro x x' h
    rw [toOption_map, toOption_map, h, Option.map_map, Option.map_map]
    rfl
  simp only [classReaders, List.forall_mem_cons]
  exact ⟨readConstant_small cs, readDice_small cs, hmodifier (readTerse_small cs),
    hmodifier (readVerbose_small cs), List.forall_mem_nil _⟩

theorem readToken_small :
    (readToken (cs.map Text.small)).toOption = (readToken cs).toOption.map (Token.relabel smallText) := by
  have hsign : ∀ sign, IsAscii sign ∧ sign.isAlpha = false → (cs.map Text.small = [sign] ↔ cs = [sign]) :=
    fun sign hsign => map_small_eq_iff (List.forall_mem_singleton.mpr (caseless_of_not_alpha hsign))
  have hclasses : classReaders.findSome? (fun read => (read (cs.map Text.small)).toOption) =
      (classReaders.findSome? fun read => (read cs).toOption).map (Token.relabel smallText) := by
    rw [List.map_findSome?, ← List.head?_filterMap, ← List.head?_filterMap]
    exact congrArg List.head? (List.filterMap_congr (read_small cs))
  unfold readToken
  simp only [hsign '+' (by decide), hsign '-' (by decide), hclasses]
  split
  · rfl
  · split
    · rfl
    · cases classReaders.findSome? fun read => (read cs).toOption <;> rfl

end

section
variable {text : String} {ts : List Token} {spec : RollSpec}

theorem toList_smallText (text : String) : (smallText text).toList = text.toList.map Text.small :=
  String.toList_ofList

theorem length_smallText (text : String) : (smallText text).length = text.length := by
  simp [smallText, String.length_toList]

theorem tokenize_small : (tokenize (smallText text)).toOption =
    (tokenize text).toOption.map (List.map (Token.relabel smallText)) := by
  rw [tokenize, tokenize, toList_smallText, fragments_small]
  refine toOption_mapM (fun cs => ?_) _
  have hread := readToken_small cs
  cases h : readToken cs <;> cases h' : readToken (cs.map Text.small) <;> rw [h, h'] at hread <;> exact hread

/-- A text and the same with small letters describe the same dice, but for the case of the labels. -/
theorem parse_small :
    (parse (smallText text)).toOption = (parse text).toOption.map (RollSpec.relabel smallText) :=
  toOption_bind tokenize_small (run_relabel smallText {})

end

-- ---------------------------------------------------------------------------
-- The characters of what is read
-- ---------------------------------------------------------------------------

section
variable {cs mark value tail : List Char}

theorem ordinary_of_isTerseLetter {c : Char} (h : isTerseLetter c) : Text.IsOrdinary c := by
  simp only [isTerseLetter, isVerboseLetter, Bool.or_eq_true] at h
  rcases h with h | (h | h) | h
  all_goals exact Text.ordinary_of_sameLetter (by decide) h

theorem Digits.ordinary (h : Digits cs) : ∀ d ∈ cs, Text.IsOrdinary d := fun d hd =>
  Text.ordinary_of_isDigit (h.all d hd)

theorem ComparisonMark.ordinary {c : Comparison} (h : ComparisonMark mark c) :
    ∀ d ∈ mark, Text.IsOrdinary d := fun d hd => .inl (h.not_alpha d hd).1

theorem SignMark.ordinary {s : Option Sign} (h : SignMark mark s) : ∀ d ∈ mark, Text.IsOrdinary d :=
  fun d hd => .inl (h.not_alpha d hd).1

theorem ordinary_of_isEffectChar {c : Char} (h : isEffectChar c) : Text.IsOrdinary c := by
  rcases Bool.or_eq_true_iff.mp h with h | h
  · exact Text.ordinary_of_isLetter h
  · exact .inl (beq_iff_eq.mp h ▸ by decide)

theorem ordinary_of_isLabelChar {c : Char} (h : isLabelChar c) : Text.IsOrdinary c := by
  simp only [isLabelChar, Bool.or_eq_true, Bool.and_eq_true, decide_eq_true_eq, beq_iff_eq] at h
  rcases h with (h | ⟨-, h⟩) | rfl
  · exact Text.ordinary_of_isLetter h
  · exact .inl (lt_of_le_of_lt (Char.le_def.mp h) (by decide))
  · exact .inl (by decide)

theorem RerollTail.ordinary {effect limit : Option (List Char)} (h : RerollTail tail effect limit) :
    ∀ d ∈ tail, Text.IsOrdinary d := by
  have hcomma : Text.IsOrdinary ',' := by decide
  cases h with
  | bare => nofun
  | effect hname => exact List.forall_mem_cons.mpr ⟨hcomma, fun d hd => ordinary_of_isEffectChar (hname.all d hd)⟩
  | limit hname hds =>
    simp only [List.forall_mem_cons, List.forall_mem_append]
    exact ⟨hcomma, fun d hd => ordinary_of_isEffectChar (hname.all d hd), hcomma, hds.ordinary⟩

theorem MapTail.ordinary {mapped : Option (Option Sign × List Char)} {label : Option (List Char)}
    (h : MapTail tail mapped label) : ∀ d ∈ tail, Text.IsOrdinary d := by
  have hcomma : Text.IsOrdinary ',' := by decide
  cases h with
  | bare => nofun
  | value hmark hds =>
    simp only [List.forall_mem_cons, List.forall_mem_append]
    exact ⟨hcomma, hmark.ordinary, hds.ordinary⟩
  | label hmark hds hlabel =>
    simp only [List.forall_mem_cons, List.forall_mem_append]
    exact ⟨hcomma, hmark.ordinary, hds.ordinary, hcomma, fun d hd => ordinary_of_isLabelChar (hlabel.all d hd)⟩

theorem MapTail.mem_of_label {mapped : Option (Option Sign × List Char)} {label : List Char}
    (h : MapTail tail mapped (some label)) : ∀ d ∈ label, d ∈ tail := by
  cases h with
  | label hmark hds hlabel =>
    intro d hd
    simp [hd]

theorem KeepTail.ordinary {mode : Option (List Char)} (h : KeepTail tail mode) :
    ∀ d ∈ tail, Text.IsOrdinary d := by
  cases h with
  | bare => nofun
  | mode hname =>
    exact List.forall_mem_cons.mpr ⟨.inl (by decide), fun d hd => Text.ordinary_of_isLetter (hname.all d hd)⟩

theorem ordinary_of_verbose {c : Char} (hc : Text.IsOrdinary c) (hmark : ∀ d ∈ mark, Text.IsOrdinary d)
    (hvalue : Digits value) (htail : ∀ d ∈ tail, Text.IsOrdinary d) :
    ∀ d ∈ c :: ':' :: (mark ++ (value ++ (tail ++ ['.']))), Text.IsOrdinary d := by
  simp only [List.forall_mem_cons, List.forall_mem_append]
  exact ⟨hc, .inl (by decide), hmark, hvalue.ordinary, htail, .inl (by decide), nofun⟩

end

/-- A fragment of ordinary characters, which has the label of its token in it. -/
structure Spells (cs : List Char) (label : Option String) : Prop where
  ordinary : ∀ c ∈ cs, Text.IsOrdinary c
  label : ∀ s ∈ label, ∀ d ∈ s.toList, d ∈ cs

section
variable {cs : List Char} {m : Modifier} {t : Token} (hblank : ∀ c ∈ cs, isBlank c = false)
include hblank

theorem spells_of_readConstant (h : readConstant cs = .ok t) : Spells cs t.label? := by
  rw [readConstant, withoutLineEnd_eq hblank] at h
  split at h
  · rename_i ds hsplit
    obtain ⟨hds, -, rfl⟩ := digits?_eq_some.mp hsplit
    obtain ⟨n, -, rfl⟩ := map_ok.mp h
    rw [List.append_nil]
    exact ⟨hds.ordinary, by simp [Token.label?]⟩
  · cases h

theorem spells_of_readDice (h : readDice cs = .ok t) : Spells cs t.label? := by
  rw [readDice, withoutLineEnd_eq hblank] at h
  split at h
  · rename_i parts hparts
    obtain ⟨c, hc, hcount, hsides, rfl⟩ := DiceParts.ofText?_eq_some.mp hparts
    simp only [bind_ok, pure_ok] at h
    obtain ⟨count, -, sides, -, rfl⟩ := h
    refine ⟨?_, by simp [Token.label?]⟩
    simp only [List.forall_mem_append, List.forall_mem_cons]
    exact ⟨hcount.ordinary, Text.ordinary_of_sameLetter (by decide) hc, hsides.ordinary⟩
  · cases h

theorem spells_of_readTerse (h : readTerse cs = .ok m) : Spells cs m.label? := by
  rw [readTerse, withoutLineEnd_eq hblank] at h
  split at h
  · rename_i parts hparts
    obtain ⟨hletter, hds, stop, hstop, rfl⟩ := TerseParts.ofText?_eq_some.mp hparts
    have hstop : ∀ d ∈ stop, Text.IsOrdinary d := by
      rcases hstop with rfl | rfl
      · exact List.forall_mem_nil _
      · exact List.forall_mem_singleton.mpr (.inl (by decide))
    have hlabel : m.label? = none := by
      have hnumber : ∀ {make : Nat → Modifier}, (∀ n, (make n).label? = none) →
          (number parts.digits).map make = .ok m → m.label? = none := by
        intro make hmake h
        obtain ⟨n, -, rfl⟩ := map_ok.mp h
        exact hmake n
      split at h
      · split at h <;> cases h
        rfl
      · split at h
        · cases h
        · split at h
          · exact hnumber (fun _ => rfl) h
          · split at h <;> exact hnumber (fun _ => rfl) h
    refine ⟨?_, by simp [hlabel]⟩
    simp only [List.forall_mem_append, List.forall_mem_cons]
    exact ⟨ordinary_of_isTerseLetter hletter, fun d hd => Text.ordinary_of_isDigit (hds d hd), hstop⟩
  · cases h

theorem spells_of_readReroll (h : readReroll cs = .ok m) : Spells cs m.label? := by
  rw [readReroll, withoutLineEnd_eq hblank] at h
  split at h
  · rename_i parts hparts
    obtain ⟨c, mark, tail, hc, hmark, hvalue, htail, rfl⟩ := RerollParts.ofText?_eq_some.mp hparts
    have hlabel : m.label? = none := by
      obtain ⟨o, value, effect, limit⟩ := parts
      obtain ⟨n, -, h⟩ := bind_ok.mp h
      cases effect
      all_goals
        obtain ⟨e, -, h⟩ := bind_ok.mp h
        cases limit
        all_goals
          obtain ⟨l, -, h⟩ := bind_ok.mp h
          cases h
          rfl
    exact ⟨ordinary_of_verbose (Text.ordinary_of_sameLetter (by decide) hc) hmark.ordinary hvalue htail.ordinary,
      by simp [hlabel]⟩
  · cases h

theorem spells_of_readMap (h : readMap cs = .ok m) : Spells cs m.label? := by
  rw [readMap, withoutLineEnd_eq hblank] at h
  split at h
  · rename_i parts hparts
    obtain ⟨c, mark, tail, hc, hmark, hvalue, htail, rfl⟩ := MapParts.ofText?_eq_some.mp hparts
    have hlabel : m.label? = parts.label.map String.ofList := by
      obtain ⟨o, value, mapped, label⟩ := parts
      obtain ⟨n, -, h⟩ := bind_ok.mp h
      cases mapped
      all_goals
        obtain ⟨v, -, h⟩ := bind_ok.mp h
        cases h
        rfl
    refine ⟨ordinary_of_verbose (Text.ordinary_of_sameLetter (by decide) hc) hmark.ordinary hvalue htail.ordinary,
      ?_⟩
    intro s hs d hd
    rw [hlabel] at hs
    obtain ⟨label, hparts, rfl⟩ := Option.map_eq_some_iff.mp hs
    rw [String.toList_ofList] at hd
    rw [hparts] at htail
    simp [htail.mem_of_label d hd]
  · cases h

theorem spells_of_readKeep (h : readKeep cs = .ok m) : Spells cs m.label? := by
  rw [readKeep, withoutLineEnd_eq hblank] at h
  split at h
  · rename_i parts hparts
    obtain ⟨c, tail, hc, hcount, htail, rfl⟩ := KeepParts.ofText?_eq_some.mp hparts
    have hlabel : m.label? = none := by
      obtain ⟨count, mode⟩ := parts
      obtain ⟨n, -, h⟩ := bind_ok.mp h
      cases mode
      all_goals
        obtain ⟨k, -, h⟩ := bind_ok.mp h
        cases h
        rfl
    have hmark : ∀ d ∈ ([] : List Char), Text.IsOrdinary d := List.forall_mem_nil _
    exact ⟨ordinary_of_verbose (Text.ordinary_of_sameLetter (by decide) hc) hmark hcount htail.ordinary,
      by simp [hlabel]⟩
  · cases h

theorem spells_of_readVerbose (h : readVerbose cs = .ok m) : Spells cs m.label? := by
  unfold readVerbose at h
  split at h
  · cases h
  · split at h
    · split at h
      · exact spells_of_readReroll hblank h
      · split at h
        · exact spells_of_readMap hblank h
        · exact spells_of_readKeep hblank h
    · cases h

theorem spells_of_readToken (h : readToken cs = .ok t) : Spells cs t.label? := by
  have hsign : ∀ {s : Sign} {c : Char}, IsAscii c → Spells [c] (Token.sign s).label? := fun hc =>
    ⟨List.forall_mem_singleton.mpr (.inl hc), by simp [Token.label?]⟩
  cases readBy_of_readToken h with
  | plus => exact hsign (by decide)
  | minus => exact hsign (by decide)
  | constant hread => exact spells_of_readConstant hblank hread
  | dice hread => exact spells_of_readDice hblank hread
  | terse hread => exact spells_of_readTerse hblank hread
  | verbose hread => exact spells_of_readVerbose hblank hread

end

theorem Spaced.ordinary {pieces : List (List Char)} {cs : List Char} (h : Spaced pieces cs)
    (hpieces : ∀ piece ∈ pieces, ∀ c ∈ piece, Text.IsOrdinary c) : ∀ c ∈ cs, Text.IsOrdinary c := by
  induction h with
  | nil hblanks => exact fun c hc => .inr (.inl (hblanks c hc))
  | cons hblanks _ ih =>
    rw [List.forall_mem_cons] at hpieces
    simp only [List.forall_mem_append]
    exact ⟨⟨fun c hc => .inr (.inl (hblanks c hc)), hpieces.1⟩, ih hpieces.2⟩

section
variable {text : String} {ts : List Token} {spec : RollSpec}

theorem spells_of_tokenize (h : tokenize text = .ok ts) :
    List.Forall₂ (fun piece t => Spells piece t.label? ∧ piece <:+: text.toList) (fragments text.toList) ts := by
  have hpieces : ∀ piece ∈ fragments text.toList, (∀ c ∈ piece, isBlank c = false) ∧ piece <:+: text.toList :=
    fun piece hpiece => ⟨(shape_of_mem_fragments hpiece).not_blank, (spaced_fragments _).isInfix piece hpiece⟩
  refine (List.forall₂_and_left _ _ |>.mpr ⟨hpieces, tokenize_eq_ok.mp h⟩).imp fun piece t hread => ?_
  exact ⟨spells_of_readToken hread.1.1 hread.2, hread.1.2⟩

/-- No text is read that holds another character. -/
theorem ordinary_of_parse (h : parse text = .ok spec) : ∀ c ∈ text.toList, Text.IsOrdinary c := by
  obtain ⟨ts, htokens, -⟩ := parse_eq_ok.mp h
  have hspells := (spells_of_tokenize htokens).imp fun _ _ hpiece => And.intro hpiece.1.ordinary hpiece
  exact (spaced_fragments _).ordinary (List.forall₂_and_left _ _ |>.mp hspells).1

def lowerText (s : String) : String := String.ofList (Text.lower s.toList)

theorem lowerText_eq (h : ∀ c ∈ text.toList, Text.IsOrdinary c) (hi : Text.dottedI ∉ text.toList) :
    smallText text = lowerText text := by
  rw [smallText, lowerText, Text.lower_of_ordinary h hi]

theorem parse_lower (h : parse text = .ok spec) (hi : Text.dottedI ∉ text.toList) :
    parse (lowerText text) = .ok (spec.relabel lowerText) := by
  obtain ⟨ts, htokens, hrun⟩ := parse_eq_ok.mp h
  have hordinary := ordinary_of_parse h
  have hlabels : ts.map (Token.relabel smallText) = ts.map (Token.relabel lowerText) := by
    refine List.map_congr_left (forall_of_forall₂ ((spells_of_tokenize htokens).imp fun piece t hpiece => ?_))
    refine Token.relabel_congr fun label hlabel => ?_
    have hsub : ∀ d ∈ label.toList, d ∈ text.toList := fun d hd =>
      hpiece.2.subset (hpiece.1.label label hlabel d hd)
    exact lowerText_eq (fun d hd => hordinary d (hsub d hd)) fun hd => hi (hsub _ hd)
  have hlower : tokenize (lowerText text) = .ok (ts.map (Token.relabel lowerText)) := by
    refine ok_of_toOption ?_
    rw [← lowerText_eq hordinary hi, tokenize_small, htokens, ← hlabels]
    rfl
  refine parse_eq_ok.mpr ⟨_, hlower, ok_of_toOption ?_⟩
  have hrelabel := run_relabel lowerText {} ts
  rw [hrun] at hrelabel
  exact hrelabel

/-- An ASCII text in lower case is read if the text itself is, and then to the same but for the case of the
labels. -/
theorem parse_lower_iff (h : ∀ c ∈ text.toList, Text.IsAscii c) {lowered : RollSpec} :
    parse (lowerText text) = .ok lowered ↔ ∃ spec, parse text = .ok spec ∧ lowered = spec.relabel lowerText := by
  have hi : Text.dottedI ∉ text.toList := fun hmem => absurd (h _ hmem) (by decide)
  constructor
  · intro hlowered
    have hsmall : (parse (smallText text)).toOption = _ := parse_small
    rw [lowerText_eq (fun c hc => .inl (h c hc)) hi, hlowered] at hsmall
    obtain ⟨spec, hspec, -⟩ := Option.map_eq_some_iff.mp hsmall.symm
    have hparse := ok_of_toOption hspec
    exact ⟨spec, hparse, Except.ok.inj (hlowered.symm.trans (parse_lower hparse hi))⟩
  · rintro ⟨spec, hparse, rfl⟩
    exact parse_lower hparse hi

end

def labelledHits (label : String) : RollSpec where
  bunches := [{
    ndice := 2
    sides := 6
    rerolls := some [⟨1, .eq, .replace, none⟩]
    maps := some [⟨5, .le, 1, some label⟩]
    keepMode := some .best
    keepNumber := some 1 }]
  offset := 0

theorem parse_lower_iff_labelledHits :
    (∀ c ∈ "2D6R:1,Replace.M:>=5,1,Hit.K:1,Best.".toList, Text.IsAscii c) ∧
      parse "2D6R:1,Replace.M:>=5,1,Hit.K:1,Best." = .ok (labelledHits "Hit") ∧
      parse "2d6r:1,replace.m:>=5,1,hit.k:1,best." = .ok (labelledHits "hit") := by
  have hascii : ∀ c ∈ "2D6R:1,Replace.M:>=5,1,Hit.K:1,Best.".toList, Text.IsAscii c :=
    List.all_iff_forall_prop.mp (by decide)
  have hlower : lowerText "2D6R:1,Replace.M:>=5,1,Hit.K:1,Best." = "2d6r:1,replace.m:>=5,1,hit.k:1,best." := by
    decide
  have hparse : parse "2D6R:1,Replace.M:>=5,1,Hit.K:1,Best." = .ok (labelledHits "Hit") :=
    ok_of_toOption (by decide +kernel)
  refine ⟨hascii, hparse, ?_⟩
  rw [← hlower]
  refine (parse_lower_iff hascii).mpr ⟨_, hparse, ?_⟩
  decide

end TabletopDice.Notation
