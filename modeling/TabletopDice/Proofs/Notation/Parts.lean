import TabletopDice.Proofs.Notation.Scan
import TabletopDice.Proofs.Outcome

/-!
# The parts of a token

How each reader takes a text apart: what it splits off the front, and the texts
that have the parts it asks for.
-/

namespace TabletopDice.Notation

open Text (isBlank sameLetter sameWord isDigit_eq_false)
open Decimal (isDigit)

-- ---------------------------------------------------------------------------
-- Splitting off the front
-- ---------------------------------------------------------------------------

theorem digits?_eq_some {cs ds rest : List Char} :
    digits? cs = some (ds, rest) ↔ Digits ds ∧ Ends isDigit rest ∧ cs = ds ++ rest := by
  unfold digits?
  constructor
  · intro h
    split at h
    · cases h
    · rename_i hne
      cases h
      exact ⟨digits_takeWhile hne, ends_dropWhile isDigit cs, List.takeWhile_append_dropWhile.symm⟩
  · rintro ⟨hds, hrest, rfl⟩
    rw [hds.count_append hrest, takeWhile_run hds.all hrest, dropWhile_run hds.all hrest]
    simp [hds.ne_nil]

structure Part (isPart : Char → Bool) (part : List Char) : Prop where
  ne_nil : part ≠ []
  all : ∀ c ∈ part, isPart c

theorem part?_eq_some {isPart : Char → Bool} {cs part rest : List Char} :
    part? isPart cs = some (part, rest) ↔
      Part isPart part ∧ Ends isPart rest ∧ cs = ',' :: (part ++ rest) := by
  constructor
  · intro h
    unfold part? at h
    split at h
    · split at h
      · cases h
      · rename_i tail hne
        cases h
        exact ⟨⟨by simpa using hne, fun c hc => List.mem_takeWhile_imp hc⟩, ends_dropWhile isPart tail,
          by rw [List.takeWhile_append_dropWhile]⟩
    · cases h
  · rintro ⟨hpart, hrest, rfl⟩
    rw [part?, takeWhile_run hpart.all hrest, dropWhile_run hpart.all hrest]
    simp [hpart.ne_nil]

inductive ComparisonMark : List Char → Comparison → Prop
  | bare : ComparisonMark [] .eq
  | eq : ComparisonMark ['=', '='] .eq
  | ge : ComparisonMark ['>', '='] .le
  | gt : ComparisonMark ['>'] .lt
  | le : ComparisonMark ['<', '='] .ge
  | lt : ComparisonMark ['<'] .gt

theorem comparison_mark (cs : List Char) :
    ∃ mark, ComparisonMark mark (comparison cs).1 ∧ cs = mark ++ (comparison cs).2 := by
  unfold comparison
  split
  · exact ⟨_, .ge, rfl⟩
  · exact ⟨_, .le, rfl⟩
  · exact ⟨_, .eq, rfl⟩
  · exact ⟨_, .gt, rfl⟩
  · exact ⟨_, .lt, rfl⟩
  · exact ⟨_, .bare, rfl⟩

theorem comparison_append {mark ds : List Char} {c : Comparison} (hmark : ComparisonMark mark c)
    (hds : Digits ds) (rest : List Char) : comparison (mark ++ (ds ++ rest)) = (c, ds ++ rest) := by
  obtain ⟨d, ds, rfl⟩ := List.exists_cons_of_ne_nil hds.ne_nil
  have hd : isDigit d := hds.all d List.mem_cons_self
  have hlt : d ≠ '<' := ne_of_isDigit hd (isDigit_eq_false (by decide))
  have hgt : d ≠ '>' := ne_of_isDigit hd (isDigit_eq_false (by decide))
  have heq : d ≠ '=' := ne_of_isDigit hd (isDigit_eq_false (by decide))
  cases hmark with
  | bare => simp [comparison, hlt, hgt, heq]
  | eq => simp [comparison]
  | ge => simp [comparison]
  | gt => simp [comparison, heq]
  | le => simp [comparison]
  | lt => simp [comparison, heq]

inductive SignMark : List Char → Option Sign → Prop
  | bare : SignMark [] none
  | plus : SignMark ['+'] (some .plus)
  | minus : SignMark ['-'] (some .minus)

theorem signed_digits?_eq_some {cs ds rest : List Char} {s s' : Option Sign} :
    ((digits? cs).map fun (ds, rest) => ((s, ds), rest)) = some ((s', ds), rest) ↔
      s = s' ∧ Digits ds ∧ Ends isDigit rest ∧ cs = ds ++ rest := by
  simp only [Option.map_eq_some_iff, Prod.exists, Prod.mk.injEq, ← digits?_eq_some]
  constructor
  · rintro ⟨ds, rest, hsplit, ⟨hs, rfl⟩, rfl⟩
    exact ⟨hs, hsplit⟩
  · rintro ⟨hs, hsplit⟩
    exact ⟨ds, rest, hsplit, ⟨hs, rfl⟩, rfl⟩

theorem signedPart?_eq_some {cs ds rest : List Char} {s : Option Sign} :
    signedPart? cs = some ((s, ds), rest) ↔
      ∃ mark, SignMark mark s ∧ Digits ds ∧ Ends isDigit rest ∧ cs = ',' :: (mark ++ (ds ++ rest)) := by
  constructor
  · intro h
    unfold signedPart? at h
    split at h
    · obtain ⟨rfl, hds, hrest, rfl⟩ := signed_digits?_eq_some.mp h
      exact ⟨_, .plus, hds, hrest, rfl⟩
    · obtain ⟨rfl, hds, hrest, rfl⟩ := signed_digits?_eq_some.mp h
      exact ⟨_, .minus, hds, hrest, rfl⟩
    · obtain ⟨rfl, hds, hrest, rfl⟩ := signed_digits?_eq_some.mp h
      exact ⟨_, .bare, hds, hrest, rfl⟩
    · cases h
  · rintro ⟨mark, hmark, hds, hrest, rfl⟩
    have hsplit := digits?_eq_some.mpr ⟨hds, hrest, rfl⟩
    cases hmark with
    | plus => simp [signedPart?, hsplit]
    | minus => simp [signedPart?, hsplit]
    | bare =>
      obtain ⟨d, ds, rfl⟩ := List.exists_cons_of_ne_nil hds.ne_nil
      have hd : isDigit d := hds.all d List.mem_cons_self
      have hplus : d ≠ '+' := ne_of_isDigit hd (isDigit_eq_false (by decide))
      have hminus : d ≠ '-' := ne_of_isDigit hd (isDigit_eq_false (by decide))
      simp only [List.nil_append, List.cons_append] at hsplit ⊢
      simp [signedPart?, hplus, hminus, hsplit]

-- ---------------------------------------------------------------------------
-- Texts with all their parts
-- ---------------------------------------------------------------------------

theorem not_isDigit_stop : isDigit '.' = false := isDigit_eq_false (by decide)

theorem not_isDigit_comma : isDigit ',' = false := isDigit_eq_false (by decide)

theorem DiceParts.ofText?_eq_some {cs : List Char} {p : DiceParts} :
    ofText? cs = some p ↔ ∃ c, sameLetter 'd' c ∧ Digits p.count ∧ Digits p.sides ∧
      cs = p.count ++ c :: p.sides := by
  constructor
  · intro h
    unfold ofText? at h
    split at h
    · rename_i count c rest hcount
      split at h
      · rename_i hc
        split at h
        · rename_i sides hsides
          cases h
          obtain ⟨hds, -, rfl⟩ := digits?_eq_some.mp hcount
          obtain ⟨hds', -, rfl⟩ := digits?_eq_some.mp hsides
          exact ⟨c, hc, hds, hds', by simp⟩
        · cases h
      · cases h
    · cases h
  · rintro ⟨c, hc, hcount, hsides, rfl⟩
    have hends : Ends isDigit (c :: p.sides) :=
      ends_cons.mpr (apart_of_sameLetter (by decide) hc).digit
    have h1 := digits?_eq_some.mpr ⟨hcount, hends, rfl⟩
    have h2 : digits? p.sides = some (p.sides, []) :=
      digits?_eq_some.mpr ⟨hsides, ends_nil isDigit, by simp⟩
    simp [ofText?, h1, h2, hc]

theorem TerseParts.ofText?_eq_some {cs : List Char} {p : TerseParts} :
    ofText? cs = some p ↔ isTerseLetter p.letter ∧ (∀ d ∈ p.digits, isDigit d) ∧
      ∃ stop, (stop = [] ∨ stop = ['.']) ∧ cs = p.letter :: (p.digits ++ stop) := by
  constructor
  · intro h
    cases cs with
    | nil => cases h
    | cons c rest =>
      simp only [ofText?] at h
      split at h
      · rename_i hc
        have hds : ∀ d ∈ rest.takeWhile isDigit, isDigit d := fun d hd => List.mem_takeWhile_imp hd
        have hsplit := List.takeWhile_append_dropWhile (p := isDigit) (l := rest)
        split at h
        · rename_i hdrop
          cases h
          rw [hdrop] at hsplit
          exact ⟨hc, hds, [], .inl rfl, by rw [hsplit]⟩
        · rename_i hdrop
          cases h
          rw [hdrop] at hsplit
          exact ⟨hc, hds, ['.'], .inr rfl, by rw [hsplit]⟩
        · cases h
      · cases h
  · rintro ⟨hc, hds, stop, hstop, rfl⟩
    have hends : Ends isDigit stop := by
      rcases hstop with rfl | rfl
      · exact ends_nil isDigit
      · exact ends_cons.mpr not_isDigit_stop
    simp only [ofText?, hc, if_true, dropWhile_run hds hends, takeWhile_run hds hends]
    rcases hstop with rfl | rfl <;> rfl

inductive RerollTail : List Char → Option (List Char) → Option (List Char) → Prop
  | bare : RerollTail [] none none
  | effect {name} (hname : Part isEffectChar name) : RerollTail (',' :: name) (some name) none
  | limit {name ds} (hname : Part isEffectChar name) (hds : Digits ds) :
      RerollTail (',' :: (name ++ ',' :: ds)) (some name) (some ds)

theorem RerollParts.ofText?_eq_some {cs : List Char} {p : RerollParts} :
    ofText? cs = some p ↔ ∃ c mark tail, sameLetter 'r' c ∧ ComparisonMark mark p.comparison ∧
      Digits p.value ∧ RerollTail tail p.effect p.limit ∧
        cs = c :: ':' :: (mark ++ (p.value ++ (tail ++ ['.']))) := by
  constructor
  · intro h
    unfold ofText? at h
    split at h
    · rename_i c rest
      split at h
      · rename_i hc
        obtain ⟨mark, hmark, hrest⟩ := comparison_mark rest
        generalize Notation.comparison rest = split at h hmark hrest
        obtain ⟨o, after⟩ := split
        dsimp only at h hmark hrest
        subst hrest
        split at h
        · cases h
        · rename_i hvalue
          cases h
          obtain ⟨hds, -, rfl⟩ := digits?_eq_some.mp hvalue
          exact ⟨c, mark, [], hc, hmark, hds, .bare, rfl⟩
        · rename_i hvalue
          obtain ⟨hds, -, rfl⟩ := digits?_eq_some.mp hvalue
          split at h
          · cases h
          · rename_i heffect
            cases h
            obtain ⟨hname, -, rfl⟩ := part?_eq_some.mp heffect
            exact ⟨c, mark, _, hc, hmark, hds, .effect hname, rfl⟩
          · rename_i heffect
            obtain ⟨hname, -, rfl⟩ := part?_eq_some.mp heffect
            split at h
            · rename_i hlimit
              cases h
              obtain ⟨hds', -, rfl⟩ := part?_eq_some.mp hlimit
              exact ⟨c, mark, _, hc, hmark, hds, .limit hname ⟨hds'.ne_nil, hds'.all⟩, by simp⟩
            · cases h
      · cases h
    · cases h
  · obtain ⟨o, value, effect, limit⟩ := p
    rintro ⟨c, mark, tail, hc, hmark, hvalue, htail, rfl⟩
    have hstop : Ends isEffectChar ['.'] ∧ Ends isEffectChar (',' :: tail) ∧ Ends isDigit ['.'] := by
      simp [not_isDigit_stop, isEffectChar, Text.isLetter]
    have hcomma : ∀ rest, Ends isDigit (',' :: rest) ∧ Ends isEffectChar (',' :: rest) := by
      simp [not_isDigit_comma, isEffectChar, Text.isLetter]
    cases htail with
    | bare =>
      have hsplit := digits?_eq_some.mpr ⟨hvalue, hstop.2.2, rfl⟩
      simp [ofText?, hc, comparison_append hmark hvalue, hsplit]
    | @effect name hname =>
      have hsplit := digits?_eq_some.mpr ⟨hvalue, (hcomma (name ++ ['.'])).1, rfl⟩
      have heffect := part?_eq_some.mpr ⟨hname, hstop.1, rfl⟩
      simp [ofText?, hc, comparison_append hmark hvalue, hsplit, heffect]
    | @limit name ds hname hds =>
      have hsplit := digits?_eq_some.mpr ⟨hvalue, (hcomma (name ++ ',' :: (ds ++ ['.']))).1, rfl⟩
      have heffect := part?_eq_some.mpr ⟨hname, (hcomma (ds ++ ['.'])).2, rfl⟩
      have hlimit := part?_eq_some.mpr ⟨⟨hds.ne_nil, hds.all⟩, hstop.2.2, rfl⟩
      simp [ofText?, hc, comparison_append hmark hvalue, hsplit, heffect, hlimit]

inductive MapTail : List Char → Option (Option Sign × List Char) → Option (List Char) → Prop
  | bare : MapTail [] none none
  | value {mark s ds} (hmark : SignMark mark s) (hds : Digits ds) :
      MapTail (',' :: (mark ++ ds)) (some (s, ds)) none
  | label {mark s ds label} (hmark : SignMark mark s) (hds : Digits ds)
      (hlabel : Part isLabelChar label) :
      MapTail (',' :: (mark ++ (ds ++ ',' :: label))) (some (s, ds)) (some label)

theorem MapParts.ofText?_eq_some {cs : List Char} {p : MapParts} :
    ofText? cs = some p ↔ ∃ c mark tail, sameLetter 'm' c ∧ ComparisonMark mark p.comparison ∧
      Digits p.value ∧ MapTail tail p.mapped p.label ∧
        cs = c :: ':' :: (mark ++ (p.value ++ (tail ++ ['.']))) := by
  constructor
  · intro h
    unfold ofText? at h
    split at h
    · rename_i c rest
      split at h
      · rename_i hc
        obtain ⟨mark, hmark, hrest⟩ := comparison_mark rest
        generalize Notation.comparison rest = split at h hmark hrest
        obtain ⟨o, after⟩ := split
        dsimp only at h hmark hrest
        subst hrest
        split at h
        · cases h
        · rename_i hvalue
          cases h
          obtain ⟨hds, -, rfl⟩ := digits?_eq_some.mp hvalue
          exact ⟨c, mark, [], hc, hmark, hds, .bare, rfl⟩
        · rename_i hvalue
          obtain ⟨hds, -, rfl⟩ := digits?_eq_some.mp hvalue
          split at h
          · cases h
          · rename_i mapped hmapped
            cases h
            obtain ⟨s, ds'⟩ := mapped
            obtain ⟨smark, hsmark, hds', -, rfl⟩ := signedPart?_eq_some.mp hmapped
            exact ⟨c, mark, _, hc, hmark, hds, .value hsmark hds', by simp⟩
          · rename_i mapped _ _ hmapped
            obtain ⟨s, ds'⟩ := mapped
            obtain ⟨smark, hsmark, hds', -, rfl⟩ := signedPart?_eq_some.mp hmapped
            split at h
            · rename_i hlast
              cases h
              obtain ⟨hlabel, -, rfl⟩ := part?_eq_some.mp hlast
              exact ⟨c, mark, _, hc, hmark, hds, .label hsmark hds' hlabel, by simp⟩
            · cases h
      · cases h
    · cases h
  · obtain ⟨o, value, mapped, label⟩ := p
    rintro ⟨c, mark, tail, hc, hmark, hvalue, htail, rfl⟩
    have hstop : Ends isDigit ['.'] ∧ Ends isLabelChar ['.'] := by
      simp [not_isDigit_stop, isLabelChar, Text.isLetter]
    have hcomma : ∀ rest, Ends isDigit (',' :: rest) := by simp [not_isDigit_comma]
    cases htail with
    | bare =>
      have hsplit := digits?_eq_some.mpr ⟨hvalue, hstop.1, rfl⟩
      simp [ofText?, hc, comparison_append hmark hvalue, hsplit]
    | @value smark s ds hsmark hds =>
      have hsplit := digits?_eq_some.mpr ⟨hvalue, hcomma (smark ++ (ds ++ ['.'])), rfl⟩
      have hmapped := signedPart?_eq_some.mpr ⟨smark, hsmark, hds, hstop.1, rfl⟩
      simp [ofText?, hc, comparison_append hmark hvalue, hsplit, hmapped]
    | @label smark s ds label hsmark hds hlabel =>
      have hsplit := digits?_eq_some.mpr
        ⟨hvalue, hcomma (smark ++ (ds ++ ',' :: (label ++ ['.']))), rfl⟩
      have hmapped := signedPart?_eq_some.mpr
        ⟨smark, hsmark, hds, hcomma (label ++ ['.']), rfl⟩
      have hlast := part?_eq_some.mpr ⟨hlabel, hstop.2, rfl⟩
      simp [ofText?, hc, comparison_append hmark hvalue, hsplit, hmapped, hlast]

inductive KeepTail : List Char → Option (List Char) → Prop
  | bare : KeepTail [] none
  | mode {name} (hname : Part Text.isLetter name)
      (hword : sameWord "best".toList name ∨ sameWord "worst".toList name) :
      KeepTail (',' :: name) (some name)

theorem KeepParts.ofText?_eq_some {cs : List Char} {p : KeepParts} :
    ofText? cs = some p ↔ ∃ c tail, sameLetter 'k' c ∧ Digits p.count ∧ KeepTail tail p.mode ∧
      cs = c :: ':' :: (p.count ++ (tail ++ ['.'])) := by
  constructor
  · intro h
    unfold ofText? at h
    split at h
    · rename_i c rest
      split at h
      · rename_i hc
        split at h
        · cases h
        · rename_i hcount
          cases h
          obtain ⟨hds, -, rfl⟩ := digits?_eq_some.mp hcount
          exact ⟨c, [], hc, hds, .bare, rfl⟩
        · rename_i hcount
          obtain ⟨hds, -, rfl⟩ := digits?_eq_some.mp hcount
          split at h
          · rename_i hmode
            obtain ⟨hname, -, rfl⟩ := part?_eq_some.mp hmode
            split at h
            · rename_i hword
              cases h
              exact ⟨c, _, hc, hds, .mode hname (by simpa using hword), rfl⟩
            · cases h
          · cases h
      · cases h
    · cases h
  · obtain ⟨count, mode⟩ := p
    rintro ⟨c, tail, hc, hcount, htail, rfl⟩
    have hstop : Ends isDigit ['.'] ∧ Ends Text.isLetter ['.'] := by
      simp [not_isDigit_stop, Text.isLetter]
    cases htail with
    | bare =>
      have hsplit := digits?_eq_some.mpr ⟨hcount, hstop.1, rfl⟩
      simp [ofText?, hc, hsplit]
    | @mode name hname hword =>
      have hcomma : Ends isDigit (',' :: (name ++ ['.'])) := by simp [not_isDigit_comma]
      have hsplit := digits?_eq_some.mpr ⟨hcount, hcomma, rfl⟩
      have hlast := part?_eq_some.mpr ⟨hname, hstop.2, rfl⟩
      have hmode : (sameWord "best".toList name || sameWord "worst".toList name) = true := by
        rwa [Bool.or_eq_true]
      simp only [ofText?, hc, if_true, List.cons_append, hsplit]
      simp [hlast, hmode, -String.reduceToList]

-- ---------------------------------------------------------------------------
-- Tokens
-- ---------------------------------------------------------------------------

/-- A sign, or the class that reads a token. -/
inductive ReadBy : List Char → Token → Prop
  | plus : ReadBy ['+'] (.sign .plus)
  | minus : ReadBy ['-'] (.sign .minus)
  | constant {cs t} (h : readConstant cs = .ok t) : ReadBy cs t
  | dice {cs t} (h : readDice cs = .ok t) : ReadBy cs t
  | terse {cs m} (h : readTerse cs = .ok m) : ReadBy cs (.modifier m)
  | verbose {cs m} (h : readVerbose cs = .ok m) : ReadBy cs (.modifier m)

theorem readBy_of_readToken {cs : List Char} {t : Token} (h : readToken cs = .ok t) : ReadBy cs t := by
  unfold readToken at h
  split at h
  · rename_i hplus
    obtain rfl := Except.ok.inj h
    exact hplus ▸ .plus
  · split at h
    · rename_i hminus
      obtain rfl := Except.ok.inj h
      exact hminus ▸ .minus
    · split at h
      · rename_i token hfind
        obtain rfl := Except.ok.inj h
        obtain ⟨read, hread, hok⟩ := List.exists_of_findSome?_eq_some hfind
        have hok := ok_of_toOption hok
        simp only [classReaders, List.mem_cons, List.not_mem_nil, or_false] at hread
        rcases hread with rfl | rfl | rfl | rfl
        · exact .constant hok
        · exact .dice hok
        · obtain ⟨m, hm, rfl⟩ := map_ok.mp hok
          exact .terse hm
        · obtain ⟨m, hm, rfl⟩ := map_ok.mp hok
          exact .verbose hm
      · cases h

end TabletopDice.Notation
