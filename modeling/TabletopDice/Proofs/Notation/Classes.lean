import TabletopDice.Proofs.Notation.Parse

/-!
# Scanner and classes

A text is scanned by the first pattern that takes something, and whatever no
pattern takes is passed over. Only blanks are. Then classes of tokens are tried
one after another on each fragment, and only the class whose pattern took it can
read it.
-/

namespace TabletopDice

open Text (isBlank sameLetter isDigit_eq_false)
open Decimal (isDigit)

namespace Notation

-- ---------------------------------------------------------------------------
-- Scanning by patterns
-- ---------------------------------------------------------------------------

structure Found where
  pattern : Pattern
  fragment : List Char
deriving DecidableEq

/-- Scans what follows `pending` characters that have been taken. A character is passed over if no pattern
takes anything there. -/
def scanAfter (pending : Nat) : List Char → List Found
  | [] => []
  | c :: rest =>
    match pending with
    | pending + 1 => scanAfter pending rest
    | 0 =>
      match firstMatch (c :: rest) with
      | some (p, length) => ⟨p, (c :: rest).take length⟩ :: scanAfter (length - 1) rest
      | none => scanAfter 0 rest

def scan (cs : List Char) : List Found :=
  scanAfter 0 cs

section
variable {cs fragment : List Char} {p : Pattern} {n : Nat}

theorem firstMatch_blank {c : Char} (hc : isBlank c) (cs : List Char) : firstMatch (c :: cs) = none := by
  cases hmatch : firstMatch (c :: cs) with
  | none => rfl
  | some found =>
    obtain ⟨p, n⟩ := found
    have hfits := fits_of_firstMatch hmatch
    cases n with
    | zero => exact absurd rfl hfits.ne_nil
    | succ n =>
      have hblank := hfits.not_blank c (by simp)
      rw [hc] at hblank
      cases hblank

theorem map_fragment_scanAfter (pending : Nat) (cs : List Char) :
    (scanAfter pending cs).map Found.fragment = fragmentsAfter pending cs := by
  induction cs generalizing pending with
  | nil => rfl
  | cons c cs ih =>
    cases pending with
    | succ pending => exact ih pending
    | zero =>
      rw [scanAfter, fragmentsAfter]
      cases hc : isBlank c with
      | true =>
        rw [firstMatch_blank hc]
        exact ih 0
      | false =>
        obtain ⟨p, hp⟩ := exists_firstMatch hc cs
        rw [hp]
        simp [ih]

theorem map_fragment_scan (cs : List Char) : (scan cs).map Found.fragment = fragments cs :=
  map_fragment_scanAfter 0 cs

theorem fits_of_mem_scanAfter {found : Found} {pending : Nat} (h : found ∈ scanAfter pending cs) :
    Fits found.pattern found.fragment := by
  induction cs generalizing pending with
  | nil => cases h
  | cons c cs ih =>
    cases pending with
    | succ pending => exact ih h
    | zero =>
      rw [scanAfter] at h
      split at h
      · rename_i p n hmatch
        rcases List.mem_cons.mp h with rfl | h
        · exact fits_of_firstMatch hmatch
        · exact ih h
      · exact ih h

/-- The fragments are all of the text but its blanks. -/
theorem Spaced.flatten {fragments : List (List Char)} (h : Spaced fragments cs)
    (hblank : ∀ fragment ∈ fragments, ∀ c ∈ fragment, isBlank c = false) :
    fragments.flatten = cs.filter (!isBlank ·) := by
  have hblanks : ∀ {blanks : List Char}, (∀ c ∈ blanks, isBlank c) → blanks.filter (!isBlank ·) = [] := by
    intro blanks hblanks
    exact List.filter_eq_nil_iff.mpr fun c hc => by simp [hblanks c hc]
  induction h with
  | nil h => exact (hblanks h).symm
  | @cons blanks fragment fragments rest h _ ih =>
    rw [List.forall_mem_cons] at hblank
    have hfragment : fragment.filter (!isBlank ·) = fragment :=
      List.filter_eq_self.mpr fun c hc => by simp [hblank.1 c hc]
    rw [List.filter_append, List.filter_append, hblanks h, hfragment, List.flatten_cons, ih hblank.2]
    rfl

-- ---------------------------------------------------------------------------
-- The pattern that takes all of a text
-- ---------------------------------------------------------------------------

theorem firstMatch_verbose {n : Nat} (h : verboseLength? cs = some n) : firstMatch cs = some (.verbose, n) := by
  simp only [firstMatch, Pattern.all, Pattern.length?, List.findSome?, h]
  rfl

theorem firstMatch_terse {n : Nat} (hverbose : verboseLength? cs = none) (h : terseLength? cs = some n) :
    firstMatch cs = some (.terse, n) := by
  simp only [firstMatch, Pattern.all, Pattern.length?, List.findSome?, hverbose, h]
  rfl

/-- The patterns of modifiers take nothing of what begins with another character. -/
theorem firstMatch_of_not_letter {c : Char} (hc : isTerseLetter c = false) (cs : List Char) :
    firstMatch (c :: cs) =
      [Pattern.dice, .number, .single].findSome? fun p => (p.length? (c :: cs)).map (p, ·) := by
  simp only [firstMatch, Pattern.all, List.findSome?, Pattern.length?,
    verboseLength?_of_not_letter (isVerboseLetter_of_not_terse hc), terseLength?_of_not_letter hc]
  rfl

theorem Digits.firstMatch_eq (h : Digits cs) (rest : List Char) : firstMatch (cs ++ rest) =
    [Pattern.dice, .number, .single].findSome? fun p => (p.length? (cs ++ rest)).map (p, ·) := by
  obtain ⟨d, ds, rfl⟩ := List.exists_cons_of_ne_nil h.ne_nil
  exact firstMatch_of_not_letter (isTerseLetter_of_isDigit (h.all d List.mem_cons_self)) (ds ++ rest)

/-- What a pattern took is by itself taken by the same pattern. -/
theorem Fits.firstMatch (h : Fits p cs) : firstMatch cs = some (p, cs.length) := by
  cases h with
  | @verbose c body hc hbody =>
    have hlength : verboseLength? (c :: ':' :: (body ++ ['.'])) = some (body.length + 3) :=
      verboseLength?_eq hc hbody
    rw [firstMatch_verbose hlength]
    simp
  | @terse c ds stop hc hds hstop =>
    have hcolon : ∀ d ∈ stop.head?, d ≠ ':' := by
      rcases hstop with rfl | rfl <;> simp
    have hlength : terseLength? (c :: (ds ++ stop)) = some (c :: (ds ++ stop)).length := by
      rcases hstop with rfl | rfl
      · rw [terseLength?_eq hc hds (ends_nil isDigit) (by simp)]
        simp
      · rw [terseLength?_stop hc hds]
        simp
    exact firstMatch_terse (verboseLength?_of_not_colon (head_digits_ne_colon hds hcolon)) hlength
  | @dice count c sides hcount hc hsides =>
    have hlength := diceLength?_eq hcount hc hsides (ends_nil isDigit)
    rw [List.append_nil] at hlength
    rw [hcount.firstMatch_eq]
    simp [Pattern.length?, hlength, Nat.add_comm, Nat.add_left_comm]
  | number hds =>
    have hdice := diceLength?_of_not_letter hds.all (ends_nil isDigit) (ends_nil (sameLetter 'd'))
    have hlength := hds.numberLength?_eq (ends_nil isDigit)
    have hmatch := hds.firstMatch_eq []
    rw [List.append_nil] at hdice hlength hmatch
    rw [hmatch]
    simp [Pattern.length?, hdice, hlength]
  | @single c hc hletter hdigit =>
    have hcount : digitCount [c] = 0 := digitCount_of_ends (ends_cons.mpr hdigit)
    rw [firstMatch_of_not_letter hletter]
    simp [Pattern.length?, diceLength?, numberLength?, hdigit, hcount, hc]

theorem Fits.unique {q : Pattern} (h : Fits p cs) (h' : Fits q cs) : p = q := by
  have heq := h.firstMatch.symm.trans h'.firstMatch
  exact congrArg Prod.fst (Option.some.inj heq)

end

-- ---------------------------------------------------------------------------
-- Classes
-- ---------------------------------------------------------------------------

/-- Reads a text by the class of the pattern. Of single characters only signs are read. -/
def Pattern.read : Pattern → List Char → Except Fault Token
  | .verbose, cs => (readVerbose cs).map .modifier
  | .terse, cs => (readTerse cs).map .modifier
  | .dice, cs => readDice cs
  | .number, cs => readConstant cs
  | .single, cs =>
    if cs = ['+'] then .ok (.sign .plus)
    else if cs = ['-'] then .ok (.sign .minus)
    else .error (misshapen .token cs)

end Notation

open Notation (Pattern)

def Modifier.pattern : Modifier → Pattern
  | .explode | .rerollAtMost _ | .keepBest _ | .successAtLeast _ => .terse
  | .reroll .. | .map .. | .keep .. => .verbose

def Token.pattern : Token → Pattern
  | .sign _ => .single
  | .constant _ => .number
  | .dice .. => .dice
  | .modifier m => m.pattern

namespace Notation

section
variable {cs : List Char} {p : Pattern} {t : Token} {m : Modifier}

theorem pattern_of_readTerse (h : readTerse cs = .ok m) : m.pattern = .terse := by
  unfold readTerse at h
  split at h
  · split at h
    · split at h
      · cases h
        rfl
      · cases h
    · split at h
      · cases h
      · split at h
        · obtain ⟨n, -, rfl⟩ := map_ok.mp h
          rfl
        · split at h
          · obtain ⟨n, -, rfl⟩ := map_ok.mp h
            rfl
          · obtain ⟨n, -, rfl⟩ := map_ok.mp h
            rfl
  · cases h

theorem pattern_of_readReroll (h : readReroll cs = .ok m) : m.pattern = .verbose := by
  unfold readReroll at h
  split at h
  · obtain ⟨n, -, h⟩ := bind_ok.mp h
    dsimp only at h
    split at h
    all_goals
      obtain ⟨e, -, h⟩ := bind_ok.mp h
      split at h
      all_goals
        obtain ⟨limit, -, h⟩ := bind_ok.mp h
        cases h
        rfl
  · cases h

theorem pattern_of_readMap (h : readMap cs = .ok m) : m.pattern = .verbose := by
  unfold readMap at h
  split at h
  · obtain ⟨n, -, h⟩ := bind_ok.mp h
    split at h
    all_goals
      obtain ⟨mapped, -, h⟩ := bind_ok.mp h
      cases h
      rfl
  · cases h

theorem pattern_of_readKeep (h : readKeep cs = .ok m) : m.pattern = .verbose := by
  unfold readKeep at h
  split at h
  · obtain ⟨n, -, h⟩ := bind_ok.mp h
    split at h
    all_goals
      obtain ⟨mode, -, h⟩ := bind_ok.mp h
      cases h
      rfl
  · cases h

theorem pattern_of_readVerbose (h : readVerbose cs = .ok m) : m.pattern = .verbose := by
  unfold readVerbose at h
  split at h
  · cases h
  · split at h
    · split at h
      · exact pattern_of_readReroll h
      · split at h
        · exact pattern_of_readMap h
        · exact pattern_of_readKeep h
    · cases h

theorem pattern_of_readConstant (h : readConstant cs = .ok t) : t.pattern = .number := by
  unfold readConstant at h
  split at h
  · obtain ⟨n, -, rfl⟩ := map_ok.mp h
    rfl
  · cases h

theorem pattern_of_readDice (h : readDice cs = .ok t) : t.pattern = .dice := by
  unfold readDice at h
  split at h
  · simp only [bind_ok, pure_ok] at h
    obtain ⟨count, -, sides, -, rfl⟩ := h
    rfl
  · cases h

theorem read_single_eq_ok : Pattern.single.read cs = .ok t ↔
    (cs = ['+'] ∧ t = .sign .plus) ∨ (cs = ['-'] ∧ t = .sign .minus) := by
  simp only [Pattern.read]
  split
  · rename_i hplus
    simp [hplus, eq_comm]
  · rename_i hplus
    split
    · rename_i hminus
      simp [hminus, eq_comm]
    · rename_i hminus
      simp [hplus, hminus]

theorem pattern_of_read (h : p.read cs = .ok t) : t.pattern = p := by
  cases p with
  | verbose =>
    obtain ⟨m, hm, rfl⟩ := map_ok.mp h
    exact pattern_of_readVerbose hm
  | terse =>
    obtain ⟨m, hm, rfl⟩ := map_ok.mp h
    exact pattern_of_readTerse hm
  | dice => exact pattern_of_readDice h
  | number => exact pattern_of_readConstant h
  | single => rcases read_single_eq_ok.mp h with ⟨-, rfl⟩ | ⟨-, rfl⟩ <;> rfl

theorem fits_of_readVerbose (hblank : ∀ c ∈ cs, isBlank c = false) (h : readVerbose cs = .ok m) :
    Fits .verbose cs := by
  unfold readVerbose at h
  split at h
  · cases h
  · split at h
    · rename_i hlength
      rw [withoutLineEnd_eq hblank] at hlength
      have hfits := fits_verbose hlength
      rwa [List.take_length] at hfits
    · cases h

theorem fits_of_readTerse (hblank : ∀ c ∈ cs, isBlank c = false) (h : readTerse cs = .ok m) :
    Fits .terse cs := by
  rw [readTerse, withoutLineEnd_eq hblank] at h
  split at h
  · rename_i parts hparts
    obtain ⟨hc, hds, stop, hstop, rfl⟩ := TerseParts.ofText?_eq_some.mp hparts
    exact .terse hc hds hstop
  · cases h

theorem fits_of_readDice (hblank : ∀ c ∈ cs, isBlank c = false) (h : readDice cs = .ok t) : Fits .dice cs := by
  rw [readDice, withoutLineEnd_eq hblank] at h
  split at h
  · rename_i parts hparts
    obtain ⟨c, hc, hcount, hsides, rfl⟩ := DiceParts.ofText?_eq_some.mp hparts
    exact .dice hcount hc hsides
  · cases h

theorem fits_of_readConstant (hblank : ∀ c ∈ cs, isBlank c = false) (h : readConstant cs = .ok t) :
    Fits .number cs := by
  rw [readConstant, withoutLineEnd_eq hblank] at h
  split at h
  · rename_i ds hsplit
    obtain ⟨hds, -, rfl⟩ := digits?_eq_some.mp hsplit
    rw [List.append_nil]
    exact .number hds
  · cases h

/-- A class reads nothing but what its pattern takes. -/
theorem fits_of_read (hblank : ∀ c ∈ cs, isBlank c = false) (h : p.read cs = .ok t) : Fits p cs := by
  cases p with
  | verbose =>
    obtain ⟨m, hm, -⟩ := map_ok.mp h
    exact fits_of_readVerbose hblank hm
  | terse =>
    obtain ⟨m, hm, -⟩ := map_ok.mp h
    exact fits_of_readTerse hblank hm
  | dice => exact fits_of_readDice hblank h
  | number => exact fits_of_readConstant hblank h
  | single =>
    rcases read_single_eq_ok.mp h with ⟨rfl, -⟩ | ⟨rfl, -⟩ <;>
      exact .single (by decide) (by decide) (isDigit_eq_false (by decide))

theorem exists_read_of_readToken (h : readToken cs = .ok t) : ∃ p : Pattern, p.read cs = .ok t := by
  cases readBy_of_readToken h with
  | plus => exact ⟨.single, rfl⟩
  | minus => exact ⟨.single, rfl⟩
  | constant hread => exact ⟨.number, hread⟩
  | dice hread => exact ⟨.dice, hread⟩
  | terse hread => exact ⟨.terse, map_ok.mpr ⟨_, hread, rfl⟩⟩
  | verbose hread => exact ⟨.verbose, map_ok.mpr ⟨_, hread, rfl⟩⟩

theorem exists_readToken_of_read (h : p.read cs = .ok t) : ∃ t', readToken cs = .ok t' := by
  unfold readToken
  split
  · exact ⟨_, rfl⟩
  · rename_i hplus
    split
    · exact ⟨_, rfl⟩
    · rename_i hminus
      have hread : ∃ read ∈ classReaders, read cs = .ok t := by
        cases p with
        | verbose => exact ⟨fun cs => (readVerbose cs).map .modifier, by simp [classReaders], h⟩
        | terse => exact ⟨fun cs => (readTerse cs).map .modifier, by simp [classReaders], h⟩
        | dice => exact ⟨readDice, by simp [classReaders], h⟩
        | number => exact ⟨readConstant, by simp [classReaders], h⟩
        | single =>
          rcases read_single_eq_ok.mp h with ⟨heq, -⟩ | ⟨heq, -⟩
          · exact absurd heq hplus
          · exact absurd heq hminus
      obtain ⟨read, hmem, hok⟩ := hread
      split
      · exact ⟨_, rfl⟩
      · rename_i hnone
        have hnot := List.findSome?_eq_none_iff.mp hnone read hmem
        rw [toOption_of_ok hok] at hnot
        cases hnot

/-- The classes are tried one after another, but no text is read by two. -/
theorem readToken_eq_ok_iff (hblank : ∀ c ∈ cs, isBlank c = false) :
    readToken cs = .ok t ↔ ∃ p : Pattern, p.read cs = .ok t := by
  constructor
  · exact exists_read_of_readToken
  · rintro ⟨p, hp⟩
    -- some class is the first to read the text, and by its pattern it can be no other
    obtain ⟨t', ht'⟩ := exists_readToken_of_read hp
    obtain ⟨q, hq⟩ := exists_read_of_readToken ht'
    obtain rfl := (fits_of_read hblank hp).unique (fits_of_read hblank hq)
    rw [ht', ← hq, hp]

theorem Fits.readToken_eq_ok (h : Fits p cs) : readToken cs = .ok t ↔ p.read cs = .ok t := by
  rw [readToken_eq_ok_iff h.not_blank]
  constructor
  · rintro ⟨q, hq⟩
    obtain rfl := h.unique (fits_of_read h.not_blank hq)
    exact hq
  · exact fun hp => ⟨p, hp⟩

end

-- ---------------------------------------------------------------------------
-- All fragments of a text
-- ---------------------------------------------------------------------------

def IsRead (cs : List Char) : Prop := ∃ (p : Pattern) (t : Token), p.read cs = .ok t

/-- The fragment is read as a token by the class whose pattern took it, and the token is of that class. -/
def Found.ReadAs (found : Found) (t : Token) : Prop :=
  found.pattern.read found.fragment = .ok t ∧ t.pattern = found.pattern

section
variable {cs : List Char} {text : String}

theorem fits_of_mem_scan {found : Found} (h : found ∈ scan cs) : Fits found.pattern found.fragment :=
  fits_of_mem_scanAfter h

theorem isRead_iff (hblank : ∀ c ∈ cs, isBlank c = false) : IsRead cs ↔ ∃ t, readToken cs = .ok t := by
  simp only [IsRead, readToken_eq_ok_iff hblank]
  exact exists_comm

theorem tokenize_eq_ok_iff_scan {tokens : List Token} :
    tokenize text = .ok tokens ↔ List.Forall₂ Found.ReadAs (scan text.toList) tokens := by
  rw [tokenize_eq_ok, ← map_fragment_scan, List.forall₂_map_left_iff]
  constructor
  · intro h
    have hfits : ∀ found ∈ scan text.toList, Fits found.pattern found.fragment := fun _ => fits_of_mem_scan
    refine ((List.forall₂_and_left _ _).mpr ⟨hfits, h⟩).imp fun found t hread => ?_
    have hclass := hread.1.readToken_eq_ok.mp hread.2
    exact ⟨hclass, pattern_of_read hclass⟩
  · intro h
    have hfits : ∀ found ∈ scan text.toList, Fits found.pattern found.fragment := fun _ => fits_of_mem_scan
    refine ((List.forall₂_and_left _ _).mpr ⟨hfits, h⟩).imp fun found t hread => ?_
    exact hread.1.readToken_eq_ok.mpr hread.2.1

theorem tokenize_eq_error_iff {f : GrammarFault} : tokenize text = .error f ↔
    ∃ before fragment after, fragments text.toList = before ++ fragment :: after ∧
      (∀ cs ∈ before, IsRead cs) ∧ ¬ IsRead fragment ∧ f = .unreadable (String.ofList fragment) := by
  rw [tokenize, mapM_eq_error]
  refine exists_congr fun before => exists_congr fun fragment => exists_congr fun after => ?_
  refine and_congr_right fun hall => ?_
  have hblank : ∀ cs ∈ before ++ fragment :: after, ∀ c ∈ cs, isBlank c = false :=
    fun cs hcs => (shape_of_mem_fragments (hall ▸ hcs)).not_blank
  have hmem : ∀ cs ∈ before, cs ∈ before ++ fragment :: after := fun cs hcs => List.mem_append_left _ hcs
  have hfragment := isRead_iff (hblank fragment (List.mem_append_right _ List.mem_cons_self))
  constructor
  · rintro ⟨hbefore, herror⟩
    split at herror
    · cases herror
    · rename_i hread
      refine ⟨fun cs hcs => ?_, fun hisRead => ?_, (Except.error.inj herror).symm⟩
      · obtain ⟨t, ht⟩ := hbefore cs hcs
        split at ht
        · rename_i hok
          exact (isRead_iff (hblank cs (hmem cs hcs))).mpr ⟨_, hok⟩
        · cases ht
      · obtain ⟨t, ht⟩ := hfragment.mp hisRead
        rw [hread] at ht
        cases ht
  · rintro ⟨hbefore, hnot, rfl⟩
    refine ⟨fun cs hcs => ?_, ?_⟩
    · obtain ⟨t, ht⟩ := (isRead_iff (hblank cs (hmem cs hcs))).mp (hbefore cs hcs)
      exact ⟨t, by rw [ht]⟩
    · cases hread : readToken fragment with
      | ok t => exact absurd (hfragment.mpr ⟨t, hread⟩) hnot
      | error e => rfl

/-- The scanner drops nothing but blanks: the fragments are all the rest of a text, and hold no blank. They
are read by the classes whose patterns took them, or the first that no class reads is named. -/
theorem tokenize_reads_scanned (text : String) :
    (scan text.toList).map Found.fragment = fragments text.toList ∧
    (fragments text.toList).flatten = text.toList.filter (!isBlank ·) ∧
    (∀ fragment ∈ fragments text.toList, ∀ c ∈ fragment, isBlank c = false) ∧
    (∀ tokens, tokenize text = .ok tokens ↔ List.Forall₂ Found.ReadAs (scan text.toList) tokens) ∧
    ∀ f, tokenize text = .error f ↔
      ∃ before fragment after, fragments text.toList = before ++ fragment :: after ∧
        (∀ cs ∈ before, IsRead cs) ∧ ¬ IsRead fragment ∧ f = .unreadable (String.ofList fragment) := by
  have hblank : ∀ fragment ∈ fragments text.toList, ∀ c ∈ fragment, isBlank c = false :=
    fun fragment hfragment => (shape_of_mem_fragments hfragment).not_blank
  exact ⟨map_fragment_scan _, (spaced_fragments _).flatten hblank, hblank, fun _ => tokenize_eq_ok_iff_scan,
    fun _ => tokenize_eq_error_iff⟩

example : scan "3d6 x+r.".toList =
    [⟨.dice, "3d6".toList⟩, ⟨.terse, "x".toList⟩, ⟨.single, "+".toList⟩, ⟨.terse, "r.".toList⟩] := by decide

end

end Notation

end TabletopDice
