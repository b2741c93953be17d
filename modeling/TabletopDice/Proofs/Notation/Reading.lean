import TabletopDice.Proofs.Notation.Written

/-!
# Readers of tokens

In plain texts each class of tokens reads exactly what is written in its own
form. No text has two forms, so it makes no difference which class comes first.
-/

namespace TabletopDice.Notation

open Text (IsAscii isBlank sameLetter sameWord sameWord_ascii isLetter_ascii
  isDigit_eq_false isUpper_or_toLower_eq isAlpha_of_isUpper isBlank_of_isAlphanum)
open Decimal (isDigit)

-- ---------------------------------------------------------------------------
-- Reading what is written
-- ---------------------------------------------------------------------------

section
variable {cs : List Char}

theorem readConstant_eq_ok {t : Token} (hcs : Plain cs) (hblank : ∀ c ∈ cs, isBlank c = false) :
    readConstant cs = .ok t ↔ ∃ n, IsNumber cs n ∧ t = .constant n := by
  rw [readConstant, withoutLineEnd_eq hblank]
  constructor
  · intro h
    split at h
    · rename_i ds hsplit
      obtain ⟨hds, -, rfl⟩ := digits?_eq_some.mp hsplit
      rw [List.append_nil] at hcs
      obtain ⟨n, hn, rfl⟩ := map_ok.mp h
      exact ⟨n, by simpa using hds.isNumber hcs hn, rfl⟩
    · cases h
  · rintro ⟨n, hn, rfl⟩
    have hsplit : digits? cs = some (cs, []) :=
      digits?_eq_some.mpr ⟨hn.digits, ends_nil isDigit, by simp⟩
    rw [hsplit]
    exact map_ok.mpr ⟨n, hn.number hcs, rfl⟩

theorem readDice_eq_ok {t : Token} (hcs : Plain cs) (hblank : ∀ c ∈ cs, isBlank c = false) :
    readDice cs = .ok t ↔ ∃ count n c sides s, IsNumber count n ∧ c.toLower = 'd' ∧
      IsNumber sides s ∧ cs = count ++ c :: sides ∧ t = .dice n s := by
  rw [readDice, withoutLineEnd_eq hblank]
  constructor
  · intro h
    split at h
    · rename_i parts hparts
      obtain ⟨c, hc, hcount, hsides, rfl⟩ := DiceParts.ofText?_eq_some.mp hparts
      simp only [bind_ok, pure_ok] at h
      obtain ⟨n, hn, s, hs, rfl⟩ := h
      rw [hcs.right.sameLetter, beq_iff_eq] at hc
      exact ⟨_, n, c, _, s, hcount.isNumber hcs.left hn, hc, hsides.isNumber hcs.right.tail hs, rfl,
        rfl⟩
    · cases h
  · rintro ⟨count, n, c, sides, s, hn, hc, hs, rfl, rfl⟩
    have hletter : sameLetter 'd' c := hcs.right.sameLetter_of_toLower hc
    have hparts : DiceParts.ofText? (count ++ c :: sides) = some ⟨count, sides⟩ :=
      DiceParts.ofText?_eq_some.mpr ⟨c, hletter, hn.digits, hs.digits, rfl⟩
    rw [hparts]
    simp only [bind_ok, pure_ok]
    exact ⟨n, hn.number hcs.left, s, hs.number hcs.right.tail, rfl⟩

theorem IsNumber.terseParts {c : Char} {ds stop : List Char} {n : Nat} (hn : IsNumber ds n)
    (hc : isTerseLetter c) (hstop : OptionalStop stop) :
    TerseParts.ofText? (c :: (ds ++ stop)) = some ⟨c, ds⟩ :=
  TerseParts.ofText?_eq_some.mpr ⟨hc, hn.digits.all, stop, hstop, rfl⟩

theorem readTerse_eq_ok {m : Modifier} (hcs : Plain cs) (hblank : ∀ c ∈ cs, isBlank c = false) :
    readTerse cs = .ok m ↔ TerseForm m cs := by
  rw [readTerse, withoutLineEnd_eq hblank]
  constructor
  · intro h
    split at h
    · rename_i parts hparts
      obtain ⟨letter, ds⟩ := parts
      obtain ⟨hletter, hds, stop, hstop, rfl⟩ := TerseParts.ofText?_eq_some.mp hparts
      rw [hcs.isTerseLetter_iff] at hletter
      simp only [hcs.sameLetter, beq_iff_eq, List.isEmpty_iff] at h
      have hnumber : ∀ n, ds ≠ [] → number ds = .ok n → IsNumber ds n := fun n hne hn =>
        (Digits.mk hne hds).isNumber hcs.tail.left hn
      split at h
      · rename_i hx
        split at h
        · rename_i hnil
          cases h
          subst hnil
          exact .explode hx hstop
        · cases h
      · rename_i hx
        split at h
        · cases h
        · rename_i hne
          split at h
          · rename_i hr
            obtain ⟨n, hn, rfl⟩ := map_ok.mp h
            exact .rerollAtMost hr (hnumber n hne hn) hstop
          · rename_i hr
            split at h
            · rename_i hk
              obtain ⟨n, hn, rfl⟩ := map_ok.mp h
              exact .keepBest hk (hnumber n hne hn) hstop
            · rename_i hk
              obtain ⟨n, hn, rfl⟩ := map_ok.mp h
              exact .successAtLeast (by simpa [hx, hr, hk] using hletter) (hnumber n hne hn) hstop
    · cases h
  · intro h
    cases h with
    | @explode c stop hc hstop =>
      have hterse : isTerseLetter c := hcs.isTerseLetter_iff.mpr (.inl hc)
      have hparts : TerseParts.ofText? (c :: stop) = some ⟨c, []⟩ :=
        TerseParts.ofText?_eq_some.mpr ⟨hterse, by simp, stop, hstop, rfl⟩
      simp [hparts, hcs.sameLetter, hc]
    | @rerollAtMost c ds n stop hc hn hstop =>
      have hterse : isTerseLetter c := hcs.isTerseLetter_iff.mpr (by simp [hc])
      rw [hn.terseParts hterse hstop]
      simp [hcs.sameLetter, hc, hn.ne_nil, hn.number hcs.tail.left, Except.map]
    | @keepBest c ds n stop hc hn hstop =>
      have hterse : isTerseLetter c := hcs.isTerseLetter_iff.mpr (by simp [hc])
      rw [hn.terseParts hterse hstop]
      simp [hcs.sameLetter, hc, hn.ne_nil, hn.number hcs.tail.left, Except.map]
    | @successAtLeast c ds n stop hc hn hstop =>
      have hterse : isTerseLetter c := hcs.isTerseLetter_iff.mpr (by simp [hc])
      rw [hn.terseParts hterse hstop]
      simp [hcs.sameLetter, hc, hn.ne_nil, hn.number hcs.tail.left, Except.map]

-- Names and labels. -----------------------------------------------------------

theorem part_of_word {isPart : Char → Bool} {name word : List Char} (hne : word ≠ [])
    (hupper : ∀ c, c.isUpper → isPart c) (hword : ∀ d ∈ word, isPart d)
    (h : name.map Char.toLower = word) : Part isPart name where
  ne_nil := by
    rintro rfl
    exact hne h.symm
  all c hc := by
    have hlower : isPart c.toLower := hword _ (h ▸ List.mem_map_of_mem hc)
    rcases isUpper_or_toLower_eq c with hc | hc
    · exact hupper c hc
    · rwa [hc] at hlower

theorem isLetter_of_isUpper {c : Char} (h : c.isUpper) : Text.isLetter c := by
  simp [Text.isLetter, isAlpha_of_isUpper h]

theorem part_of_effect {name : List Char} {e : Effect} (h : name.map Char.toLower = e.name.toList) :
    Part isEffectChar name := by
  refine part_of_word ?_ (fun c hc => ?_) (List.all_iff_forall_prop.mp ?_) h
  · cases e <;> decide
  · rw [isEffectChar, isLetter_of_isUpper hc, Bool.true_or]
  · cases e <;> decide

theorem part_of_mode {name : List Char} {mode : KeepMode}
    (h : name.map Char.toLower = mode.name.toList) : Part Text.isLetter name := by
  refine part_of_word ?_ (fun c hc => isLetter_of_isUpper hc) (List.all_iff_forall_prop.mp ?_) h
  · cases mode <;> decide
  · cases mode <;> decide

theorem isLabelChar_iff {c : Char} (hc : IsAscii c) : isLabelChar c ↔ c.isAlphanum ∨ c = '_' := by
  simp [isLabelChar, isLetter_ascii hc, Char.isAlphanum, Char.isDigit]
  rfl

theorem sameWord_mode {name : List Char} (hname : ∀ c ∈ name, IsAscii c) :
    (sameWord "best".toList name ∨ sameWord "worst".toList name) ↔
      ∃ mode : KeepMode, name.map Char.toLower = mode.name.toList := by
  simp only [sameWord_ascii hname, beq_iff_eq]
  constructor
  · rintro (h | h)
    · exact ⟨.best, h⟩
    · exact ⟨.worst, h⟩
  · rintro ⟨_ | _, h⟩
    · exact .inl h
    · exact .inr h

-- Modifiers in words. ---------------------------------------------------------

theorem readReroll_eq_ok {m : Modifier} (hcs : Plain cs) (hblank : ∀ c ∈ cs, isBlank c = false) :
    readReroll cs = .ok m ↔ ∃ c mark o ds n tail e limit, c.toLower = 'r' ∧ ComparisonMark mark o ∧
      IsNumber ds n ∧ EffectForm tail e limit ∧ cs = c :: ':' :: (mark ++ (ds ++ (tail ++ ['.']))) ∧
        m = .reroll o n e limit := by
  rw [readReroll, withoutLineEnd_eq hblank]
  constructor
  · intro h
    split at h
    · rename_i parts hparts
      obtain ⟨o, value, effect, limit⟩ := parts
      obtain ⟨c, mark, tail, hc, hmark, hvalue, htail, rfl⟩ := RerollParts.ofText?_eq_some.mp hparts
      rw [hcs.sameLetter, beq_iff_eq] at hc
      have hrest := hcs.tail.tail.right
      rw [bind_ok] at h
      obtain ⟨n, hn, h⟩ := h
      have hnumber := hvalue.isNumber hrest.left hn
      cases htail with
      | bare =>
        cases h
        exact ⟨c, mark, o, value, n, [], _, _, hc, hmark, hnumber, .none, rfl, rfl⟩
      | @effect name hname =>
        obtain ⟨e, he, h⟩ := bind_ok.mp h
        cases h
        rw [effectNamed_eq_ok hrest.right.left.tail.ascii] at he
        exact ⟨c, mark, o, value, n, _, _, _, hc, hmark, hnumber, .effect he, rfl, rfl⟩
      | @limit name ds hname hds =>
        obtain ⟨e, he, h⟩ := bind_ok.mp h
        obtain ⟨limit, hlimit, h⟩ := bind_ok.mp h
        obtain ⟨k, hk, rfl⟩ := map_ok.mp hlimit
        cases h
        rw [effectNamed_eq_ok hrest.right.left.tail.left.ascii] at he
        have hk' := hds.isNumber hrest.right.left.tail.right.tail hk
        exact ⟨c, mark, o, value, n, _, _, _, hc, hmark, hnumber, .limit he hk', rfl, rfl⟩
    · cases h
  · rintro ⟨c, mark, o, ds, n, tail, e, limit, hc, hmark, hn, htail, rfl, rfl⟩
    have hletter : sameLetter 'r' c := hcs.sameLetter_of_toLower hc
    have hrest := hcs.tail.tail.right
    have hvalue := hn.number hrest.left
    cases htail with
    | none =>
      have hparts := RerollParts.ofText?_eq_some (p := ⟨o, ds, none, none⟩) |>.mpr
        ⟨c, mark, [], hletter, hmark, hn.digits, .bare, rfl⟩
      rw [hparts]
      simp only [bind_ok, pure_ok]
      exact ⟨n, hvalue, _, rfl, _, rfl, rfl⟩
    | @effect name e hname =>
      have hascii := hrest.right.left.tail.ascii
      have hparts := RerollParts.ofText?_eq_some (p := ⟨o, ds, some name, none⟩) |>.mpr
        ⟨c, mark, _, hletter, hmark, hn.digits, .effect (part_of_effect hname), rfl⟩
      rw [hparts]
      simp only [bind_ok, pure_ok]
      exact ⟨n, hvalue, e, (effectNamed_eq_ok hascii).mpr hname, _, rfl, rfl⟩
    | @limit name e ks k hname hk =>
      have hascii := hrest.right.left.tail.left.ascii
      have hlimit := hk.number hrest.right.left.tail.right.tail
      have hparts := RerollParts.ofText?_eq_some (p := ⟨o, ds, some name, some ks⟩) |>.mpr
        ⟨c, mark, _, hletter, hmark, hn.digits, .limit (part_of_effect hname) hk.digits, rfl⟩
      rw [hparts]
      simp only [bind_ok, pure_ok, map_ok]
      exact ⟨n, hvalue, e, (effectNamed_eq_ok hascii).mpr hname, _, ⟨k, hlimit, rfl⟩, rfl⟩

theorem part_of_label {label : List Char} (hascii : ∀ c ∈ label, IsAscii c) :
    Part isLabelChar label ↔ label ≠ [] ∧ ∀ c ∈ label, c.isAlphanum ∨ c = '_' := by
  constructor
  · intro h
    exact ⟨h.ne_nil, fun c hc => (isLabelChar_iff (hascii c hc)).mp (h.all c hc)⟩
  · rintro ⟨hne, hall⟩
    exact ⟨hne, fun c hc => (isLabelChar_iff (hascii c hc)).mpr (hall c hc)⟩

theorem readMap_eq_ok {m : Modifier} (hcs : Plain cs) (hblank : ∀ c ∈ cs, isBlank c = false) :
    readMap cs = .ok m ↔ ∃ c mark o ds n tail mapped label, c.toLower = 'm' ∧
      ComparisonMark mark o ∧ IsNumber ds n ∧ MappedForm tail mapped label ∧
        cs = c :: ':' :: (mark ++ (ds ++ (tail ++ ['.']))) ∧ m = .map o n mapped label := by
  rw [readMap, withoutLineEnd_eq hblank]
  constructor
  · intro h
    split at h
    · rename_i parts hparts
      obtain ⟨o, value, mapped, label⟩ := parts
      obtain ⟨c, mark, tail, hc, hmark, hvalue, htail, rfl⟩ := MapParts.ofText?_eq_some.mp hparts
      rw [hcs.sameLetter, beq_iff_eq] at hc
      have hrest := hcs.tail.tail.right
      obtain ⟨n, hn, h⟩ := bind_ok.mp h
      have hnumber := hvalue.isNumber hrest.left hn
      cases htail with
      | bare =>
        cases h
        exact ⟨c, mark, o, value, n, [], _, _, hc, hmark, hnumber, .none, rfl, rfl⟩
      | @value smark s ks hsmark hks =>
        obtain ⟨mapped, hmapped, h⟩ := bind_ok.mp h
        obtain ⟨k, hk, rfl⟩ := signedNumber_eq_ok.mp hmapped
        cases h
        have hk' := hks.isNumber hrest.right.left.tail.right hk
        exact ⟨c, mark, o, value, n, _, _, _, hc, hmark, hnumber, .value hsmark hk', rfl, rfl⟩
      | @label smark s ks label hsmark hks hlabel =>
        obtain ⟨mapped, hmapped, h⟩ := bind_ok.mp h
        obtain ⟨k, hk, rfl⟩ := signedNumber_eq_ok.mp hmapped
        cases h
        have hk' := hks.isNumber hrest.right.left.tail.right.left hk
        obtain ⟨hne, hall⟩ := (part_of_label hrest.right.left.tail.right.right.tail.ascii).mp hlabel
        exact ⟨c, mark, o, value, n, _, _, _, hc, hmark, hnumber, .label hsmark hk' hne hall, rfl, rfl⟩
    · cases h
  · rintro ⟨c, mark, o, ds, n, tail, mapped, label, hc, hmark, hn, htail, rfl, rfl⟩
    have hletter : sameLetter 'm' c := hcs.sameLetter_of_toLower hc
    have hrest := hcs.tail.tail.right
    have hvalue := hn.number hrest.left
    cases htail with
    | none =>
      have hparts := MapParts.ofText?_eq_some (p := ⟨o, ds, none, none⟩) |>.mpr
        ⟨c, mark, [], hletter, hmark, hn.digits, .bare, rfl⟩
      rw [hparts]
      simp only [bind_ok, pure_ok]
      exact ⟨n, hvalue, _, rfl, rfl⟩
    | @value smark s ks k hsmark hk =>
      have hmapped := hk.number hrest.right.left.tail.right
      have hparts := MapParts.ofText?_eq_some (p := ⟨o, ds, some (s, ks), none⟩) |>.mpr
        ⟨c, mark, _, hletter, hmark, hn.digits, .value hsmark hk.digits, rfl⟩
      rw [hparts]
      simp only [bind_ok, pure_ok, signedNumber_eq_ok]
      exact ⟨n, hvalue, _, ⟨k, hmapped, rfl⟩, rfl⟩
    | @label smark s ks k label hsmark hk hne hall =>
      have hmapped := hk.number hrest.right.left.tail.right.left
      have hlabel := (part_of_label hrest.right.left.tail.right.right.tail.ascii).mpr ⟨hne, hall⟩
      have hparts := MapParts.ofText?_eq_some (p := ⟨o, ds, some (s, ks), some label⟩) |>.mpr
        ⟨c, mark, _, hletter, hmark, hn.digits, .label hsmark hk.digits hlabel, rfl⟩
      rw [hparts]
      simp only [bind_ok, pure_ok, signedNumber_eq_ok]
      exact ⟨n, hvalue, _, ⟨k, hmapped, rfl⟩, rfl⟩

theorem readKeep_eq_ok {m : Modifier} (hcs : Plain cs) (hblank : ∀ c ∈ cs, isBlank c = false) :
    readKeep cs = .ok m ↔ ∃ c ds n tail mode, c.toLower = 'k' ∧ IsNumber ds n ∧ ModeForm tail mode ∧
      cs = c :: ':' :: (ds ++ (tail ++ ['.'])) ∧ m = .keep n mode := by
  rw [readKeep, withoutLineEnd_eq hblank]
  constructor
  · intro h
    split at h
    · rename_i parts hparts
      obtain ⟨count, mode⟩ := parts
      obtain ⟨c, tail, hc, hcount, htail, rfl⟩ := KeepParts.ofText?_eq_some.mp hparts
      rw [hcs.sameLetter, beq_iff_eq] at hc
      have hrest := hcs.tail.tail
      obtain ⟨n, hn, h⟩ := bind_ok.mp h
      have hnumber := hcount.isNumber hrest.left hn
      cases htail with
      | bare =>
        cases h
        exact ⟨c, count, n, [], _, hc, hnumber, .none, rfl, rfl⟩
      | @mode name hname hword =>
        obtain ⟨mode, hmode, h⟩ := bind_ok.mp h
        cases h
        have hascii := hrest.right.left.tail.ascii
        rw [keepModeNamed_eq_ok hascii ((sameWord_mode hascii).mp hword)] at hmode
        exact ⟨c, count, n, _, _, hc, hnumber, .mode hmode, rfl, rfl⟩
    · cases h
  · rintro ⟨c, ds, n, tail, mode, hc, hn, htail, rfl, rfl⟩
    have hletter : sameLetter 'k' c := hcs.sameLetter_of_toLower hc
    have hrest := hcs.tail.tail
    have hcount := hn.number hrest.left
    cases htail with
    | none =>
      have hparts := KeepParts.ofText?_eq_some (p := ⟨ds, none⟩) |>.mpr
        ⟨c, [], hletter, hn.digits, .bare, rfl⟩
      rw [hparts]
      simp only [bind_ok, pure_ok]
      exact ⟨n, hcount, _, rfl, rfl⟩
    | @mode name mode hname =>
      have hascii := hrest.right.left.tail.ascii
      have hmode := (keepModeNamed_eq_ok hascii ⟨mode, hname⟩).mpr hname
      have hparts := KeepParts.ofText?_eq_some (p := ⟨ds, some name⟩) |>.mpr ⟨c, _, hletter, hn.digits,
        .mode (part_of_mode hname) ((sameWord_mode hascii).mpr ⟨mode, hname⟩), rfl⟩
      rw [hparts]
      simp only [bind_ok, pure_ok]
      exact ⟨n, hcount, mode, hmode, rfl⟩

-- ---------------------------------------------------------------------------
-- Shapes of what is written
-- ---------------------------------------------------------------------------

theorem ComparisonMark.body {mark : List Char} {o : Comparison} (h : ComparisonMark mark o) :
    ∀ d ∈ mark, isVerboseBody d :=
  List.all_iff_forall_prop.mp (by cases h <;> decide)

theorem SignMark.body {mark : List Char} {s : Option Sign} (h : SignMark mark s) :
    ∀ d ∈ mark, isVerboseBody d :=
  List.all_iff_forall_prop.mp (by cases h <;> decide)

theorem IsNumber.body {ds : List Char} {n : Nat} (h : IsNumber ds n) : ∀ d ∈ ds, isVerboseBody d := by
  intro d hd
  have hdigit := h.digits.all d hd
  have hstop : d ≠ '.' := ne_of_isDigit hdigit not_isDigit_stop
  simp [isVerboseBody, isBlank_of_isDigit hdigit, hstop]

theorem isVerboseBody_of_isLabelChar {c : Char} (hc : IsAscii c) (h : isLabelChar c) :
    isVerboseBody c := by
  rcases (isLabelChar_iff hc).mp h with h | rfl
  · have hstop : c ≠ '.' := by
      rintro rfl
      cases h
    simp [isVerboseBody, isBlank_of_isAlphanum h, hstop]
  · decide

theorem Part.body {isPart : Char → Bool} {part : List Char} (h : Part isPart part)
    (hascii : ∀ c ∈ part, IsAscii c) (hlabel : ∀ c, isPart c → isLabelChar c) :
    ∀ d ∈ part, isVerboseBody d := fun d hd =>
  isVerboseBody_of_isLabelChar (hascii d hd) (hlabel d (h.all d hd))

theorem isVerboseBody_comma : isVerboseBody ',' := by decide

theorem EffectForm.body {tail : List Char} {e : Effect} {limit : Option Nat}
    (h : EffectForm tail e limit) (hplain : Plain tail) : ∀ d ∈ tail, isVerboseBody d := by
  have hchars : ∀ c, isEffectChar c → isLabelChar c := by
    intro c hc
    simp only [isEffectChar, Bool.or_eq_true] at hc
    rcases hc with hc | hc <;> simp [isLabelChar, hc]
  cases h with
  | none => simp
  | effect hname =>
    have hascii := hplain.tail.ascii
    have hbody := (part_of_effect hname).body hascii hchars
    exact List.forall_mem_cons.mpr ⟨isVerboseBody_comma, hbody⟩
  | limit hname hn =>
    have hascii := hplain.tail.left.ascii
    have hbody := (part_of_effect hname).body hascii hchars
    simp only [List.forall_mem_cons, List.forall_mem_append]
    exact ⟨isVerboseBody_comma, hbody, isVerboseBody_comma, hn.body⟩

theorem MappedForm.body {tail : List Char} {mapped : Int} {label : Option String}
    (h : MappedForm tail mapped label) (hplain : Plain tail) : ∀ d ∈ tail, isVerboseBody d := by
  cases h with
  | none => simp
  | value hmark hn =>
    simp only [List.forall_mem_cons, List.forall_mem_append]
    exact ⟨isVerboseBody_comma, hmark.body, hn.body⟩
  | label hmark hn hne hlabel =>
    have hascii := hplain.tail.right.right.tail.ascii
    have hbody := ((part_of_label hascii).mpr ⟨hne, hlabel⟩).body hascii fun _ hc => hc
    simp only [List.forall_mem_cons, List.forall_mem_append]
    exact ⟨isVerboseBody_comma, hmark.body, hn.body, isVerboseBody_comma, hbody⟩

theorem ModeForm.body {tail : List Char} {mode : KeepMode} (h : ModeForm tail mode)
    (hplain : Plain tail) : ∀ d ∈ tail, isVerboseBody d := by
  have hchars : ∀ c, Text.isLetter c → isLabelChar c := by
    intro c hc
    rw [isLabelChar, hc, Bool.true_or, Bool.true_or]
  cases h with
  | none => simp
  | mode hname =>
    have hascii := hplain.tail.ascii
    have hbody := (part_of_mode hname).body hascii hchars
    exact List.forall_mem_cons.mpr ⟨isVerboseBody_comma, hbody⟩

theorem VerboseForm.split {m : Modifier} {cs : List Char} (h : VerboseForm m cs) (hcs : Plain cs) :
    ∃ c body, isVerboseLetter c ∧ (∀ d ∈ body, isVerboseBody d) ∧ cs = c :: ':' :: (body ++ ['.']) := by
  cases h with
  | @reroll c mark o ds n tail e limit hc hmark hn htail =>
    have hletter : isVerboseLetter c := hcs.isVerboseLetter_iff.mpr (by simp [hc])
    have hbody := htail.body hcs.tail.tail.right.right.left
    refine ⟨c, mark ++ (ds ++ tail), hletter, ?_, by simp⟩
    simp only [List.forall_mem_append]
    exact ⟨hmark.body, hn.body, hbody⟩
  | @map c mark o ds n tail mapped label hc hmark hn htail =>
    have hletter : isVerboseLetter c := hcs.isVerboseLetter_iff.mpr (by simp [hc])
    have hbody := htail.body hcs.tail.tail.right.right.left
    refine ⟨c, mark ++ (ds ++ tail), hletter, ?_, by simp⟩
    simp only [List.forall_mem_append]
    exact ⟨hmark.body, hn.body, hbody⟩
  | @keep c ds n tail mode hc hn htail =>
    have hletter : isVerboseLetter c := hcs.isVerboseLetter_iff.mpr (by simp [hc])
    have hbody := htail.body hcs.tail.tail.right.left
    refine ⟨c, ds ++ tail, hletter, ?_, by simp⟩
    simp only [List.forall_mem_append]
    exact ⟨hn.body, hbody⟩

theorem TerseForm.split {m : Modifier} {cs : List Char} (h : TerseForm m cs) (hcs : Plain cs) :
    ∃ c ds stop, isTerseLetter c ∧ (∀ d ∈ ds, isDigit d) ∧ OptionalStop stop ∧
      cs = c :: (ds ++ stop) := by
  cases h with
  | @explode c stop hc hstop =>
    exact ⟨c, [], stop, hcs.isTerseLetter_iff.mpr (.inl hc), by simp, hstop, rfl⟩
  | @rerollAtMost c ds n stop hc hn hstop
  | @keepBest c ds n stop hc hn hstop
  | @successAtLeast c ds n stop hc hn hstop =>
    have hterse : isTerseLetter c := hcs.isTerseLetter_iff.mpr (by simp [hc])
    exact ⟨c, ds, stop, hterse, hn.digits.all, hstop, rfl⟩

theorem Written.shape {t : Token} {cs : List Char} (h : Written t cs) (hcs : Plain cs) : Shape cs := by
  cases h with
  | plus => exact ⟨_, .single (by decide) (by decide) (isDigit_eq_false (by decide))⟩
  | minus => exact ⟨_, .single (by decide) (by decide) (isDigit_eq_false (by decide))⟩
  | constant hn => exact ⟨_, .number hn.digits⟩
  | @dice count n c sides s hn hc hs =>
    have hletter : sameLetter 'd' c := hcs.right.sameLetter_of_toLower hc
    exact ⟨_, .dice hn.digits hletter hs.digits⟩
  | terse h =>
    obtain ⟨c, ds, stop, hc, hds, hstop, rfl⟩ := h.split hcs
    exact ⟨_, .terse hc hds hstop⟩
  | verbose h =>
    obtain ⟨c, body, hc, hbody, rfl⟩ := h.split hcs
    exact ⟨_, .verbose hc hbody⟩

-- ---------------------------------------------------------------------------
-- One class for each text
-- ---------------------------------------------------------------------------

theorem readVerbose_eq_ok {m : Modifier} (hcs : Plain cs) (hblank : ∀ c ∈ cs, isBlank c = false) :
    readVerbose cs = .ok m ↔ VerboseForm m cs := by
  constructor
  · intro h
    unfold readVerbose at h
    split at h
    · cases h
    · split at h
      · split at h
        · obtain ⟨c, mark, o, ds, n, tail, e, limit, hc, hmark, hn, htail, heq, rfl⟩ :=
            (readReroll_eq_ok hcs hblank).mp h
          rw [heq]
          exact .reroll hc hmark hn htail
        · split at h
          · obtain ⟨c, mark, o, ds, n, tail, mapped, label, hc, hmark, hn, htail, heq, rfl⟩ :=
              (readMap_eq_ok hcs hblank).mp h
            rw [heq]
            exact .map hc hmark hn htail
          · obtain ⟨c, ds, n, tail, mode, hc, hn, htail, heq, rfl⟩ :=
              (readKeep_eq_ok hcs hblank).mp h
            rw [heq]
            exact .keep hc hn htail
      · cases h
  · intro h
    have hlength : verboseLength? cs = some cs.length := by
      obtain ⟨c, body, hc, hbody, rfl⟩ := h.split hcs
      rw [verboseLength?_eq hc hbody]
      simp
    cases h with
    | reroll hc hmark hn htail =>
      have hread := (readReroll_eq_ok hcs hblank).mpr ⟨_, _, _, _, _, _, _, _, hc, hmark, hn, htail, rfl, rfl⟩
      rw [readVerbose, withoutLineEnd_eq hblank, if_pos hlength, hcs.sameLetter, hc]
      exact hread
    | map hc hmark hn htail =>
      have hread := (readMap_eq_ok hcs hblank).mpr ⟨_, _, _, _, _, _, _, _, hc, hmark, hn, htail, rfl, rfl⟩
      rw [readVerbose, withoutLineEnd_eq hblank, if_pos hlength, hcs.sameLetter, hcs.sameLetter, hc]
      exact hread
    | keep hc hn htail =>
      have hread := (readKeep_eq_ok hcs hblank).mpr ⟨_, _, _, _, _, hc, hn, htail, rfl, rfl⟩
      rw [readVerbose, withoutLineEnd_eq hblank, if_pos hlength, hcs.sameLetter, hcs.sameLetter, hc]
      exact hread

section
variable {m : Modifier} {t : Token}

theorem TerseForm.head (h : TerseForm m cs) (hcs : Plain cs) :
    ∃ c rest, isTerseLetter c ∧ isDigit c = false ∧ cs = c :: rest := by
  obtain ⟨c, ds, stop, hc, -, -, rfl⟩ := h.split hcs
  exact ⟨c, _, hc, (apart_of_isTerseLetter hc).digit, rfl⟩

theorem VerboseForm.head (h : VerboseForm m cs) (hcs : Plain cs) :
    ∃ c rest, isTerseLetter c ∧ isDigit c = false ∧ cs = c :: rest := by
  obtain ⟨c, body, hc, -, rfl⟩ := h.split hcs
  have hterse := isTerseLetter_of_isVerboseLetter hc
  exact ⟨c, _, hterse, (apart_of_isTerseLetter hterse).digit, rfl⟩

theorem not_sign (h : ∃ c ∈ cs, isDigit c ∨ isTerseLetter c) : cs ≠ ['+'] ∧ cs ≠ ['-'] := by
  obtain ⟨c, hc, hclass⟩ := h
  constructor
  · rintro rfl
    rw [List.mem_singleton.mp hc] at hclass
    rw [isDigit_eq_false (by decide)] at hclass
    exact absurd hclass (by decide)
  · rintro rfl
    rw [List.mem_singleton.mp hc] at hclass
    rw [isDigit_eq_false (by decide)] at hclass
    exact absurd hclass (by decide)

theorem readConstant_ne_ok (hcs : Plain cs) (hblank : ∀ c ∈ cs, isBlank c = false)
    (hdigit : ∃ c ∈ cs, isDigit c = false) : readConstant cs ≠ .ok t := by
  intro h
  obtain ⟨n, hn, -⟩ := (readConstant_eq_ok hcs hblank).mp h
  obtain ⟨c, hc, hdigit⟩ := hdigit
  rw [hn.digits.all c hc] at hdigit
  cases hdigit

theorem readDice_ne_ok (hcs : Plain cs) (hblank : ∀ c ∈ cs, isBlank c = false)
    (hhead : ∃ c rest, isDigit c = false ∧ cs = c :: rest) : readDice cs ≠ .ok t := by
  intro h
  obtain ⟨count, n, c, sides, s, hn, hc, hs, heq, -⟩ := (readDice_eq_ok hcs hblank).mp h
  obtain ⟨d, count, rfl⟩ := List.exists_cons_of_ne_nil hn.ne_nil
  obtain ⟨c', rest, hdigit, rfl⟩ := hhead
  obtain rfl : c' = d := List.head_eq_of_cons_eq heq
  rw [hn.digits.all c' List.mem_cons_self] at hdigit
  cases hdigit

/-- What begins with the letter of a modifier is neither sign nor number nor dice. -/
theorem not_term_of_head (hcs : Plain cs) (hblank : ∀ c ∈ cs, isBlank c = false)
    (hhead : ∃ c rest, isTerseLetter c ∧ isDigit c = false ∧ cs = c :: rest) :
    cs ≠ ['+'] ∧ cs ≠ ['-'] ∧ (readConstant cs).toOption = none ∧ (readDice cs).toOption = none := by
  obtain ⟨c, rest, hc, hdigit, heq⟩ := hhead
  have hmem : c ∈ cs := heq ▸ List.mem_cons_self
  obtain ⟨hplus, hminus⟩ := not_sign ⟨c, hmem, .inr hc⟩
  refine ⟨hplus, hminus, toOption_of_not_ok fun t => ?_, toOption_of_not_ok fun t => ?_⟩
  · exact readConstant_ne_ok hcs hblank ⟨c, hmem, hdigit⟩
  · exact readDice_ne_ok hcs hblank ⟨c, rest, hdigit, heq⟩

theorem VerboseForm.not_terse {m' : Modifier} (h : VerboseForm m cs) (hcs : Plain cs) :
    ¬ TerseForm m' cs := by
  intro h'
  obtain ⟨c, body, -, -, heq⟩ := h.split hcs
  obtain ⟨c', ds, stop, -, hds, hstop, rfl⟩ := h'.split hcs
  have hmem : ':' ∈ ds ++ stop := by
    rw [(List.cons.inj heq).2]
    exact List.mem_cons_self
  rcases List.mem_append.mp hmem with hmem | hmem
  · have hcolon := hds ':' hmem
    rw [isDigit_eq_false (by decide)] at hcolon
    cases hcolon
  · rcases hstop with rfl | rfl
    · cases hmem
    · exact absurd hmem (by decide)

/-- In plain texts a token is read just where it is written. -/
theorem readToken_eq_ok (hcs : Plain cs) (hblank : ∀ c ∈ cs, isBlank c = false) :
    readToken cs = .ok t ↔ Written t cs := by
  constructor
  · intro h
    cases readBy_of_readToken h with
    | plus => exact .plus
    | minus => exact .minus
    | constant hread =>
      obtain ⟨n, hn, rfl⟩ := (readConstant_eq_ok hcs hblank).mp hread
      exact .constant hn
    | dice hread =>
      obtain ⟨count, n, c, sides, s, hn, hc, hs, rfl, rfl⟩ := (readDice_eq_ok hcs hblank).mp hread
      exact .dice hn hc hs
    | terse hread => exact .terse ((readTerse_eq_ok hcs hblank).mp hread)
    | verbose hread => exact .verbose ((readVerbose_eq_ok hcs hblank).mp hread)
  · intro h
    cases h with
    | plus => rfl
    | minus => rfl
    | constant hn =>
      obtain ⟨d, hd, hdigit⟩ := hn.exists_digit
      obtain ⟨hplus, hminus⟩ := not_sign ⟨d, hd, .inl hdigit⟩
      have hread := toOption_of_ok ((readConstant_eq_ok hcs hblank).mpr ⟨_, hn, rfl⟩)
      simp only [readToken, if_neg hplus, if_neg hminus, classReaders, List.findSome?, hread]
    | @dice count n c sides s hn hc hs =>
      have hletter : sameLetter 'd' c := hcs.right.sameLetter_of_toLower hc
      have hmem : c ∈ count ++ c :: sides := by simp
      obtain ⟨d, hd, hdigit⟩ := hn.exists_digit
      have hd' : d ∈ count ++ c :: sides := List.mem_append_left _ hd
      obtain ⟨hplus, hminus⟩ := not_sign ⟨d, hd', .inl hdigit⟩
      have hconstant := toOption_of_not_ok fun t =>
        readConstant_ne_ok (t := t) hcs hblank ⟨c, hmem, (apart_of_sameLetter (by decide) hletter).digit⟩
      have hread := toOption_of_ok
        ((readDice_eq_ok hcs hblank).mpr ⟨_, _, _, _, _, hn, hc, hs, rfl, rfl⟩)
      simp only [readToken, if_neg hplus, if_neg hminus, classReaders, List.findSome?, hconstant, hread]
    | @terse m cs h =>
      obtain ⟨hplus, hminus, hconstant, hdice⟩ := not_term_of_head hcs hblank (h.head hcs)
      have hread : ((readTerse cs).map Token.modifier).toOption = some (.modifier m) :=
        toOption_of_ok (map_ok.mpr ⟨m, (readTerse_eq_ok hcs hblank).mpr h, rfl⟩)
      simp only [readToken, if_neg hplus, if_neg hminus, classReaders, List.findSome?, hconstant, hdice,
        hread]
    | @verbose m cs h =>
      obtain ⟨hplus, hminus, hconstant, hdice⟩ := not_term_of_head hcs hblank (h.head hcs)
      have hterse : ((readTerse cs).map Token.modifier).toOption = none := by
        refine toOption_of_not_ok fun t ht => ?_
        obtain ⟨m', hm', -⟩ := map_ok.mp ht
        exact h.not_terse hcs ((readTerse_eq_ok hcs hblank).mp hm')
      have hread : ((readVerbose cs).map Token.modifier).toOption = some (.modifier m) :=
        toOption_of_ok (map_ok.mpr ⟨m, (readVerbose_eq_ok hcs hblank).mpr h, rfl⟩)
      simp only [readToken, if_neg hplus, if_neg hminus, classReaders, List.findSome?, hconstant, hdice,
        hterse, hread]

end

end

end TabletopDice.Notation
