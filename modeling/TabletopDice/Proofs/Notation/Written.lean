import Mathlib.Data.List.Induction
import Mathlib.Data.Nat.Digits.Defs
import TabletopDice.Proofs.Notation.Parts

/-!
# Tokens as they are written

What each token looks like in ASCII, said without scanner or readers. Letters
stand in either case. Numbers are the one reason to look at a length: beyond the
longest a text has no value.
-/

namespace TabletopDice.Notation

open Text (IsAscii isBlank sameLetter isAscii_of_isDigit isDigit_ascii digitValue_ascii sameLetter_ascii
  lower_ascii)
open Decimal (isDigit digitsValue digitLimit digitValue? readDigits?)

-- ---------------------------------------------------------------------------
-- Written forms
-- ---------------------------------------------------------------------------

structure IsNumber (ds : List Char) (n : Nat) : Prop where
  ne_nil : ds ≠ []
  all : ∀ c ∈ ds, c.isDigit
  value : Nat.ofDigits 10 (ds.map fun c => c.toNat - '0'.toNat).reverse = n

def OptionalStop (cs : List Char) : Prop := cs = [] ∨ cs = ['.']

inductive TerseForm : Modifier → List Char → Prop
  | explode {c stop} (hc : c.toLower = 'x') (hstop : OptionalStop stop) :
      TerseForm .explode (c :: stop)
  | rerollAtMost {c ds n stop} (hc : c.toLower = 'r') (hn : IsNumber ds n)
      (hstop : OptionalStop stop) : TerseForm (.rerollAtMost n) (c :: (ds ++ stop))
  | keepBest {c ds n stop} (hc : c.toLower = 'k') (hn : IsNumber ds n)
      (hstop : OptionalStop stop) : TerseForm (.keepBest n) (c :: (ds ++ stop))
  | successAtLeast {c ds n stop} (hc : c.toLower = 'm') (hn : IsNumber ds n)
      (hstop : OptionalStop stop) : TerseForm (.successAtLeast n) (c :: (ds ++ stop))

/-- An effect and a limit, where the effect may be left out and the limit without it must. -/
inductive EffectForm : List Char → Effect → Option Nat → Prop
  | none : EffectForm [] .replace none
  | effect {name e} (hname : name.map Char.toLower = e.name.toList) : EffectForm (',' :: name) e none
  | limit {name e ds n} (hname : name.map Char.toLower = e.name.toList) (hn : IsNumber ds n) :
      EffectForm (',' :: (name ++ ',' :: ds)) e (some n)

/-- A value and a label, where the value may be left out and the label without it must. -/
inductive MappedForm : List Char → Int → Option String → Prop
  | none : MappedForm [] 1 none
  | value {mark s ds n} (hmark : SignMark mark s) (hn : IsNumber ds n) :
      MappedForm (',' :: (mark ++ ds)) ((s.getD .plus).factor * n) none
  | label {mark s ds n label} (hmark : SignMark mark s) (hn : IsNumber ds n) (hne : label ≠ [])
      (hlabel : ∀ c ∈ label, c.isAlphanum ∨ c = '_') :
      MappedForm (',' :: (mark ++ (ds ++ ',' :: label))) ((s.getD .plus).factor * n)
        (some (String.ofList label))

inductive ModeForm : List Char → KeepMode → Prop
  | none : ModeForm [] .best
  | mode {name mode} (hname : name.map Char.toLower = mode.name.toList) : ModeForm (',' :: name) mode

inductive VerboseForm : Modifier → List Char → Prop
  | reroll {c mark o ds n tail e limit} (hc : c.toLower = 'r') (hmark : ComparisonMark mark o)
      (hn : IsNumber ds n) (htail : EffectForm tail e limit) :
      VerboseForm (.reroll o n e limit) (c :: ':' :: (mark ++ (ds ++ (tail ++ ['.']))))
  | map {c mark o ds n tail mapped label} (hc : c.toLower = 'm') (hmark : ComparisonMark mark o)
      (hn : IsNumber ds n) (htail : MappedForm tail mapped label) :
      VerboseForm (.map o n mapped label) (c :: ':' :: (mark ++ (ds ++ (tail ++ ['.']))))
  | keep {c ds n tail mode} (hc : c.toLower = 'k') (hn : IsNumber ds n) (htail : ModeForm tail mode) :
      VerboseForm (.keep n mode) (c :: ':' :: (ds ++ (tail ++ ['.'])))

inductive Written : Token → List Char → Prop
  | plus : Written (.sign .plus) ['+']
  | minus : Written (.sign .minus) ['-']
  | constant {ds n} (hn : IsNumber ds n) : Written (.constant n) ds
  | dice {count n c sides s} (hn : IsNumber count n) (hc : c.toLower = 'd') (hs : IsNumber sides s) :
      Written (.dice n s) (count ++ c :: sides)
  | terse {m cs} (h : TerseForm m cs) : Written (.modifier m) cs
  | verbose {m cs} (h : VerboseForm m cs) : Written (.modifier m) cs

-- ---------------------------------------------------------------------------
-- Plain texts
-- ---------------------------------------------------------------------------

/-- Characters of ASCII, and no more digits in a row than a number may have. -/
structure Plain (cs : List Char) : Prop where
  ascii : ∀ c ∈ cs, IsAscii c
  short : ∀ ds, ds <:+: cs → (∀ c ∈ ds, c.isDigit) → ds.length ≤ digitLimit

theorem Plain.mono {cs ds : List Char} (h : Plain cs) (hin : ds <:+: cs) : Plain ds where
  ascii c hc := h.ascii c (hin.subset hc)
  short es hes := h.short es (hes.trans hin)

section
variable {c : Char} {cs ds : List Char}

theorem Plain.cons (h : Plain cs) (hc : IsAscii c) (hdigit : c.isDigit = false) : Plain (c :: cs) where
  ascii := List.forall_mem_cons.mpr ⟨hc, h.ascii⟩
  short ds hin hds := by
    rcases List.infix_cons_iff.mp hin with hprefix | hin
    · cases ds with
      | nil => exact Nat.zero_le _
      | cons d ds =>
        obtain ⟨rfl, -⟩ := List.cons_prefix_cons.mp hprefix
        rw [hds d List.mem_cons_self] at hdigit
        cases hdigit
    · exact h.short ds hin hds

theorem Plain.left (h : Plain (ds ++ cs)) : Plain ds := h.mono (List.prefix_append ds cs).isInfix

theorem Plain.right (h : Plain (ds ++ cs)) : Plain cs := h.mono (List.suffix_append ds cs).isInfix

theorem Plain.tail (h : Plain (c :: cs)) : Plain cs := h.mono (List.suffix_cons c cs).isInfix

theorem Plain.sameLetter (h : Plain (c :: cs)) (letter : Char) :
    sameLetter letter c = (c.toLower == letter) :=
  sameLetter_ascii (h.ascii c List.mem_cons_self)

theorem Plain.sameLetter_of_toLower {letter : Char} (h : Plain (c :: cs)) (hc : c.toLower = letter) :
    Text.sameLetter letter c := by
  rw [h.sameLetter, hc, beq_self_eq_true]

theorem Plain.isVerboseLetter_iff (h : Plain (c :: cs)) :
    isVerboseLetter c ↔ (c.toLower = 'r' ∨ c.toLower = 'm') ∨ c.toLower = 'k' := by
  simp only [isVerboseLetter, h.sameLetter, Bool.or_eq_true, beq_iff_eq]

theorem Plain.isTerseLetter_iff (h : Plain (c :: cs)) :
    isTerseLetter c ↔ c.toLower = 'x' ∨ (c.toLower = 'r' ∨ c.toLower = 'm') ∨ c.toLower = 'k' := by
  simp only [isTerseLetter, h.sameLetter, Bool.or_eq_true, beq_iff_eq, h.isVerboseLetter_iff]

end

theorem digitsValue_eq_ofDigits (ds : List Char) :
    digitsValue ds = Nat.ofDigits 10 (ds.map fun c => (digitValue? c).getD 0).reverse := by
  induction ds using List.reverseRecOn with
  | nil => rfl
  | append_singleton ds c ih =>
    simp only [digitsValue, List.foldl_append, List.foldl_cons, List.foldl_nil] at ih ⊢
    rw [ih]
    simp [Nat.ofDigits_cons, Nat.add_comm]

theorem digitsValue_lt (ds : List Char) : digitsValue ds < 10 ^ ds.length := by
  have hdigit : ∀ c, (digitValue? c).getD 0 < 10 := by
    intro c
    cases hvalue : digitValue? c with
    | none => exact Nat.succ_pos 9
    | some value =>
      obtain ⟨first, hfirst, rfl⟩ := Option.map_eq_some_iff.mp hvalue
      have hrange := List.find?_some hfirst
      simp only [Bool.and_eq_true, decide_eq_true_eq] at hrange
      rw [Option.getD_some]
      omega
  have hvalues : ∀ n ∈ (ds.map fun c => (digitValue? c).getD 0).reverse, n < 10 := by
    simp only [List.mem_reverse, List.forall_mem_map]
    exact fun c _ => hdigit c
  have hlt := Nat.ofDigits_lt_base_pow_length (by decide) hvalues
  rwa [← digitsValue_eq_ofDigits, List.length_reverse, List.length_map] at hlt

theorem digitsValue_eq {ds : List Char} (h : ∀ c ∈ ds, c.isDigit) :
    digitsValue ds = Nat.ofDigits 10 (ds.map fun c => c.toNat - '0'.toNat).reverse := by
  rw [digitsValue_eq_ofDigits]
  congr 2
  exact List.map_congr_left fun c hc => digitValue_ascii (isAscii_of_isDigit (h c hc)) (h c hc)

theorem effect_eq_of_name_toList {e e' : Effect} (h : e.name.toList = e'.name.toList) : e = e' := by
  cases e <;> cases e' <;> first | rfl | exact absurd h (by decide)

section
variable {cs ds : List Char} {n : Nat}

theorem IsNumber.digits (h : IsNumber ds n) : Digits ds where
  ne_nil := h.ne_nil
  all c hc := by
    rw [isDigit_ascii (isAscii_of_isDigit (h.all c hc))]
    exact h.all c hc

theorem IsNumber.exists_digit (h : IsNumber ds n) : ∃ c ∈ ds, isDigit c :=
  ⟨ds.head h.ne_nil, List.head_mem h.ne_nil, h.digits.all _ (List.head_mem h.ne_nil)⟩

theorem IsNumber.number (h : IsNumber ds n) (hds : Plain ds) : number ds = .ok n := by
  have hlen := hds.short ds List.infix_rfl h.all
  rw [Notation.number, readDigits?, if_pos hlen, digitsValue_eq h.all, h.value]

theorem Digits.isNumber (h : Digits ds) (hds : Plain ds) (hn : number ds = .ok n) :
    IsNumber ds n := by
  have hall : ∀ c ∈ ds, c.isDigit := by
    intro c hc
    rw [← isDigit_ascii (hds.ascii c hc)]
    exact h.all c hc
  refine ⟨h.ne_nil, hall, ?_⟩
  have hlen := hds.short ds List.infix_rfl hall
  rw [Notation.number, readDigits?, if_pos hlen, digitsValue_eq hall] at hn
  exact Except.ok.inj hn

theorem signedNumber_eq_ok {s : Option Sign} {v : Int} :
    signedNumber s ds = .ok v ↔ ∃ n, Notation.number ds = .ok n ∧ (s.getD .plus).factor * n = v := by
  simp only [signedNumber, map_ok, bind_ok, pure_ok]
  constructor
  · rintro ⟨_, ⟨n, hn, rfl⟩, rfl⟩
    exact ⟨n, hn, rfl⟩
  · rintro ⟨n, hn, rfl⟩
    exact ⟨_, ⟨n, hn, rfl⟩, rfl⟩

theorem withoutLineEnd_eq (h : ∀ c ∈ cs, isBlank c = false) : withoutLineEnd cs = cs := by
  have hend : cs.getLast? ≠ some '\n' := by
    intro hlast
    have hblank := h _ (List.mem_of_getLast? hlast)
    exact absurd hblank (by decide)
  rw [withoutLineEnd, if_neg hend]

theorem effectNamed_eq_ok {name : List Char} {e : Effect} (hname : ∀ c ∈ name, IsAscii c) :
    effectNamed name = .ok e ↔ name.map Char.toLower = e.name.toList := by
  have hmem : e ∈ Effect.all := by cases e <;> decide
  simp only [effectNamed, Effect.ofValue, Effect.ofValue?, Effect.ofText?, String.toList_ofList,
    lower_ascii hname]
  cases hfind : Effect.all.find? fun e => e.name.toList == name.map Char.toLower with
  | none =>
    have hne := List.find?_eq_none.mp hfind e hmem
    simp only [beq_iff_eq] at hne
    simp [Ne.symm hne]
  | some e' =>
    have he' := List.find?_some hfind
    simp only [beq_iff_eq] at he'
    simp only [Except.ok.injEq, ← he']
    exact ⟨fun h => h ▸ rfl, effect_eq_of_name_toList⟩

theorem keepModeNamed_eq_ok {name : List Char} {mode : KeepMode} (hname : ∀ c ∈ name, IsAscii c)
    (hword : ∃ mode : KeepMode, name.map Char.toLower = mode.name.toList) :
    keepModeNamed name = .ok mode ↔ name.map Char.toLower = mode.name.toList := by
  simp only [keepModeNamed, KeepMode.ofText?, lower_ascii hname]
  obtain ⟨mode', h⟩ := hword
  cases mode' <;> cases mode <;> simp [h, KeepMode.name, List.isPrefixOf]

end

end TabletopDice.Notation
