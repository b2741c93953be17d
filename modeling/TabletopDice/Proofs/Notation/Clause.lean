import TabletopDice.Proofs.Notation.Sentence
import TabletopDice.Proofs.Notation.Written
import TabletopDice.Rule.Map

/-!
# What modifiers say

A modifier read as a clause on the dice before it: which faces or totals it is
about, and what happens then. The clause is read off the characters, with the
die on the left of a comparison, as it is written; the rules that are made of it
have the die on the right.
-/

namespace TabletopDice.Notation

open Text (isBlank sameLetter)
open Decimal (isDigit digitsValue digitValue? readDigits?)

-- ---------------------------------------------------------------------------
-- Clauses
-- ---------------------------------------------------------------------------

structure Numeral (ds : List Char) (n : Nat) : Prop where
  digits : Digits ds
  value : Nat.ofDigits 10 (ds.map fun c => (digitValue? c).getD 0).reverse = n

/-- A comparison and what it says of a value and a number, in this order. -/
inductive Says : List Char → (Int → Int → Prop) → Prop
  | bare : Says [] (· = ·)
  | eq : Says ['=', '='] (· = ·)
  | ge : Says ['>', '='] (· ≥ ·)
  | gt : Says ['>'] (· > ·)
  | le : Says ['<', '='] (· ≤ ·)
  | lt : Says ['<'] (· < ·)

structure RerollClause where
  fires : Int → Prop
  effect : Effect
  limit : Option Nat

structure MapClause where
  fires : Int → Prop
  mapped : Mapped

inductive Clause where
  | reroll (c : RerollClause)
  | map (c : MapClause)
  /-- Which dice count makes no rule. -/
  | keep

namespace Clause

def reroll? : Clause → Option RerollClause
  | reroll c => some c
  | _ => none

def map? : Clause → Option MapClause
  | map c => some c
  | _ => none

end Clause

/-- An effect and a limit after the number; a roll replaces the last one unless it says otherwise. -/
inductive RerollWords : List Char → Effect → Option Nat → Prop
  | bare : RerollWords [] .replace none
  | effect {name e} (hname : Part isEffectChar name) (he : Text.lower name = e.name.toList) :
      RerollWords (',' :: name) e none
  | limit {name e ds n} (hname : Part isEffectChar name) (he : Text.lower name = e.name.toList)
      (hn : Numeral ds n) : RerollWords (',' :: (name ++ ',' :: ds)) e (some n)

/-- A value with its sign and a label after the number; a total counts as one unless it says
otherwise. -/
inductive MapWords : List Char → Mapped → Prop
  | bare : MapWords [] ⟨1, ""⟩
  | value {mark s ds n} (hmark : SignMark mark s) (hn : Numeral ds n) :
      MapWords (',' :: (mark ++ ds)) ⟨(s.getD .plus).factor * n, ""⟩
  | label {mark s ds n label} (hmark : SignMark mark s) (hn : Numeral ds n)
      (hlabel : Part isLabelChar label) :
      MapWords (',' :: (mark ++ (ds ++ ',' :: label))) ⟨(s.getD .plus).factor * n, String.ofList label⟩

/-- What a modifier says of dice of so many sides. -/
inductive Reads (sides : Nat) : List Char → Clause → Prop
  | explode {c stop} (hc : sameLetter 'x' c) (hstop : OptionalStop stop) :
      Reads sides (c :: stop) (.reroll ⟨(· = sides), .add, none⟩)
  | rerollAtMost {c ds n stop} (hc : sameLetter 'r' c) (hn : Numeral ds n) (hstop : OptionalStop stop) :
      Reads sides (c :: (ds ++ stop)) (.reroll ⟨(· ≤ n), .replace, some 1⟩)
  | successAtLeast {c ds n stop} (hc : sameLetter 'm' c) (hn : Numeral ds n)
      (hstop : OptionalStop stop) : Reads sides (c :: (ds ++ stop)) (.map ⟨(· ≥ n), ⟨1, ""⟩⟩)
  | reroll {c mark op ds n words e limit} (hc : sameLetter 'r' c) (hmark : Says mark op)
      (hn : Numeral ds n) (hwords : RerollWords words e limit) :
      Reads sides (c :: ':' :: (mark ++ (ds ++ (words ++ ['.'])))) (.reroll ⟨(op · n), e, limit⟩)
  | map {c mark op ds n words mapped} (hc : sameLetter 'm' c) (hmark : Says mark op)
      (hn : Numeral ds n) (hwords : MapWords words mapped) :
      Reads sides (c :: ':' :: (mark ++ (ds ++ (words ++ ['.'])))) (.map ⟨(op · n), mapped⟩)
  | keep {c rest} (hc : sameLetter 'k' c) : Reads sides (c :: rest) .keep

-- ---------------------------------------------------------------------------
-- Parts of a clause
-- ---------------------------------------------------------------------------

section
variable {cs ds mark tail : List Char} {n : Nat}

theorem Digits.numeral (h : Digits ds) (hn : number ds = .ok n) : Numeral ds n := by
  refine ⟨h, ?_⟩
  unfold number readDigits? at hn
  split at hn
  · rename_i value hvalue
    obtain ⟨-, hvalue⟩ := Option.ite_none_right_eq_some.mp hvalue
    rw [← digitsValue_eq_ofDigits, Option.some.inj hvalue]
    exact Except.ok.inj hn
  · cases hn

/-- Turned to put the number first, a comparison says the same of a value. -/
theorem ComparisonMark.exists_says {c : Comparison} (h : ComparisonMark mark c) :
    ∃ op, Says mark op ∧ ∀ n v, c.holds n v ↔ op v n := by
  cases h with
  | bare => exact ⟨_, .bare, fun n v => beq_iff_eq.trans eq_comm⟩
  | eq => exact ⟨_, .eq, fun n v => beq_iff_eq.trans eq_comm⟩
  | ge => exact ⟨_, .ge, fun n v => by simp [Comparison.holds]⟩
  | gt => exact ⟨_, .gt, fun n v => by simp [Comparison.holds]⟩
  | le => exact ⟨_, .le, fun n v => by simp [Comparison.holds]⟩
  | lt => exact ⟨_, .lt, fun n v => by simp [Comparison.holds]⟩

theorem lower_of_effectNamed {name : List Char} {e : Effect} (h : effectNamed name = .ok e) :
    Text.lower name = e.name.toList := by
  simp only [effectNamed, Effect.ofValue, Effect.ofValue?, Effect.ofText?, String.toList_ofList] at h
  split at h
  · rename_i e' hfind
    obtain rfl := Except.ok.inj h
    have he := List.find?_some hfind
    exact (beq_iff_eq.mp he).symm
  · cases h

end

-- ---------------------------------------------------------------------------
-- One reading
-- ---------------------------------------------------------------------------

theorem Numeral.eq_digitsValue {ds : List Char} {n : Nat} (h : Numeral ds n) : n = digitsValue ds :=
  h.value.symm.trans (digitsValue_eq_ofDigits ds).symm

theorem Says.exists_mark {mark : List Char} {op : Int → Int → Prop} (h : Says mark op) :
    ∃ c, ComparisonMark mark c ∧ op = fun v n => (c.holds n v : Prop) := by
  have hmark : ∃ c, ComparisonMark mark c := by
    cases h with
    | bare => exact ⟨_, .bare⟩
    | eq => exact ⟨_, .eq⟩
    | ge => exact ⟨_, .ge⟩
    | gt => exact ⟨_, .gt⟩
    | le => exact ⟨_, .le⟩
    | lt => exact ⟨_, .lt⟩
  obtain ⟨c, hc⟩ := hmark
  obtain ⟨op', hop', hholds⟩ := hc.exists_says
  obtain rfl : op = op' := by cases h <;> cases hop' <;> rfl
  exact ⟨c, hc, funext₂ fun v n => propext (hholds n v).symm⟩

section
variable {c : Char} {words rest : List Char} {sides : Nat} {clause clause' : Clause}

theorem RerollWords.exists_tail {e : Effect} {limit : Option Nat} (h : RerollWords words e limit) :
    ∃ name ds, RerollTail words name ds ∧
      e.name.toList = (name.map Text.lower).getD Effect.replace.name.toList ∧
        limit = ds.map digitsValue := by
  cases h with
  | bare => exact ⟨none, none, .bare, rfl, rfl⟩
  | effect hname he => exact ⟨_, none, .effect hname, he.symm, rfl⟩
  | limit hname he hn => exact ⟨_, _, .limit hname hn.digits, he.symm, congrArg some hn.eq_digitsValue⟩

theorem MapWords.exists_tail {mapped : Mapped} (h : MapWords words mapped) :
    ∃ value label, MapTail words value label ∧
      mapped = ⟨(value.map fun part => (part.1.getD .plus).factor * (digitsValue part.2 : Int)).getD 1,
        (label.map String.ofList).getD ""⟩ := by
  cases h with
  | bare => exact ⟨none, none, .bare, rfl⟩
  | value hmark hn => exact ⟨_, none, .value hmark hn.digits, by rw [hn.eq_digitsValue]; rfl⟩
  | label hmark hn hlabel =>
    exact ⟨_, _, .label hmark hn.digits hlabel, by rw [hn.eq_digitsValue]; rfl⟩

theorem TerseParts.ofText?_colon (c : Char) (rest : List Char) : ofText? (c :: ':' :: rest) = none := by
  have hcolon : isDigit ':' = false := Text.isDigit_eq_false (by decide)
  simp [ofText?, hcolon]

section
variable (h : Reads sides (c :: rest) clause)
include h

theorem Reads.of_x (hx : sameLetter 'x' c) : clause = .reroll ⟨(· = sides), .add, none⟩ := by
  cases h with
  | explode => rfl
  | rerollAtMost hc | successAtLeast hc | reroll hc | map hc | keep hc =>
    cases Text.sameLetter_unique (by decide) (by decide) hx hc

theorem Reads.of_k (hk : sameLetter 'k' c) : clause = .keep := by
  cases h with
  | keep => rfl
  | explode hc | rerollAtMost hc | successAtLeast hc | reroll hc | map hc =>
    cases Text.sameLetter_unique (by decide) (by decide) hk hc

theorem Reads.of_r (hr : sameLetter 'r' c) :
    (∃ ds, TerseParts.ofText? (c :: rest) = some ⟨c, ds⟩ ∧
      clause = .reroll ⟨(· ≤ digitsValue ds), .replace, some 1⟩) ∨
    ∃ p e, TerseParts.ofText? (c :: rest) = none ∧ RerollParts.ofText? (c :: rest) = some p ∧
      e.name.toList = (p.effect.map Text.lower).getD Effect.replace.name.toList ∧
      clause = .reroll ⟨(p.comparison.holds (digitsValue p.value) ·), e, p.limit.map digitsValue⟩ := by
  cases h with
  | rerollAtMost hc hn hstop =>
    refine .inl ⟨_, TerseParts.ofText?_eq_some.mpr ⟨?_, hn.digits.all, _, hstop, rfl⟩, ?_⟩
    · simp [isTerseLetter, isVerboseLetter, hc]
    · rw [hn.eq_digitsValue]
  | reroll hc hmark hn hwords =>
    obtain ⟨o, ho, rfl⟩ := hmark.exists_mark
    obtain ⟨name, ds, htail, he, rfl⟩ := hwords.exists_tail
    refine .inr ⟨⟨o, _, name, ds⟩, _, TerseParts.ofText?_colon _ _,
      RerollParts.ofText?_eq_some.mpr ⟨c, _, _, hc, ho, hn.digits, htail, rfl⟩, he, ?_⟩
    rw [hn.eq_digitsValue]
  | explode hc | successAtLeast hc | map hc | keep hc =>
    cases Text.sameLetter_unique (by decide) (by decide) hr hc

theorem Reads.of_m (hm : sameLetter 'm' c) :
    (∃ ds, TerseParts.ofText? (c :: rest) = some ⟨c, ds⟩ ∧
      clause = .map ⟨(· ≥ digitsValue ds), ⟨1, ""⟩⟩) ∨
    ∃ p, TerseParts.ofText? (c :: rest) = none ∧ MapParts.ofText? (c :: rest) = some p ∧
      clause = .map ⟨(p.comparison.holds (digitsValue p.value) ·),
        ⟨(p.mapped.map fun part => (part.1.getD .plus).factor * (digitsValue part.2 : Int)).getD 1,
          (p.label.map String.ofList).getD ""⟩⟩ := by
  cases h with
  | successAtLeast hc hn hstop =>
    refine .inl ⟨_, TerseParts.ofText?_eq_some.mpr ⟨?_, hn.digits.all, _, hstop, rfl⟩, ?_⟩
    · simp [isTerseLetter, isVerboseLetter, hc]
    · rw [hn.eq_digitsValue]
  | map hc hmark hn hwords =>
    obtain ⟨o, ho, rfl⟩ := hmark.exists_mark
    obtain ⟨value, label, htail, rfl⟩ := hwords.exists_tail
    refine .inr ⟨⟨o, _, value, label⟩, TerseParts.ofText?_colon _ _,
      MapParts.ofText?_eq_some.mpr ⟨c, _, _, hc, ho, hn.digits, htail, rfl⟩, ?_⟩
    rw [hn.eq_digitsValue]
  | explode hc | rerollAtMost hc | reroll hc | keep hc =>
    cases Text.sameLetter_unique (by decide) (by decide) hm hc

end

theorem Reads.unique_of_r (hr : sameLetter 'r' c) (h : Reads sides (c :: rest) clause)
    (h' : Reads sides (c :: rest) clause') : clause = clause' := by
  rcases h.of_r hr with ⟨ds, hds, rfl⟩ | ⟨p, e, hcolon, hp, he, rfl⟩ <;>
    rcases h'.of_r hr with ⟨ds', hds', rfl⟩ | ⟨p', e', hcolon', hp', he', rfl⟩
  · cases hds.symm.trans hds'
    rfl
  · cases hds.symm.trans hcolon'
  · cases hcolon.symm.trans hds'
  · cases hp.symm.trans hp'
    rw [effect_eq_of_name_toList (he.trans he'.symm)]

theorem Reads.unique_of_m (hm : sameLetter 'm' c) (h : Reads sides (c :: rest) clause)
    (h' : Reads sides (c :: rest) clause') : clause = clause' := by
  rcases h.of_m hm with ⟨ds, hds, rfl⟩ | ⟨p, hcolon, hp, rfl⟩ <;>
    rcases h'.of_m hm with ⟨ds', hds', rfl⟩ | ⟨p', hcolon', hp', rfl⟩
  · cases hds.symm.trans hds'
    rfl
  · cases hds.symm.trans hcolon'
  · cases hcolon.symm.trans hds'
  · cases hp.symm.trans hp'
    rfl

/-- No modifier reads in two ways. -/
theorem Reads.unique {cs : List Char} (h : Reads sides cs clause) (h' : Reads sides cs clause') :
    clause = clause' := by
  cases h with
  | explode hx hstop => exact ((Reads.explode hx hstop).of_x hx).trans (h'.of_x hx).symm
  | keep hk => exact (h'.of_k hk).symm
  | rerollAtMost hr hn hstop => exact unique_of_r hr (.rerollAtMost hr hn hstop) h'
  | reroll hr hmark hn hwords => exact unique_of_r hr (.reroll hr hmark hn hwords) h'
  | successAtLeast hm hn hstop => exact unique_of_m hm (.successAtLeast hm hn hstop) h'
  | map hm hmark hn hwords => exact unique_of_m hm (.map hm hmark hn hwords) h'

end

-- ---------------------------------------------------------------------------
-- Clauses and modifiers
-- ---------------------------------------------------------------------------

structure RerollClause.Agrees (c : RerollClause) (s : RerollSpec) : Prop where
  fires : ∀ v, s.comparison.holds s.trigger v ↔ c.fires v
  effect : s.effect = c.effect
  limit : s.limit = c.limit.map Int.ofNat

structure MapClause.Agrees (c : MapClause) (s : MapSpec) : Prop where
  fires : ∀ v, s.comparison.holds s.trigger v ↔ c.fires v
  value : s.value = c.mapped.value
  label : s.label.getD "" = c.mapped.label

structure Clause.Agrees (clause : Clause) (sides : Nat) (m : Modifier) : Prop where
  reroll : Option.Rel RerollClause.Agrees clause.reroll? (rerollOf sides m)
  map : Option.Rel MapClause.Agrees clause.map? (mapOf m)

section
variable {cs : List Char} {m : Modifier} (hblank : ∀ c ∈ cs, isBlank c = false) (sides : Nat)
include hblank

theorem reads_of_readTerse (h : readTerse cs = .ok m) :
    ∃ clause, Reads sides cs clause ∧ clause.Agrees sides m := by
  rw [readTerse, withoutLineEnd_eq hblank] at h
  split at h
  · rename_i parts hparts
    obtain ⟨letter, ds⟩ := parts
    obtain ⟨hletter, hds, stop, hstop, rfl⟩ := TerseParts.ofText?_eq_some.mp hparts
    dsimp only at h hletter hds
    have hnumber : ∀ {make : Nat → Modifier}, ¬ ds.isEmpty → (number ds).map make = .ok m →
        ∃ n, Numeral ds n ∧ make n = m := by
      intro make hne h
      obtain ⟨n, hn, rfl⟩ := map_ok.mp h
      exact ⟨n, Digits.numeral ⟨by simpa using hne, hds⟩ hn, rfl⟩
    split at h
    · rename_i hx
      split at h
      · rename_i hnone
        obtain rfl := Except.ok.inj h
        obtain rfl := List.isEmpty_iff.mp hnone
        refine ⟨_, .explode hx hstop, ⟨.some ⟨fun v => ?_, rfl, rfl⟩, .none⟩⟩
        exact beq_iff_eq.trans eq_comm
      · cases h
    · rename_i hx
      split at h
      · cases h
      · rename_i hnone
        split at h
        · rename_i hr
          obtain ⟨n, hn, rfl⟩ := hnumber hnone h
          refine ⟨_, .rerollAtMost hr hn hstop, ⟨.some ⟨fun v => ?_, rfl, rfl⟩, .none⟩⟩
          simp [Comparison.holds]
        · split at h
          · rename_i hk
            obtain ⟨n, hn, rfl⟩ := hnumber hnone h
            exact ⟨_, .keep hk, ⟨.none, .none⟩⟩
          · rename_i hr hk
            have hm : sameLetter 'm' letter := by
              simpa [isTerseLetter, isVerboseLetter, hx, hr, hk] using hletter
            obtain ⟨n, hn, rfl⟩ := hnumber hnone h
            refine ⟨_, .successAtLeast hm hn hstop, ⟨.none, .some ⟨fun v => ?_, rfl, rfl⟩⟩⟩
            simp [Comparison.holds]
  · cases h

theorem reads_of_readReroll (h : readReroll cs = .ok m) :
    ∃ clause, Reads sides cs clause ∧ clause.Agrees sides m := by
  rw [readReroll, withoutLineEnd_eq hblank] at h
  split at h
  · rename_i parts hparts
    obtain ⟨o, value, effect, limit⟩ := parts
    obtain ⟨c, mark, tail, hc, hmark, hvalue, htail, rfl⟩ := RerollParts.ofText?_eq_some.mp hparts
    obtain ⟨op, hsays, hholds⟩ := hmark.exists_says
    obtain ⟨n, hn, h⟩ := bind_ok.mp h
    have hwords : ∃ e l, RerollWords tail e l ∧ .reroll o n e l = m := by
      cases htail with
      | bare =>
        cases h
        exact ⟨_, _, .bare, rfl⟩
      | effect hname =>
        obtain ⟨e, he, h⟩ := bind_ok.mp h
        cases h
        exact ⟨e, _, .effect hname (lower_of_effectNamed he), rfl⟩
      | limit hname hds =>
        obtain ⟨e, he, h⟩ := bind_ok.mp h
        obtain ⟨l, hl, h⟩ := bind_ok.mp h
        obtain ⟨k, hk, rfl⟩ := map_ok.mp hl
        cases h
        exact ⟨e, _, .limit hname (lower_of_effectNamed he) (hds.numeral hk), rfl⟩
    obtain ⟨e, l, hwords, rfl⟩ := hwords
    exact ⟨_, .reroll hc hsays (hvalue.numeral hn) hwords, ⟨.some ⟨hholds n, rfl, rfl⟩, .none⟩⟩
  · cases h

theorem reads_of_readMap (h : readMap cs = .ok m) :
    ∃ clause, Reads sides cs clause ∧ clause.Agrees sides m := by
  rw [readMap, withoutLineEnd_eq hblank] at h
  split at h
  · rename_i parts hparts
    obtain ⟨o, value, mapped, label⟩ := parts
    obtain ⟨c, mark, tail, hc, hmark, hvalue, htail, rfl⟩ := MapParts.ofText?_eq_some.mp hparts
    obtain ⟨op, hsays, hholds⟩ := hmark.exists_says
    obtain ⟨n, hn, h⟩ := bind_ok.mp h
    have hwords : ∃ v, MapWords tail ⟨v, (label.map String.ofList).getD ""⟩ ∧
        .map o n v (label.map String.ofList) = m := by
      cases htail with
      | bare =>
        cases h
        exact ⟨_, .bare, rfl⟩
      | value hsign hds =>
        obtain ⟨v, hv, h⟩ := bind_ok.mp h
        obtain ⟨k, hk, rfl⟩ := signedNumber_eq_ok.mp hv
        cases h
        exact ⟨_, .value hsign (hds.numeral hk), rfl⟩
      | label hsign hds hlabel =>
        obtain ⟨v, hv, h⟩ := bind_ok.mp h
        obtain ⟨k, hk, rfl⟩ := signedNumber_eq_ok.mp hv
        cases h
        exact ⟨_, .label hsign (hds.numeral hk) hlabel, rfl⟩
    obtain ⟨v, hwords, rfl⟩ := hwords
    exact ⟨_, .map hc hsays (hvalue.numeral hn) hwords, ⟨.none, .some ⟨hholds n, rfl, rfl⟩⟩⟩
  · cases h

theorem reads_of_readKeep (h : readKeep cs = .ok m) :
    ∃ clause, Reads sides cs clause ∧ clause.Agrees sides m := by
  rw [readKeep, withoutLineEnd_eq hblank] at h
  split at h
  · rename_i parts hparts
    obtain ⟨count, mode⟩ := parts
    obtain ⟨c, tail, hc, -, -, rfl⟩ := KeepParts.ofText?_eq_some.mp hparts
    obtain ⟨n, -, h⟩ := bind_ok.mp h
    cases mode
    all_goals
      obtain ⟨mode, -, h⟩ := bind_ok.mp h
      cases h
      exact ⟨_, .keep hc, ⟨.none, .none⟩⟩
  · cases h

theorem reads_of_readVerbose (h : readVerbose cs = .ok m) :
    ∃ clause, Reads sides cs clause ∧ clause.Agrees sides m := by
  unfold readVerbose at h
  split at h
  · cases h
  · split at h
    · split at h
      · exact reads_of_readReroll hblank sides h
      · split at h
        · exact reads_of_readMap hblank sides h
        · exact reads_of_readKeep hblank sides h
    · cases h

end

-- ---------------------------------------------------------------------------
-- Pieces
-- ---------------------------------------------------------------------------

inductive WritesDice : List Char → Nat → Nat → Prop
  | mk {count n c ds sides} (hn : Numeral count n) (hc : sameLetter 'd' c) (hs : Numeral ds sides) :
      WritesDice (count ++ c :: ds) n sides

/-- What a token is of a piece of text, whatever dice a modifier belongs to. -/
inductive Piece : List Char → Token → Prop
  | plus : Piece ['+'] (.sign .plus)
  | minus : Piece ['-'] (.sign .minus)
  | constant {cs n} (hn : Numeral cs n) : Piece cs (.constant n)
  | dice {cs n sides} (h : WritesDice cs n sides) : Piece cs (.dice n sides)
  | modifier {cs m} (h : ∀ sides, ∃ clause, Reads sides cs clause ∧ clause.Agrees sides m) :
      Piece cs (.modifier m)

section
variable {cs : List Char} {t : Token} (hblank : ∀ c ∈ cs, isBlank c = false)
include hblank

theorem piece_of_readConstant (h : readConstant cs = .ok t) : Piece cs t := by
  rw [readConstant, withoutLineEnd_eq hblank] at h
  split at h
  · rename_i ds hsplit
    obtain ⟨hds, -, rfl⟩ := digits?_eq_some.mp hsplit
    obtain ⟨n, hn, rfl⟩ := map_ok.mp h
    rw [List.append_nil]
    exact .constant (hds.numeral hn)
  · cases h

theorem piece_of_readDice (h : readDice cs = .ok t) : Piece cs t := by
  rw [readDice, withoutLineEnd_eq hblank] at h
  split at h
  · rename_i parts hparts
    obtain ⟨c, hc, hcount, hsides, rfl⟩ := DiceParts.ofText?_eq_some.mp hparts
    simp only [bind_ok, pure_ok] at h
    obtain ⟨n, hn, sides, hs, rfl⟩ := h
    exact .dice (.mk (hcount.numeral hn) hc (hsides.numeral hs))
  · cases h

theorem piece_of_readToken (h : readToken cs = .ok t) : Piece cs t := by
  cases readBy_of_readToken h with
  | plus => exact .plus
  | minus => exact .minus
  | constant hread => exact piece_of_readConstant hblank hread
  | dice hread => exact piece_of_readDice hblank hread
  | terse hread => exact .modifier fun sides => reads_of_readTerse hblank sides hread
  | verbose hread => exact .modifier fun sides => reads_of_readVerbose hblank sides hread

end

end TabletopDice.Notation
