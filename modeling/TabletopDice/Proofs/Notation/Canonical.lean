import TabletopDice.Proofs.Notation.Written
import TabletopDice.Notation.Parse
import TabletopDice.Dice.Loose

/-!
# Canonical texts

Tokens are compared by their class and their canonical text. The text alone
tells them apart: it says which class a token is of, and every part of it can be
cut out again, since a number never goes on with what follows it.
-/

namespace TabletopDice

open Notation (Digits Ends ends_nil ends_cons run_unique digits_writeNat ne_of_isDigit isEffectChar)
open Decimal (isDigit digits writeNat writeNat_injective digits_injective mem_digits)
open Modifier (afterComma)

-- ---------------------------------------------------------------------------
-- Parts of a text
-- ---------------------------------------------------------------------------

section
variable {rest rest' : List Char} {p : Char → Bool}

theorem number_unique {n n' : Nat} (hrest : Ends isDigit rest) (hrest' : Ends isDigit rest')
    (h : (writeNat n).toList ++ rest = (writeNat n').toList ++ rest') : n = n' ∧ rest = rest' := by
  obtain ⟨hrun, h⟩ := run_unique (digits_writeNat n).all hrest (digits_writeNat n').all hrest' h
  exact ⟨writeNat_injective (String.toList_inj.mp hrun), h⟩

def isSignedDigit (c : Char) : Bool := c == '-' || isDigit c

theorem signed_unique {n n' : Int} (hrest : Ends isSignedDigit rest) (hrest' : Ends isSignedDigit rest')
    (h : digits n ++ rest = digits n' ++ rest') : n = n' ∧ rest = rest' := by
  have hrun : ∀ n : Int, ∀ c ∈ digits n, isSignedDigit c := by
    intro n c hc
    rcases mem_digits hc with rfl | hc
    · rfl
    · rw [isSignedDigit, Text.isDigit_ascii (Text.isAscii_of_isDigit hc), hc, Bool.or_true]
  obtain ⟨hnumber, h⟩ := run_unique (hrun n) hrest (hrun n') hrest' h
  exact ⟨digits_injective hnumber, h⟩

theorem tag_injective {c c' : Comparison} (h : c.tag.toList = c'.tag.toList) : c = c' := by
  cases c <;> cases c' <;> first | rfl | exact absurd h (by decide)

/-- A tag holds no digit, so the number after it begins where the tag ends. -/
theorem tag_unique {c c' : Comparison} {n n' : Nat}
    (h : c.tag.toList ++ ((writeNat n).toList ++ rest) = c'.tag.toList ++ ((writeNat n').toList ++ rest')) :
    c = c' ∧ (writeNat n).toList ++ rest = (writeNat n').toList ++ rest' := by
  have htag : ∀ c : Comparison, ∀ d ∈ c.tag.toList, (!isDigit d) = true := by
    intro c
    cases c <;> exact List.all_iff_forall_prop.mp (by decide)
  have hends : ∀ (n : Nat) (rest : List Char), Ends (!isDigit ·) ((writeNat n).toList ++ rest) := by
    intro n rest
    obtain ⟨d, ds, hds⟩ := List.exists_cons_of_ne_nil (digits_writeNat n).ne_nil
    have hd := (digits_writeNat n).all d (hds ▸ List.mem_cons_self)
    rw [hds]
    exact ends_cons.mpr (by rw [hd]; rfl)
  obtain ⟨hc, h⟩ := run_unique (htag c) (hends n rest) (htag c') (hends n' rest') h
  exact ⟨tag_injective hc, h⟩

theorem ends_afterComma (hcomma : p ',' = false) (hstop : p '.' = false) (part : Option String) :
    Ends p ((afterComma part).toList ++ ['.']) := by
  cases part with
  | none => exact ends_cons.mpr hstop
  | some s =>
    rw [afterComma, String.toList_append]
    exact ends_cons.mpr hcomma

theorem afterComma_unique {part part' : Option String}
    (h : (afterComma part).toList ++ ['.'] = (afterComma part').toList ++ ['.']) : part = part' := by
  have hchars := List.append_cancel_right h
  cases part with
  | none =>
    cases part' with
    | none => rfl
    | some s' => simp [afterComma] at hchars
  | some s =>
    cases part' with
    | none => simp [afterComma] at hchars
    | some s' =>
      simp only [afterComma, String.toList_append] at hchars
      rw [String.toList_inj.mp (List.append_cancel_left hchars)]

end

-- Texts. ----------------------------------------------------------------------

namespace Modifier

theorem toList_reroll (c : Comparison) (n : Nat) (effect : Effect) (limit : Option Nat) :
    (reroll c n effect limit).text.toList = 'r' :: ':' :: (c.tag.toList ++ ((writeNat n).toList ++
      ',' :: (effect.name.toList ++ ((afterComma (limit.map writeNat)).toList ++ ['.'])))) := by
  simp [text]

theorem toList_map (c : Comparison) (n : Nat) (mapped : Int) (label : Option String) :
    (map c n mapped label).text.toList = 'm' :: ':' :: (c.tag.toList ++ ((writeNat n).toList ++
      ',' :: (digits mapped ++ ((afterComma label).toList ++ ['.'])))) := by
  simp [text, digits]

theorem toList_keep (n : Nat) (mode : KeepMode) : (keep n mode).text.toList =
    'k' :: ':' :: ((writeNat n).toList ++ ',' :: (mode.name.toList ++ ['.'])) := by
  simp [text]

end Modifier

-- ---------------------------------------------------------------------------
-- Classes
-- ---------------------------------------------------------------------------

/-- The class that a canonical text is of: its first two characters tell modifiers and signs, and the rest are
numbers unless they hold more than digits. -/
def classOf : List Char → String
  | 'r' :: ':' :: _ => "Reroll"
  | 'm' :: ':' :: _ => "Map"
  | 'k' :: ':' :: _ => "Keep"
  | 'x' :: _ => "Explode"
  | 'r' :: _ => "RerollAtMost"
  | 'k' :: _ => "KeepBest"
  | 'm' :: _ => "SuccessAtLeast"
  | '+' :: _ | '-' :: _ => "Token"
  | cs => if cs.all isDigit then "Constant" else "Dice"

theorem Notation.Digits.classOf_append {ds : List Char} (h : Digits ds) (rest : List Char) :
    classOf (ds ++ rest) = if rest.all isDigit then "Constant" else "Dice" := by
  obtain ⟨d, ds, rfl⟩ := List.exists_cons_of_ne_nil h.ne_nil
  have hd : isDigit d := h.all d List.mem_cons_self
  have hletter : ∀ {c : Char} {cs : List Char}, Text.IsAscii c ∧ c.isDigit = false → d :: (ds ++ rest) ≠ c :: cs :=
    fun hc heq => ne_of_isDigit hd (Text.isDigit_eq_false hc) (List.cons.inj heq).1
  have hall : (d :: ds).all isDigit = true := List.all_eq_true.mpr h.all
  rw [List.cons_append, classOf]
  · rw [← List.cons_append, List.all_append, hall, Bool.true_and]
  all_goals exact fun _ => hletter (by decide)

theorem classOf_numbered {letter name : String} {c : Char} (n : Nat) (hletter : letter.toList = [c])
    (h : ∀ d ds, d ≠ ':' → classOf (c :: d :: ds) = name) : classOf (letter ++ writeNat n).toList = name := by
  obtain ⟨d, ds, hds⟩ := List.exists_cons_of_ne_nil (digits_writeNat n).ne_nil
  have hd := (digits_writeNat n).all d (hds ▸ List.mem_cons_self)
  rw [String.toList_append, hletter, hds]
  exact h d ds (ne_of_isDigit hd (Text.isDigit_eq_false (by decide)))

theorem classOf_text (t : Token) : classOf t.text.toList = t.className := by
  cases t with
  | sign s => cases s <;> rfl
  | constant n =>
    have h := (digits_writeNat n).classOf_append []
    rw [List.append_nil] at h
    exact h
  | dice count sides =>
    rw [Token.text, String.toList_append, String.toList_append, List.append_assoc,
      (digits_writeNat count).classOf_append]
    rfl
  | modifier m =>
    cases m with
    | explode => rfl
    | rerollAtMost n =>
      have hletter : "r".toList = ['r'] := rfl
      exact classOf_numbered n hletter fun d ds hd => by simp [classOf, hd, Token.className, Modifier.className]
    | keepBest n =>
      have hletter : "k".toList = ['k'] := rfl
      exact classOf_numbered n hletter fun d ds hd => by simp [classOf, hd, Token.className, Modifier.className]
    | successAtLeast n =>
      have hletter : "m".toList = ['m'] := rfl
      exact classOf_numbered n hletter fun d ds hd => by simp [classOf, hd, Token.className, Modifier.className]
    | reroll c n effect limit =>
      rw [Token.text, Modifier.toList_reroll]
      rfl
    | map c n mapped label =>
      rw [Token.text, Modifier.toList_map]
      rfl
    | keep n mode =>
      rw [Token.text, Modifier.toList_keep]
      rfl

-- ---------------------------------------------------------------------------
-- Tokens by their texts
-- ---------------------------------------------------------------------------

theorem ends_comma (rest : List Char) : Ends isDigit (',' :: rest) := ends_cons.mpr Notation.not_isDigit_comma

theorem dice_unique {count count' sides sides' : Nat}
    (h : (Token.dice count sides).text = (Token.dice count' sides').text) : count = count' ∧ sides = sides' := by
  have hchars := congrArg String.toList h
  simp only [Token.text, String.toList_append, List.append_assoc] at hchars
  have hends : ∀ rest : List Char, Ends isDigit ("d".toList ++ rest) :=
    fun rest => ends_cons.mpr (Text.isDigit_eq_false (by decide))
  obtain ⟨hcount, hsides⟩ := number_unique (hends _) (hends _) hchars
  exact ⟨hcount, writeNat_injective (String.toList_inj.mp (List.append_cancel_left hsides))⟩

namespace Modifier

theorem numbered_unique {letter : String} {n n' : Nat} (h : letter ++ writeNat n = letter ++ writeNat n') :
    n = n' := by
  have hchars := congrArg String.toList h
  rw [String.toList_append, String.toList_append] at hchars
  exact writeNat_injective (String.toList_inj.mp (List.append_cancel_left hchars))

theorem reroll_unique {c c' : Comparison} {n n' : Nat} {effect effect' : Effect} {limit limit' : Option Nat}
    (h : (reroll c n effect limit).text = (reroll c' n' effect' limit').text) :
    reroll c n effect limit = reroll c' n' effect' limit' := by
  have hname : ∀ effect : Effect, ∀ d ∈ effect.name.toList, isEffectChar d := by
    intro effect
    cases effect <;> exact List.all_iff_forall_prop.mp (by decide)
  have hends : ∀ limit : Option Nat, Ends isEffectChar ((afterComma (limit.map writeNat)).toList ++ ['.']) :=
    fun limit => ends_afterComma (by decide) (by decide) _
  -- one part after another, each up to the first character that it cannot hold
  have hchars := congrArg String.toList h
  rw [toList_reroll, toList_reroll, List.cons_inj_right, List.cons_inj_right] at hchars
  obtain ⟨hc, hvalue⟩ := tag_unique hchars
  obtain ⟨hn, htail⟩ := number_unique (ends_comma _) (ends_comma _) hvalue
  obtain ⟨heffect, hlast⟩ := run_unique (hname effect) (hends limit) (hname effect') (hends limit')
    (List.tail_eq_of_cons_eq htail)
  have hlimit := Option.map_injective writeNat_injective (afterComma_unique hlast)
  rw [hc, hn, Notation.effect_eq_of_name_toList heffect, hlimit]

theorem map_unique {c c' : Comparison} {n n' : Nat} {mapped mapped' : Int} {label label' : Option String}
    (h : (map c n mapped label).text = (map c' n' mapped' label').text) :
    map c n mapped label = map c' n' mapped' label' := by
  have hends : ∀ label : Option String, Ends isSignedDigit ((afterComma label).toList ++ ['.']) :=
    fun label => ends_afterComma (by decide) (by decide) label
  have hchars := congrArg String.toList h
  rw [toList_map, toList_map, List.cons_inj_right, List.cons_inj_right] at hchars
  obtain ⟨hc, hvalue⟩ := tag_unique hchars
  obtain ⟨hn, htail⟩ := number_unique (ends_comma _) (ends_comma _) hvalue
  obtain ⟨hmapped, hlast⟩ := signed_unique (hends label) (hends label') (List.tail_eq_of_cons_eq htail)
  rw [hc, hn, hmapped, afterComma_unique hlast]

theorem keep_unique {n n' : Nat} {mode mode' : KeepMode} (h : (keep n mode).text = (keep n' mode').text) :
    keep n mode = keep n' mode' := by
  have hname : mode.name.toList = mode'.name.toList → mode = mode' := by
    intro hname
    cases mode <;> cases mode' <;> first | rfl | exact absurd hname (by decide)
  have hchars := congrArg String.toList h
  rw [toList_keep, toList_keep, List.cons_inj_right, List.cons_inj_right] at hchars
  obtain ⟨hn, htail⟩ := number_unique (ends_comma _) (ends_comma _) hchars
  rw [hn, hname (List.append_cancel_right (List.tail_eq_of_cons_eq htail))]

theorem eq_of_text {m m' : Modifier} (hclass : m.className = m'.className) (h : m.text = m'.text) : m = m' := by
  cases m with
  | explode =>
    cases m' with
    | explode => rfl
    | _ => simp [className] at hclass
  | rerollAtMost n =>
    cases m' with
    | rerollAtMost n' => rw [numbered_unique h]
    | _ => simp [className] at hclass
  | keepBest n =>
    cases m' with
    | keepBest n' => rw [numbered_unique h]
    | _ => simp [className] at hclass
  | successAtLeast n =>
    cases m' with
    | successAtLeast n' => rw [numbered_unique h]
    | _ => simp [className] at hclass
  | reroll c n effect limit =>
    cases m' with
    | reroll c' n' effect' limit' => exact reroll_unique h
    | _ => simp [className] at hclass
  | map c n mapped label =>
    cases m' with
    | map c' n' mapped' label' => exact map_unique h
    | _ => simp [className] at hclass
  | keep n mode =>
    cases m' with
    | keep n' mode' => exact keep_unique h
    | _ => simp [className] at hclass

end Modifier

theorem Token.eq_of_text {a b : Token} (hclass : a.className = b.className) (h : a.text = b.text) : a = b := by
  cases a with
  | sign s =>
    cases b with
    | sign s' => cases s <;> cases s' <;> first | rfl | exact absurd h (by decide)
    | modifier m => cases m <;> simp [className, Modifier.className] at hclass
    | _ => simp [className] at hclass
  | constant n =>
    cases b with
    | constant n' => rw [writeNat_injective h]
    | modifier m => cases m <;> simp [className, Modifier.className] at hclass
    | _ => simp [className] at hclass
  | dice count sides =>
    cases b with
    | dice count' sides' =>
      obtain ⟨hcount, hsides⟩ := dice_unique h
      rw [hcount, hsides]
    | modifier m => cases m <;> simp [className, Modifier.className] at hclass
    | _ => simp [className] at hclass
  | modifier m =>
    cases b with
    | modifier m' => rw [Modifier.eq_of_text hclass h]
    | _ => cases m <;> simp [className, Modifier.className] at hclass

/-- Every token has a text of its own. -/
theorem Token.text_injective : Function.Injective Token.text := by
  intro a b h
  have hclass := congrArg (fun s : String => classOf s.toList) h
  rw [classOf_text, classOf_text] at hclass
  exact Token.eq_of_text hclass h

/-- Tokens are taken for the same just if they are of one class with the same parts. Then they change every
description of dice alike, and every text is read on alike after them. -/
theorem Token.same_iff_eq (a b : Token) :
    (a.same (.inl b) = true ↔ a = b) ∧
    (a.same (.inl b) = true →
      (∀ args : TermArgs, args.apply a = args.apply b) ∧ ∀ p : Notation.Progress, p.step a = p.step b) := by
  have hsame : a.same (.inl b) = true ↔ a = b := by
    rw [same, Bool.and_eq_true, beq_iff_eq, beq_iff_eq]
    constructor
    · exact fun h => text_injective h.2
    · rintro rfl
      exact ⟨rfl, rfl⟩
  refine ⟨hsame, fun h => ?_⟩
  rw [hsame.mp h]
  exact ⟨fun _ => rfl, fun _ => rfl⟩

example : (Token.modifier (.reroll .ge 5 .replace (some 1))).same (.inl (.modifier (.rerollAtMost 5))) = false := by
  decide

end TabletopDice
