import Mathlib.Data.List.Basic
import TabletopDice.Proofs.Notation.Sentence
import TabletopDice.Dice.Loose

/-!
# Descriptions changed by tokens

Tokens change a description in place, one after another, and the next one has
its turn also after one that cannot be used. Each rule joins the rules of its
kind, the first keep counts unless one was set before, and all else stays as it
was given. Only the order within a kind makes a difference.
-/

namespace TabletopDice

open TermArgs (addRule rerollParts mapParts)

-- ---------------------------------------------------------------------------
-- Changes in place
-- ---------------------------------------------------------------------------

namespace BunchArgs

def rules (b : BunchArgs) : RuleKind → Value
  | .reroll => b.rerolls
  | .map => b.maps

def setRules (b : BunchArgs) (kind : RuleKind) (rules : Value) : BunchArgs :=
  match kind with
  | .reroll => { b with rerolls := rules }
  | .map => { b with maps := rules }

end BunchArgs

/-- A change of a description in place. A fault on the way leaves what has been changed by then. -/
abbrev Edit := ExceptT Fault (StateM TermArgs)

namespace Edit

def addRuleOf (kind : RuleKind) (rule : Value) : Edit Unit := do
  let rules ← ofExcept (addRule ((← get).bunch.rules kind) rule)
  modify fun a => { a with bunch := a.bunch.setRules kind rules }

/-- Sets the mode, then the number. -/
def setKeep (mode : KeepMode) (count : Int) : Edit Unit := do
  if (← get).bunch.keepMode.isAbsent then
    modify fun a => { a with bunch := { a.bunch with keepMode := .text mode.name } }
    modify fun a => { a with bunch := { a.bunch with keepNumber := .whole count } }
  else throw (.grammar .secondKeep)

def apply : Token → Edit Unit
  | .modifier m =>
    match m.change with
    | .explode => do addRuleOf .reroll (rerollParts (← get).bunch.sides .eq .add none)
    | .reroll r => addRuleOf .reroll (rerollParts (.whole r.trigger) r.comparison r.effect r.limit)
    | .map rule => addRuleOf .map (mapParts rule)
    | .keep mode count => setKeep mode count
  | t => throw (.value (.notModifier t.described))

end Edit

-- ---------------------------------------------------------------------------
-- What a token changes
-- ---------------------------------------------------------------------------

inductive ModifierKind where
  | rule (kind : RuleKind)
  | keep
deriving DecidableEq

def Modifier.kind : Modifier → ModifierKind
  | .explode | .rerollAtMost _ | .reroll .. => .rule .reroll
  | .successAtLeast _ | .map .. => .rule .map
  | .keepBest _ | .keep .. => .keep

/-- The rule that a modifier stands for, part by part: the trigger and its comparison, then what is done and
how often, or what it counts for and under which label. -/
def Modifier.rule? (sides : Value) : Modifier → Option Value
  | .explode => some (.list [sides, .text "eq", .text "add"])
  | .rerollAtMost n => some (.list [.whole n, .text "ge", .text "replace", .whole 1])
  | .reroll c n effect none => some (.list [.whole n, .text c.tag, .text effect.name])
  | .reroll c n effect (some limit) => some (.list [.whole n, .text c.tag, .text effect.name, .whole limit])
  | .successAtLeast n => some (.list [.whole n, .text "le", .whole 1])
  | .map c n value none => some (.list [.whole n, .text c.tag, .whole value])
  | .map c n value (some label) => some (.list [.whole n, .text c.tag, .whole value, .text label])
  | .keepBest _ | .keep .. => none

theorem Modifier.rule?_reroll (sides : Value) (c : Comparison) (n : Nat) (effect : Effect) (limit : Option Nat) :
    (Modifier.reroll c n effect limit).rule? sides =
      some (rerollParts (.whole n) c effect (limit.map Int.ofNat)) := by
  cases limit <;> rfl

theorem Modifier.rule?_map (sides : Value) (c : Comparison) (n : Nat) (value : Int) (label : Option String) :
    (Modifier.map c n value label).rule? sides = some (mapParts ⟨n, c, value, label⟩) := by
  cases label <;> rfl

namespace Token

def kind? : Token → Option ModifierKind
  | .modifier m => some m.kind
  | _ => none

def rule? (sides : Value) (kind : RuleKind) : Token → Option Value
  | .modifier m => if m.kind = .rule kind then m.rule? sides else none
  | _ => none

def keep? : Token → Option (KeepMode × Nat)
  | .modifier m => Notation.keepOf m
  | _ => none

end Token

namespace Edit

variable {a : TermArgs} {m : Modifier}

theorem run_addRuleOf (a : TermArgs) (kind : RuleKind) (rule : Value) : (addRuleOf kind rule).run a =
    match addRule (a.bunch.rules kind) rule with
    | .ok rules => (.ok (), { a with bunch := a.bunch.setRules kind rules })
    | .error f => (.error f, a) := by
  show (ofExcept (addRule (a.bunch.rules kind) rule) >>= fun rules =>
    modify fun a => { a with bunch := a.bunch.setRules kind rules } : Edit Unit).run a = _
  cases addRule (a.bunch.rules kind) rule with
  | error f => rfl
  | ok rules => rfl

theorem run_setKeep (a : TermArgs) (mode : KeepMode) (count : Int) : (setKeep mode count).run a =
    if a.bunch.keepMode.isAbsent then
      (.ok (), { a with bunch := { a.bunch with keepMode := .text mode.name, keepNumber := .whole count } })
    else (.error (.grammar .secondKeep), a) := by
  show ((if a.bunch.keepMode.isAbsent then do
      modify fun a => { a with bunch := { a.bunch with keepMode := .text mode.name } }
      modify fun a => { a with bunch := { a.bunch with keepNumber := .whole count } }
    else throw (.grammar .secondKeep)) : Edit Unit).run a = _
  split <;> rfl

theorem run_apply_rule {kind : RuleKind} {rule : Value} (hkind : m.kind = .rule kind)
    (hrule : m.rule? a.bunch.sides = some rule) :
    (apply (.modifier m)).run a = (addRuleOf kind rule).run a := by
  cases m with
  | reroll c n effect limit =>
    rw [Modifier.rule?_reroll] at hrule
    cases hkind
    cases hrule
    rfl
  | map c n value label =>
    rw [Modifier.rule?_map] at hrule
    cases hkind
    cases hrule
    rfl
  | _ => cases hkind <;> cases hrule <;> rfl

theorem run_apply_keep {mode : KeepMode} {n : Nat} (h : Notation.keepOf m = some (mode, n)) :
    (apply (.modifier m)).run a = (setKeep mode n).run a := by
  cases m <;> cases h <;> rfl

theorem modify_rule {kind : RuleKind} {rule : Value} (hkind : m.kind = .rule kind)
    (hrule : m.rule? a.bunch.sides = some rule) : a.modify m =
      (addRule (a.bunch.rules kind) rule).map fun rules => { a with bunch := a.bunch.setRules kind rules } := by
  have hmap : ∀ (x : Except Fault Value) (g : Value → TermArgs), (x >>= fun v => pure (g v)) = x.map g := by
    intro x g
    cases x <;> rfl
  cases m with
  | reroll c n effect limit =>
    rw [Modifier.rule?_reroll] at hrule
    cases hkind
    cases hrule
    exact hmap _ _
  | map c n value label =>
    rw [Modifier.rule?_map] at hrule
    cases hkind
    cases hrule
    exact hmap _ _
  | _ => cases hkind <;> cases hrule <;> exact hmap _ _

theorem modify_keep {mode : KeepMode} {n : Nat} (h : Notation.keepOf m = some (mode, n)) : a.modify m =
    if a.bunch.keepMode.isAbsent then
      .ok { a with bunch := { a.bunch with keepMode := .text mode.name, keepNumber := .whole n } }
    else .error (.grammar .secondKeep) := by
  cases m <;> cases h <;> rfl

/-- A modifier stands for a rule or keeps dice. -/
theorem rule_or_keep (sides : Value) (m : Modifier) :
    (∃ kind rule, m.kind = .rule kind ∧ m.rule? sides = some rule ∧ Notation.keepOf m = none) ∨
      ∃ mode n, m.kind = .keep ∧ m.rule? sides = none ∧ Notation.keepOf m = some (mode, n) := by
  cases m with
  | keepBest n => exact .inr ⟨_, _, rfl, rfl, rfl⟩
  | keep n mode => exact .inr ⟨_, _, rfl, rfl, rfl⟩
  | reroll c n effect limit => exact .inl ⟨_, _, rfl, Modifier.rule?_reroll .., rfl⟩
  | map c n value label => exact .inl ⟨_, _, rfl, Modifier.rule?_map .., rfl⟩
  | _ => exact .inl ⟨_, _, rfl, rfl, rfl⟩

/-- In place a token changes a description as it changes a copy, or not at all. -/
theorem run_apply (a : TermArgs) (t : Token) : (apply t).run a =
    match a.apply t with
    | .ok b => (.ok (), b)
    | .error f => (.error f, a) := by
  cases t with
  | modifier m =>
    have happly : a.apply (.modifier m) = a.modify m := rfl
    rw [happly]
    rcases rule_or_keep a.bunch.sides m with ⟨kind, rule, hkind, hrule, -⟩ | ⟨mode, n, -, -, hkeep⟩
    · rw [run_apply_rule hkind hrule, modify_rule hkind hrule, run_addRuleOf]
      cases addRule (a.bunch.rules kind) rule <;> rfl
    · rw [run_apply_keep hkeep, modify_keep hkeep, run_setKeep]
      split <;> rfl
  | _ => rfl

end Edit

-- ---------------------------------------------------------------------------
-- All changes at once
-- ---------------------------------------------------------------------------

inductive Value.IsRuleList : Value → Prop
  | absent : IsRuleList .absent
  | list (rules : List Value) : IsRuleList (.list rules)

/-- Rules after the ones that were given. Without any, what was given stays as it was given. -/
def Value.joinRules (given : Value) (rules : List Value) : Value :=
  match given, rules with
  | given, [] => given
  | .list before, rules => .list (before ++ rules)
  | _, rules => .list rules

namespace TermArgs

def HasRuleLists (a : TermArgs) : Prop := ∀ kind, (a.bunch.rules kind).IsRuleList

def after (a : TermArgs) (t : Token) : TermArgs := ((Edit.apply t).run a).2

def run (a : TermArgs) (ts : List Token) : TermArgs := ts.foldl after a

/-- The keep that counts: the first one, unless one was set before. -/
def keepAmong (a : TermArgs) (ts : List Token) : Option (KeepMode × Nat) :=
  if a.bunch.keepMode.isAbsent then ts.findSome? Token.keep? else none

/-- The description with all rules of the tokens, each after the ones of its kind, and with the keep that
counts. -/
def edited (a : TermArgs) (ts : List Token) : TermArgs :=
  { a with
    bunch :=
      { a.bunch with
        rerolls := a.bunch.rerolls.joinRules (ts.filterMap (Token.rule? a.bunch.sides .reroll))
        maps := a.bunch.maps.joinRules (ts.filterMap (Token.rule? a.bunch.sides .map))
        keepMode := ((a.keepAmong ts).map fun k => .text k.1.name).getD a.bunch.keepMode
        keepNumber := ((a.keepAmong ts).map fun k => .whole k.2).getD a.bunch.keepNumber } }

-- Rules. ----------------------------------------------------------------------

section
variable {given : Value}

@[simp] theorem joinRules_nil (given : Value) : given.joinRules [] = given := by
  cases given <;> rfl

theorem addRule_eq_ok (h : given.IsRuleList) (rule : Value) : addRule given rule = .ok (given.joinRules [rule]) := by
  cases h <;> rfl

theorem isRuleList_joinRules (h : given.IsRuleList) (rules : List Value) : (given.joinRules rules).IsRuleList := by
  cases rules with
  | nil => rwa [joinRules_nil]
  | cons rule rules => cases h <;> exact .list _

theorem joinRules_append (h : given.IsRuleList) (rules more : List Value) :
    given.joinRules (rules ++ more) = (given.joinRules rules).joinRules more := by
  cases rules with
  | nil => rw [List.nil_append, joinRules_nil]
  | cons rule rules =>
    cases more with
    | nil => rw [List.append_nil, joinRules_nil]
    | cons rule' more => cases h <;> simp [Value.joinRules]

end

-- Steps and runs. -------------------------------------------------------------

variable {a : TermArgs} {t : Token}

theorem keepAmong_nil (a : TermArgs) : a.keepAmong [] = none := by
  rw [keepAmong, List.findSome?_nil, ite_self]

theorem keepAmong_append (a : TermArgs) (ts us : List Token) :
    a.keepAmong (ts ++ us) = (a.keepAmong ts).or (a.keepAmong us) := by
  unfold keepAmong
  split
  · exact List.findSome?_append
  · rfl

theorem keepMode_edited (a : TermArgs) (ts : List Token) : (a.edited ts).bunch.keepMode =
    ((a.keepAmong ts).map fun k => Value.text k.1.name).getD a.bunch.keepMode := rfl

/-- A keep that counts leaves no room for another. -/
theorem keepAmong_edited (a : TermArgs) (ts us : List Token) :
    (a.edited ts).keepAmong us = if (a.keepAmong ts).isSome then none else a.keepAmong us := by
  rw [keepAmong, keepMode_edited]
  cases a.keepAmong ts with
  | none => rfl
  | some k => rfl

theorem edited_nil (a : TermArgs) : a.edited [] = a := by
  simp only [edited, keepAmong_nil, List.filterMap_nil, joinRules_nil]
  rfl

theorem HasRuleLists.edited (ha : a.HasRuleLists) (ts : List Token) : (a.edited ts).HasRuleLists := by
  intro kind
  cases kind with
  | reroll => exact isRuleList_joinRules (ha .reroll) _
  | map => exact isRuleList_joinRules (ha .map) _

theorem edited_append (ha : a.HasRuleLists) (ts us : List Token) :
    a.edited (ts ++ us) = (a.edited ts).edited us := by
  have hrules : ∀ kind, (a.bunch.rules kind).joinRules ((ts ++ us).filterMap (Token.rule? a.bunch.sides kind)) =
      ((a.bunch.rules kind).joinRules (ts.filterMap (Token.rule? a.bunch.sides kind))).joinRules
        (us.filterMap (Token.rule? a.bunch.sides kind)) := fun kind => by
    rw [List.filterMap_append, joinRules_append (ha kind)]
  have hkept : ∀ (g : KeepMode × Nat → Value) (given : Value), ((a.keepAmong (ts ++ us)).map g).getD given =
      (((a.edited ts).keepAmong us).map g).getD (((a.keepAmong ts).map g).getD given) := by
    intro g given
    rw [keepAmong_append, keepAmong_edited]
    cases a.keepAmong ts <;> rfl
  rw [edited, edited, TermArgs.mk.injEq, BunchArgs.mk.injEq]
  exact ⟨rfl, rfl, rfl, hrules .reroll, hrules .map, hkept _ _, hkept _ _⟩

/-- One token: a rule joins its list, a keep is set unless one was set before, and any other token is refused. -/
theorem after_eq_edited (ha : a.HasRuleLists) (t : Token) : a.after t = a.edited [t] := by
  cases t with
  | modifier m =>
    rcases Edit.rule_or_keep a.bunch.sides m with
      ⟨kind, rule, hkind, hrule, hkeep⟩ | ⟨mode, n, hkind, hrule, hkeep⟩
    · rw [after, Edit.run_apply_rule hkind hrule, Edit.run_addRuleOf, addRule_eq_ok (ha kind)]
      cases kind <;>
        simp [edited, keepAmong, Token.rule?, Token.keep?, BunchArgs.setRules, BunchArgs.rules, hkind, hrule, hkeep]
    · rw [after, Edit.run_apply_keep hkeep, Edit.run_setKeep]
      cases habsent : a.bunch.keepMode.isAbsent <;>
        simp [edited, keepAmong, Token.rule?, Token.keep?, hkind, hkeep, habsent]
  | _ => exact (edited_nil a).symm

theorem run_eq_edited (ha : a.HasRuleLists) (ts : List Token) : a.run ts = a.edited ts := by
  induction ts generalizing a with
  | nil => exact (edited_nil a).symm
  | cons t ts ih =>
    show (a.after t).run ts = a.edited ([t] ++ ts)
    rw [edited_append ha, after_eq_edited ha t]
    exact ih (ha.edited [t])

/-- A token is refused if it is a second keep or no modifier. -/
theorem run_apply_error_iff (ha : a.HasRuleLists) {f : Fault} : ((Edit.apply t).run a).1 = .error f ↔
    (t.kind? = some .keep ∧ a.bunch.keepMode.isAbsent = false ∧ f = .grammar .secondKeep) ∨
      (t.kind? = none ∧ f = .value (.notModifier t.described)) := by
  cases t with
  | modifier m =>
    rcases Edit.rule_or_keep a.bunch.sides m with ⟨kind, rule, hkind, hrule, -⟩ | ⟨mode, n, hkind, -, hkeep⟩
    · rw [Edit.run_apply_rule hkind hrule, Edit.run_addRuleOf, addRule_eq_ok (ha kind)]
      simp [Token.kind?, hkind]
    · rw [Edit.run_apply_keep hkeep, Edit.run_setKeep]
      cases habsent : a.bunch.keepMode.isAbsent <;> simp [Token.kind?, hkind, eq_comm]
  | sign s | constant n | dice count sides =>
    show (Except.error _ : Except Fault Unit) = .error f ↔ _
    refine ⟨fun h => .inr ⟨rfl, (Except.error.inj h).symm⟩, ?_⟩
    rintro (⟨hkind, -⟩ | ⟨-, rfl⟩)
    · cases hkind
    · rfl

theorem run_apply_of_error {f : Fault} (h : ((Edit.apply t).run a).1 = .error f) : a.after t = a := by
  rw [after]
  rw [Edit.run_apply] at h ⊢
  cases happly : a.apply t with
  | ok b =>
    rw [happly] at h
    cases h
  | error g => rfl

theorem filterMap_kind {β : Type} {g : Token → Option β} {kind : ModifierKind}
    (hg : ∀ t, t.kind? ≠ some kind → g t = none) (ts : List Token) :
    (ts.filter (·.kind? = some kind)).filterMap g = ts.filterMap g := by
  rw [List.filterMap_filter]
  refine List.filterMap_congr fun t _ => ?_
  split
  · rfl
  · rename_i hkind
    exact (hg t (by simpa using hkind)).symm

theorem rule?_of_kind (sides : Value) {kind : RuleKind} (h : t.kind? ≠ some (.rule kind)) :
    t.rule? sides kind = none := by
  cases t with
  | modifier m => exact if_neg fun hkind => h (congrArg some hkind)
  | _ => rfl

theorem keep?_of_kind (h : t.kind? ≠ some .keep) : t.keep? = none := by
  cases t with
  | modifier m =>
    rcases Edit.rule_or_keep .absent m with ⟨kind, rule, -, -, hkeep⟩ | ⟨mode, n, hkind, -, -⟩
    · exact hkeep
    · exact absurd (congrArg some hkind) h
  | _ => rfl

/-- Only the order within each kind of modifiers makes a difference. -/
theorem edited_congr (a : TermArgs) {ts us : List Token}
    (h : ∀ kind, us.filter (·.kind? = some kind) = ts.filter (·.kind? = some kind)) : a.edited us = a.edited ts := by
  have hsame : ∀ {β : Type} {g : Token → Option β} (kind : ModifierKind),
      (∀ t, t.kind? ≠ some kind → g t = none) → us.filterMap g = ts.filterMap g := by
    intro β g kind hg
    rw [← filterMap_kind hg us, h kind, filterMap_kind hg ts]
  have hkeep : a.keepAmong us = a.keepAmong ts := by
    simp only [keepAmong, ← List.head?_filterMap, hsame .keep fun t => keep?_of_kind]
  rw [edited, edited, hkeep, hsame (.rule .reroll) fun t => rule?_of_kind _,
    hsame (.rule .map) fun t => rule?_of_kind _]

/-- A run of tokens comes to all their changes at once: rules after the given ones of their kind, the first
keep unless one was set, all else as it was. On the way a token is refused if it is a second keep or no
modifier, and then it changes nothing. Tokens in another order come to the same as long as those of each
kind are in theirs. -/
theorem run_changes_by_kind {a : TermArgs} (ha : a.HasRuleLists) (ts : List Token) :
    a.run ts = a.edited ts ∧
    (∀ t f, ((Edit.apply t).run (a.run ts)).1 = .error f ↔
      (t.kind? = some .keep ∧ (a.run ts).bunch.keepMode.isAbsent = false ∧ f = .grammar .secondKeep) ∨
        (t.kind? = none ∧ f = .value (.notModifier t.described))) ∧
    (∀ t f, ((Edit.apply t).run (a.run ts)).1 = .error f → a.run (ts ++ [t]) = a.run ts) ∧
    ∀ us, (∀ kind, us.filter (·.kind? = some kind) = ts.filter (·.kind? = some kind)) → a.run us = a.run ts := by
  have hrun := run_eq_edited ha ts
  refine ⟨hrun, fun t f => ?_, fun t f hf => ?_, fun us hus => ?_⟩
  · rw [hrun]
    exact run_apply_error_iff (ha.edited ts)
  · rw [run, List.foldl_append]
    exact run_apply_of_error hf
  · rw [hrun, run_eq_edited ha us, edited_congr a hus]

def fourDice : TermArgs := { bunch := { count := .whole 4, sides := .whole 6, maps := .list [] } }

/-- Two keeps, a sign and rules of both kinds, long and short, with the rules before the keeps in another order. -/
theorem run_changes_by_kind_fourDice : fourDice.HasRuleLists ∧
    fourDice.run [.modifier (.keepBest 3), .modifier .explode, .sign .plus, .modifier (.successAtLeast 5),
      .modifier (.keep 1 .worst), .modifier (.rerollAtMost 1), .modifier (.map .lt 3 (-2) (some "miss")),
      .modifier (.reroll .eq 2 .useBest (some 7))] =
    fourDice.run [.modifier .explode, .modifier (.rerollAtMost 1), .modifier (.reroll .eq 2 .useBest (some 7)),
      .modifier (.successAtLeast 5), .modifier (.map .lt 3 (-2) (some "miss")), .modifier (.keepBest 3),
      .modifier (.keep 1 .worst)] ∧
    fourDice.run [.modifier .explode, .modifier (.rerollAtMost 1), .modifier (.reroll .eq 2 .useBest (some 7)),
      .modifier (.successAtLeast 5), .modifier (.map .lt 3 (-2) (some "miss")), .modifier (.keepBest 3),
      .modifier (.keep 1 .worst)] =
    { bunch :=
        { count := .whole 4, sides := .whole 6,
          rerolls := .list [.list [.whole 6, .text "eq", .text "add"],
            .list [.whole 1, .text "ge", .text "replace", .whole 1],
            .list [.whole 2, .text "eq", .text "use_best", .whole 7]],
          maps := .list [.list [.whole 5, .text "le", .whole 1],
            .list [.whole 3, .text "lt", .whole (-2), .text "miss"]],
          keepMode := .text "best", keepNumber := .whole 3 } } := by
  have hlists : fourDice.HasRuleLists := by
    intro kind
    cases kind with
    | reroll => exact .absent
    | map => exact .list []
  obtain ⟨hrun, -, -, horder⟩ := run_changes_by_kind hlists [.modifier .explode, .modifier (.rerollAtMost 1),
    .modifier (.reroll .eq 2 .useBest (some 7)), .modifier (.successAtLeast 5),
    .modifier (.map .lt 3 (-2) (some "miss")), .modifier (.keepBest 3), .modifier (.keep 1 .worst)]
  refine ⟨hlists, horder _ fun kind => ?_, hrun⟩
  cases kind with
  | rule kind => cases kind <;> rfl
  | keep => rfl

end TermArgs

-- ---------------------------------------------------------------------------
-- Bunches that notation describes
-- ---------------------------------------------------------------------------

def RerollSpec.parts (rule : RerollSpec) : Value :=
  .list ([.whole rule.trigger, .text rule.comparison.tag, .text rule.effect.name] ++
    (rule.limit.map Value.whole).toList)

def MapSpec.parts (rule : MapSpec) : Value :=
  .list ([.whole rule.trigger, .text rule.comparison.tag, .whole rule.value] ++
    (rule.label.map Value.text).toList)

def Value.ofRules {β : Type} (parts : β → Value) (rules : Option (List β)) : Value :=
  (rules.map fun rules => .list (rules.map parts)).getD .absent

section
variable {β : Type} (parts : β → Value) (rules : Option (List β))

theorem isRuleList_ofRules : (Value.ofRules parts rules).IsRuleList := by
  cases rules with
  | none => exact .absent
  | some rules => exact .list _

theorem addRule_ofRules (rule : β) :
    addRule (.ofRules parts rules) (parts rule) = .ok (.ofRules parts (some (rules.getD [] ++ [rule]))) := by
  cases rules <;> simp [Value.ofRules, addRule, Value.isGiven]

end

namespace BunchSpec

def args (b : BunchSpec) : TermArgs :=
  { multiplier := .whole b.multiplier
    bunch :=
      { count := .whole b.ndice
        sides := .whole b.sides
        rerolls := .ofRules RerollSpec.parts b.rerolls
        maps := .ofRules MapSpec.parts b.maps
        keepMode := (b.keepMode.map fun mode => .text mode.name).getD .absent
        keepNumber := (b.keepNumber.map Value.whole).getD .absent } }

theorem hasRuleLists (b : BunchSpec) : b.args.HasRuleLists := by
  intro kind
  cases kind <;> exact isRuleList_ofRules _ _

/-- A token does to a described bunch what it does to its parts. -/
theorem apply_args (b : BunchSpec) (t : Token) : b.args.apply t = (b.apply t).map args := by
  cases t with
  | modifier m =>
    have hreroll : ∀ rule : RerollSpec, addRule b.args.bunch.rerolls rule.parts >>=
        (fun rules => pure { b.args with bunch := { b.args.bunch with rerolls := rules } }) =
        .ok (b.addReroll rule).args := fun rule => by
      rw [args, addRule_ofRules]
      rfl
    have hmap : ∀ rule : MapSpec, addRule b.args.bunch.maps rule.parts >>=
        (fun rules => pure { b.args with bunch := { b.args.bunch with maps := rules } }) =
        .ok (b.addMap rule).args := fun rule => by
      rw [args, addRule_ofRules]
      rfl
    show b.args.modify m = ((b.modify m).mapError .grammar).map args
    unfold TermArgs.modify modify
    cases m.change with
    | explode => exact hreroll ⟨b.sides, .eq, .add, none⟩
    | reroll rule => exact hreroll rule
    | map rule => exact hmap rule
    | keep mode count =>
      unfold setKeep
      cases hmode : b.keepMode <;> simp [args, hmode] <;> rfl
  | _ => rfl

end BunchSpec

end TabletopDice
