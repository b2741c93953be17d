import TabletopDice.Proofs.Notation.Parse
import TabletopDice.Dice

/-!
# Dice of a text

What is read from a text is checked once more when dice are built of it. Dice
that were read are refused for a count of zero, and for a rule that rolls again
for no reason; all others are built as they were read, with the limits of their
rules filled in. No third thing can come of a text.
-/

namespace TabletopDice

-- ---------------------------------------------------------------------------
-- Constructions
-- ---------------------------------------------------------------------------

/-- A construction of something that fits, which is refused exactly if something is wrong. -/
structure Builds {β : Type} (x : Except Fault β) (wrong : Prop) (Fits : β → Prop) : Prop where
  refused : wrong → ∃ f, x = .error (.build f)
  built : ¬ wrong → ∃ b, x = .ok b ∧ Fits b

namespace Builds

section
variable {β γ δ : Type} {x : Except Fault β} {f : β → Except Fault γ} {wrong wrong' : Prop}
  {Fits : β → Prop} {Fits' : γ → Prop}

theorem pure {b : β} (h : Fits b) : Builds (.ok b) False Fits := ⟨False.elim, fun _ => ⟨b, rfl, h⟩⟩

theorem iff (h : Builds x wrong Fits) (hw : wrong ↔ wrong') : Builds x wrong' Fits :=
  ⟨fun hw' => h.refused (hw.mpr hw'), fun hw' => h.built (mt hw.mp hw')⟩

/-- What is built second is of what was built first. -/
theorem bind (hx : Builds x wrong Fits) (hf : ∀ b, Fits b → Builds (f b) wrong' Fits') :
    Builds (x >>= f) (wrong ∨ wrong') Fits' := by
  by_cases hw : wrong
  · obtain ⟨fault, rfl⟩ := hx.refused hw
    exact ⟨fun _ => ⟨fault, rfl⟩, fun hall => absurd (.inl hw) hall⟩
  · obtain ⟨b, rfl, hb⟩ := hx.built hw
    have hrest := hf b hb
    exact ⟨fun h => hrest.refused (h.resolve_left hw), fun hall => hrest.built fun hw' => hall (.inr hw')⟩

theorem mapM {f : γ → Except Fault β} {cs : List γ} {wrong : γ → Prop} {Fits : γ → β → Prop}
    (h : ∀ c ∈ cs, Builds (f c) (wrong c) (Fits c)) :
    Builds (cs.mapM f) (∃ c ∈ cs, wrong c) (List.Forall₂ Fits cs) := by
  induction cs with
  | nil => exact (pure .nil).iff (by simp)
  | cons c cs ih =>
    rw [List.forall_mem_cons] at h
    rw [List.mapM_cons]
    refine (h.1.bind fun b hb => (ih h.2).bind fun bs hbs => pure (.cons hb hbs)).iff ?_
    simp

theorem ok (h : Builds x wrong Fits) {b : β} (hb : x = .ok b) : ¬ wrong ∧ Fits b := by
  by_cases hw : wrong
  · obtain ⟨fault, hf⟩ := h.refused hw
    cases hf.symm.trans hb
  · obtain ⟨b', hb', hfits⟩ := h.built hw
    obtain rfl := Except.ok.inj (hb'.symm.trans hb)
    exact ⟨hw, hfits⟩

theorem error (h : Builds x wrong Fits) {f : Fault} (hf : x = .error f) : wrong ∧ ∃ g, f = .build g := by
  by_cases hw : wrong
  · obtain ⟨g, hg⟩ := h.refused hw
    exact ⟨hw, g, Except.error.inj (hf.symm.trans hg)⟩
  · obtain ⟨b, hb, -⟩ := h.built hw
    cases hf.symm.trans hb

end

end Builds

/-- A number that only zero can be wrong with. -/
theorem builds_positive {β : Type} {n : Int} (hn : 0 ≤ n) {f : BuildFault} {make : 0 < n.toNat → β}
    {P : β → Prop} (h : ∀ hpos, P (make hpos)) :
    Builds (if h : 0 < n.toNat then .ok (make h) else .error (.build f)) (n = 0) P := by
  split
  · rename_i hpos
    exact ⟨fun hzero => by omega, fun _ => ⟨_, rfl, h hpos⟩⟩
  · exact ⟨fun _ => ⟨f, rfl⟩, fun hne => by omega⟩

-- ---------------------------------------------------------------------------
-- Rules
-- ---------------------------------------------------------------------------

namespace RerollSpec

/-- A rule that says when to roll again, but not what for or never to. -/
def Unbuildable (r : RerollSpec) : Prop := r.limit = some 0 ∨ r.effect = .basic

/-- The rule as it is written, with a limit of 1000 unless it names one; a subtracting rule is
used once. -/
structure Describes (r : RerollSpec) (rule : RerollRule) : Prop where
  condition : rule.condition = .compares r.comparison r.trigger
  effect : rule.effect = r.effect
  limit : (rule.limit : Int) = if r.effect = .subtract then 1 else r.limit.getD 1000

theorem limit_ofChecked (c : Condition) (e : {e : Effect // e ≠ .basic}) (n : {n : Nat // 0 < n}) :
    (RerollRule.ofChecked c e n).limit = if e.1 = .subtract then 1 else n.1 := by
  unfold RerollRule.ofChecked
  split <;> simp_all

theorem condition_ofChecked (c : Condition) (e : {e : Effect // e ≠ .basic}) (n : {n : Nat // 0 < n}) :
    (RerollRule.ofChecked c e n).condition = c := by
  unfold RerollRule.ofChecked
  split <;> rfl

theorem effect_ofChecked (c : Condition) (e : {e : Effect // e ≠ .basic}) (n : {n : Nat // 0 < n}) :
    (RerollRule.ofChecked c e n).effect = e.1 := by
  unfold RerollRule.ofChecked
  split <;> rfl

theorem builds_checkEffect (e : Effect) :
    Builds (RerollRule.checkEffect e) (e = .basic) fun checked => checked.1 = e := by
  unfold RerollRule.checkEffect
  split
  · rename_i he
    exact ⟨fun _ => ⟨_, rfl⟩, fun hne => absurd he hne⟩
  · rename_i he
    exact ⟨fun heq => absurd heq he, fun _ => ⟨⟨e, he⟩, rfl, rfl⟩⟩

theorem builds_checkLimit {n : Int} (h : 0 ≤ n) :
    Builds (RerollRule.checkLimit n) (n = 0) fun checked => (checked.1 : Int) = n :=
  builds_positive h fun _ => Int.toNat_of_nonneg h

theorem builds_build {r : RerollSpec} (h : ∀ n, r.limit = some n → 0 ≤ n) :
    Builds r.build r.Unbuildable r.Describes := by
  have hlimit : 0 ≤ r.limit.getD RerollRule.defaultLimit := by
    cases hr : r.limit with
    | none => exact Int.natCast_nonneg _
    | some n => exact h n hr
  refine ((builds_checkEffect r.effect).bind fun e he => (builds_checkLimit hlimit).bind fun n hn =>
    Builds.pure (b := RerollRule.ofChecked (.compares r.comparison r.trigger) e n) ?_).iff ?_
  · refine ⟨condition_ofChecked .., (effect_ofChecked ..).trans he, ?_⟩
    rw [limit_ofChecked, he]
    split
    · rfl
    · exact hn
  · rw [or_false, or_comm]
    refine or_congr ?_ Iff.rfl
    cases r.limit with
    | none => exact iff_of_false (by decide) (by simp)
    | some n => simp

end RerollSpec

structure MapSpec.Describes (m : MapSpec) (rule : MapRule) : Prop where
  condition : rule.condition = .compares m.comparison m.trigger
  value : rule.mapped.value = m.value
  label : rule.mapped.label = m.label.getD ""

theorem MapSpec.describes_build (m : MapSpec) : m.Describes m.build := ⟨rfl, rfl, rfl⟩

-- ---------------------------------------------------------------------------
-- Bunches
-- ---------------------------------------------------------------------------

namespace BunchSpec

def Unbuildable (b : BunchSpec) : Prop :=
  b.ndice = 0 ∨ b.sides = 0 ∨ b.keepNumber = some 0 ∨ ∃ r ∈ b.rerolls.getD [], r.Unbuildable

structure Describes (b : BunchSpec) (t : Term) : Prop where
  multiplier : t.multiplier = b.multiplier
  count : (t.bunch.count : Int) = b.ndice
  sides : (t.bunch.die.sides : Int) = b.sides
  rerolls : List.Forall₂ RerollSpec.Describes (b.rerolls.getD []) t.bunch.die.rerolls
  maps : List.Forall₂ MapSpec.Describes (b.maps.getD []) t.bunch.die.maps
  keepMode : t.bunch.keep.map Keep.mode = b.keepMode
  keepNumber : (t.bunch.keep.map fun k => (k.count : Int)) = b.keepNumber

/-- What can be read: no number is negative, and a number of dice to keep goes with a mode. -/
structure Readable (b : BunchSpec) : Prop where
  ndice : 0 ≤ b.ndice
  sides : 0 ≤ b.sides
  keep : ∃ k : Option (KeepMode × Nat), b.keepMode = k.map Prod.fst ∧
    b.keepNumber = k.map fun k => (k.2 : Int)
  limits : ∀ r ∈ b.rerolls.getD [], ∀ n, r.limit = some n → 0 ≤ n

theorem readable_bunchOf (s : Sign) (count sides : Nat) (ms : List Modifier) :
    (Notation.bunchOf s count sides ms).Readable where
  ndice := Int.natCast_nonneg count
  sides := Int.natCast_nonneg sides
  keep := ⟨(ms.filterMap Notation.keepOf).head?, rfl, rfl⟩
  limits := by
    intro r hr n hn
    simp only [Notation.bunchOf, Notation.listed_getD, List.mem_filterMap] at hr
    obtain ⟨m, -, hm⟩ := hr
    cases m with
    | explode =>
      obtain rfl := Option.some.inj hm
      cases hn
    | rerollAtMost m =>
      obtain rfl := Option.some.inj hm
      obtain rfl := Option.some.inj hn
      decide
    | reroll o m e limit =>
      obtain rfl := Option.some.inj hm
      obtain ⟨k, -, rfl⟩ := Option.map_eq_some_iff.mp hn
      exact Int.natCast_nonneg k
    | keepBest | successAtLeast | map | keep => cases hm

theorem builds_checkCount {n : Int} (h : 0 ≤ n) :
    Builds (Bunch.checkCount n) (n = 0) fun checked => (checked.1 : Int) = n :=
  builds_positive h fun _ => Int.toNat_of_nonneg h

theorem builds_die {sides : Int} (h : 0 ≤ sides) :
    Builds (Die.of sides) (sides = 0) fun die => (die.sides : Int) = sides :=
  builds_positive h fun _ => Int.toNat_of_nonneg h

theorem builds_keepOf (mode : KeepMode) (n : Nat) :
    Builds (Keep.of mode n) ((n : Int) = 0) fun keep => keep.mode = mode ∧ keep.count = n :=
  builds_positive (Int.natCast_nonneg n) fun _ => ⟨rfl, Int.toNat_natCast n⟩

theorem builds_ofSpecs {sides : Int} {rerolls : List RerollSpec} {maps : List MapSpec} (h : 0 ≤ sides)
    (hlimits : ∀ r ∈ rerolls, ∀ n, r.limit = some n → 0 ≤ n) :
    Builds (RuledDie.ofSpecs sides rerolls maps) (sides = 0 ∨ ∃ r ∈ rerolls, r.Unbuildable) fun die =>
      (die.sides : Int) = sides ∧ List.Forall₂ RerollSpec.Describes rerolls die.rerolls ∧
        List.Forall₂ MapSpec.Describes maps die.maps := by
  have hmaps : List.Forall₂ MapSpec.Describes maps (maps.map MapSpec.build) :=
    List.forall₂_map_right_iff.mpr (List.forall₂_same.mpr fun m _ => m.describes_build)
  refine ((builds_die h).bind fun die hdie =>
    (Builds.mapM fun r hr => RerollSpec.builds_build (hlimits r hr)).bind fun rules hrules =>
      Builds.pure (b := (⟨die, rules, maps.map MapSpec.build⟩ : RuledDie)) ?_).iff (by rw [or_false])
  exact ⟨hdie, hrules, hmaps⟩

theorem builds_keep (k : Option (KeepMode × Nat)) :
    Builds ((k.map Prod.fst).mapM fun mode => Keep.of mode ((k.map fun k => (k.2 : Int)).getD 1))
      ((k.map fun k => (k.2 : Int)) = some 0) fun keep =>
        keep.map Keep.mode = k.map Prod.fst ∧
          (keep.map fun kept => (kept.count : Int)) = k.map fun k => (k.2 : Int) := by
  cases k with
  | none => exact ⟨fun h => by simp at h, fun _ => ⟨none, rfl, rfl, rfl⟩⟩
  | some k =>
    obtain ⟨mode, n⟩ := k
    refine ((builds_keepOf mode n).bind fun keep hkeep => Builds.pure (b := some keep) ?_).iff (by simp)
    simp [hkeep.1, hkeep.2]

theorem builds_ofSpec {b : BunchSpec} (h : b.Readable) :
    Builds (Bunch.ofSpec b) b.Unbuildable fun bunch => b.Describes ⟨b.multiplier, bunch⟩ := by
  obtain ⟨k, hmode, hnumber⟩ := h.keep
  have hkeep := builds_keep k
  rw [← hmode, ← hnumber] at hkeep
  refine ((builds_checkCount h.ndice).bind fun count hcount =>
    (builds_ofSpecs h.sides h.limits).bind fun die hdie => hkeep.bind fun keep hkeep =>
      Builds.pure (b := (⟨count.1, count.2, die, keep⟩ : Bunch)) ?_).iff ?_
  · exact ⟨rfl, hcount, hdie.1, hdie.2.1, hdie.2.2, hkeep.1, hkeep.2⟩
  · rw [or_false, or_assoc]
    exact or_congr_right (or_congr_right or_comm)

end BunchSpec

-- ---------------------------------------------------------------------------
-- Texts
-- ---------------------------------------------------------------------------

theorem readable_of_parse {text : String} {spec : RollSpec} (h : Notation.parse text = .ok spec) :
    ∀ b ∈ spec.bunches, b.Readable := by
  obtain ⟨ts, -, hrun⟩ := Notation.parse_eq_ok.mp h
  obtain ⟨s, -, -, rfl⟩ := Notation.run_eq_ok.mp hrun
  intro b hb
  obtain ⟨⟨sign, phrase⟩, -, hb⟩ := List.mem_flatMap.mp hb
  cases phrase with
  | constant n => cases hb
  | dice count sides ms =>
    obtain rfl := List.mem_singleton.mp hb
    exact BunchSpec.readable_bunchOf sign count sides ms

namespace RollSpec

structure Describes (s : RollSpec) (d : Dice) : Prop where
  terms : List.Forall₂ BunchSpec.Describes s.bunches d.terms
  offset : d.offset = s.offset

theorem builds_ofSpec {s : RollSpec} (h : ∀ b ∈ s.bunches, b.Readable) :
    Builds (Dice.ofSpec s) (∃ b ∈ s.bunches, b.Unbuildable) s.Describes := by
  have hterm : ∀ b ∈ s.bunches, Builds (do return (⟨b.multiplier, ← Bunch.ofSpec b⟩ : Term))
      b.Unbuildable b.Describes := fun b hb =>
    ((BunchSpec.builds_ofSpec (h b hb)).bind fun bunch hbunch =>
      Builds.pure (b := (⟨b.multiplier, bunch⟩ : Term)) hbunch).iff (by rw [or_false])
  refine ((Builds.mapM hterm).bind fun terms hterms =>
    Builds.pure (b := (⟨terms, s.offset⟩ : Dice)) ?_).iff (by rw [or_false])
  exact ⟨hterms, rfl⟩

end RollSpec

namespace Dice

variable {text : String}

theorem create_of_parse {spec : RollSpec} (h : Notation.parse text = .ok spec) : create text = ofSpec spec := by
  rw [create, h]
  rfl

theorem create_of_not_parse {f : GrammarFault} (h : Notation.parse text = .error f) :
    create text = .error (.grammar f) := by
  rw [create, h]
  rfl

theorem create_ok : create text = .ok d ↔ ∃ spec, Notation.parse text = .ok spec ∧ ofSpec spec = .ok d := by
  constructor
  · intro h
    cases hparse : Notation.parse text with
    | error f =>
      rw [create_of_not_parse hparse] at h
      cases h
    | ok spec => exact ⟨spec, rfl, create_of_parse hparse ▸ h⟩
  · rintro ⟨spec, hparse, hspec⟩
    rw [create_of_parse hparse, hspec]

theorem create_trimText (text : String) : create (Notation.trimText text) = create text := by
  rw [create, create, Notation.parse_trimText]

/-- A text is dice, is not dice notation, or describes dice that cannot be built, which are those
with a zero where there cannot be one and those with a rule that rolls again for no reason. Dice
are built as they are written. -/
theorem create_outcomes (text : String) :
    ((∃ d, create text = .ok d) ∨ (∃ f, create text = .error (.grammar f)) ∨
      ∃ f, create text = .error (.build f)) ∧
    (∀ f, create text = .error (.grammar f) ↔ Notation.parse text = .error f) ∧
    ((∃ f, create text = .error (.build f)) ↔
      ∃ spec, Notation.parse text = .ok spec ∧ ∃ b ∈ spec.bunches, b.ndice = 0 ∨ b.sides = 0 ∨
        b.keepNumber = some 0 ∨ ∃ r ∈ b.rerolls.getD [], r.limit = some 0 ∨ r.effect = .basic) ∧
    (∀ d, create text = .ok d → ∃ spec, Notation.parse text = .ok spec ∧ spec.Describes d) ∧
    ∀ read ∈ Notation.classReaders, ∀ cs f, read cs = .error f → Notation.IsMismatch f := by
  cases hparse : Notation.parse text with
  | error g =>
    rw [create_of_not_parse hparse]
    refine ⟨.inr (.inl ⟨g, rfl⟩), fun f => by simp, by simp, by simp, Notation.mismatches_classReaders⟩
  | ok spec =>
    have hbuilds := RollSpec.builds_ofSpec (readable_of_parse hparse)
    rw [create_of_parse hparse]
    refine ⟨?_, fun f => ?_, ?_, fun d hd => ⟨spec, rfl, (hbuilds.ok hd).2⟩, Notation.mismatches_classReaders⟩
    · cases hd : ofSpec spec with
      | ok d => exact .inl ⟨d, rfl⟩
      | error f =>
        obtain ⟨-, g, rfl⟩ := hbuilds.error hd
        exact .inr (.inr ⟨g, rfl⟩)
    · refine iff_of_false (fun hf => ?_) (by simp)
      obtain ⟨-, g, hg⟩ := hbuilds.error hf
      cases hg
    · constructor
      · rintro ⟨f, hf⟩
        exact ⟨spec, rfl, (hbuilds.error hf).1⟩
      · rintro ⟨_, ⟨⟩, hwrong⟩
        exact hbuilds.refused hwrong

/-- Three, less the better of two dice on which a one is rolled again and a six takes the next roll
away. -/
def betterOfTwo : Dice where
  terms := [{
    multiplier := -1
    bunch := {
      count := 2
      count_pos := by decide
      die := {
        sides := 6
        sides_pos := by decide
        rerolls := [⟨.compares .ge 1, .replace, 1, by decide, by decide, by decide⟩,
          ⟨.compares .eq 6, .subtract, 1, by decide, by decide, by decide⟩]
        maps := [] }
      keep := some ⟨.best, 1, by decide⟩ } }]
  offset := 3

theorem create_outcomes_betterOfTwo : create "3-2d6r1r:6,subtract,9.k1" = .ok betterOfTwo ∧
    ∃ spec, Notation.parse "3-2d6r1r:6,subtract,9.k1" = .ok spec ∧ spec.Describes betterOfTwo := by
  have hcreate : create "3-2d6r1r:6,subtract,9.k1" = .ok betterOfTwo :=
    ok_of_toOption (by decide +kernel)
  exact ⟨hcreate, (create_outcomes "3-2d6r1r:6,subtract,9.k1").2.2.2.1 betterOfTwo hcreate⟩

end Dice

end TabletopDice
