import TabletopDice.Proofs.Dice.Created
import TabletopDice.Proofs.Notation.Clause
import TabletopDice.Proofs.Roll.Idle

/-!
# Dice with clauses

The rules of dice made of a text, against the clauses that are written after
them. Every clause has its rule, in the order in which they are written, and
among those that speak of the same face or total the first one decides.
-/

namespace TabletopDice.Notation

-- ---------------------------------------------------------------------------
-- Lists side by side
-- ---------------------------------------------------------------------------

section
variable {β γ δ : Type} {R : β → γ → Prop} {S : γ → δ → Prop} {T : β → δ → Prop}

theorem forall₂_trans (h : ∀ {b c d}, R b c → S c d → T b d) {bs : List β} {cs : List γ} {ds : List δ}
    (hR : List.Forall₂ R bs cs) (hS : List.Forall₂ S cs ds) : List.Forall₂ T bs ds := by
  induction hR generalizing ds with
  | nil =>
    cases hS
    exact .nil
  | cons hbc _ ih =>
    cases hS with
    | cons hcd hS => exact .cons (h hbc hcd) (ih hS)

theorem exists_of_forall₂_append {bs : List β} {cs cs' : List γ} (h : List.Forall₂ R bs (cs ++ cs')) :
    ∃ left right, bs = left ++ right ∧ List.Forall₂ R left cs ∧ List.Forall₂ R right cs' :=
  ⟨_, _, (List.take_append_drop cs.length bs).symm, List.forall₂_take_append bs cs cs' h,
    List.forall₂_drop_append bs cs cs' h⟩

theorem exists_of_append_forall₂ {bs bs' : List β} {cs : List γ} (h : List.Forall₂ R (bs ++ bs') cs) :
    ∃ left right, cs = left ++ right ∧ List.Forall₂ R bs left ∧ List.Forall₂ R bs' right := by
  obtain ⟨left, right, hcs, hleft, hright⟩ := exists_of_forall₂_append h.flip
  exact ⟨left, right, hcs, hleft.flip, hright.flip⟩

end

-- ---------------------------------------------------------------------------
-- Rules of clauses
-- ---------------------------------------------------------------------------

/-- The rule of a clause; a clause without a limit is good for a thousand rolls, and one that
subtracts for one. -/
structure RerollClause.Fits (c : RerollClause) (rule : RerollRule) : Prop where
  applies : ∀ v, rule.applies v ↔ c.fires v
  effect : rule.effect = c.effect
  limit : rule.limit = if c.effect = .subtract then 1 else c.limit.getD 1000

structure MapClause.Fits (c : MapClause) (rule : MapRule) : Prop where
  map_eq_some : ∀ v mapped, rule.map? v = some mapped ↔ c.fires v ∧ mapped = c.mapped

/-- A clause speaks of a face that was rolled; one that subtracts only of the first. -/
def RerollClause.Answers (c : RerollClause) (face : Int) (isFirst : Bool) : Prop :=
  c.fires face ∧ (c.effect = .subtract → isFirst)

theorem RerollClause.Agrees.fits {c : RerollClause} {s : RerollSpec} {rule : RerollRule} (h : c.Agrees s)
    (hrule : s.Describes rule) : c.Fits rule where
  applies v := by
    rw [RerollRule.applies, hrule.condition]
    exact h.fires v
  effect := hrule.effect.trans h.effect
  limit := by
    have hlimit := hrule.limit
    rw [h.effect, h.limit] at hlimit
    split
    · rename_i hsubtract
      rw [if_pos hsubtract] at hlimit
      exact_mod_cast hlimit
    · rename_i hsubtract
      rw [if_neg hsubtract] at hlimit
      cases hc : c.limit with
      | none =>
        rw [hc] at hlimit
        exact Int.ofNat_inj.mp hlimit
      | some n =>
        rw [hc] at hlimit
        exact Int.ofNat_inj.mp hlimit

theorem MapClause.Agrees.fits {c : MapClause} {s : MapSpec} {rule : MapRule} (h : c.Agrees s)
    (hrule : s.Describes rule) : c.Fits rule where
  map_eq_some v mapped := by
    have hmapped : rule.mapped = c.mapped := by
      have hvalue := hrule.value.trans h.value
      have hlabel := hrule.label.trans h.label
      cases hr : rule.mapped
      cases hc : c.mapped
      simp_all
    have hfires : rule.condition.holds v ↔ c.fires v := by
      rw [hrule.condition]
      exact h.fires v
    rw [MapRule.map?, Option.ite_none_right_eq_some, hfires, hmapped, Option.some_inj, eq_comm (a := mapped)]

theorem RerollClause.Fits.answers_iff {c : RerollClause} {rule : RerollRule} (h : c.Fits rule) (face : Int)
    (isFirst : Bool) : rule.answers face isFirst ↔ c.Answers face isFirst := by
  simp only [RerollRule.answers, Answers, Bool.and_eq_true, Bool.or_eq_true, decide_eq_true_eq, h.applies,
    h.effect, and_comm, imp_iff_not_or]

theorem RerollClause.Fits.unused {c : RerollClause} {rule : RerollRule} (h : c.Fits rule) {face : Int}
    {isFirst : Bool} {uses : Nat} (hnone : c.Answers face isFirst → uses = 0) :
    (rule.answers face isFirst && decide (0 < uses)) = false := by
  rw [Bool.and_eq_false_imp, h.answers_iff]
  intro hc
  simpa using hnone hc

theorem MapClause.Fits.idle {c : MapClause} {rule : MapRule} (h : c.Fits rule) {v : Int}
    (hc : ¬ c.fires v) : rule.map? v = none :=
  Option.eq_none_iff_forall_ne_some.mpr fun mapped hmapped => hc ((h.map_eq_some v mapped).mp hmapped).1

-- ---------------------------------------------------------------------------
-- The clause that decides
-- ---------------------------------------------------------------------------

section
variable {face v : Int} {isFirst : Bool} {rules : List RerollRule} {maps : List MapRule}

/-- A clause with uses left is used when none before it both speaks of the face and has any left. -/
theorem useRule_of_fits {before after : List RerollClause} {c : RerollClause} {used rest : List Nat}
    {uses : Nat} (h : List.Forall₂ RerollClause.Fits (before ++ c :: after) rules)
    (hlen : used.length = before.length) (hc : c.Answers face isFirst)
    (hbefore : ∀ e ∈ before.zip used, e.1.Answers face isFirst → e.2 = 0) :
    useRule rules (used ++ (uses + 1) :: rest) face isFirst = some (c.effect, used ++ uses :: rest) := by
  induction before generalizing rules used with
  | nil =>
    obtain rfl := List.length_eq_zero_iff.mp hlen
    cases h with
    | cons hrule hrules =>
      have hanswers := (hrule.answers_iff face isFirst).mpr hc
      rw [List.nil_append, useRule_cons, hanswers, hrule.effect]
      rfl
  | cons b before ih =>
    obtain ⟨u, used, rfl⟩ := List.exists_cons_of_length_eq_add_one hlen
    cases h with
    | @cons _ rule _ rules hrule hrules =>
      rw [List.zip_cons_cons, List.forall_mem_cons] at hbefore
      rw [List.cons_append, useRule_cons, hrule.unused hbefore.1, ih hrules (Nat.succ.inj hlen) hbefore.2]
      rfl

theorem useRule_eq_none_of_fits {clauses : List RerollClause} {left : List Nat}
    (h : List.Forall₂ RerollClause.Fits clauses rules)
    (hnone : ∀ e ∈ clauses.zip left, e.1.Answers face isFirst → e.2 = 0) :
    useRule rules left face isFirst = none := by
  induction h generalizing left with
  | nil => cases left <;> rfl
  | @cons c rule clauses rules hrule hrules ih =>
    cases left with
    | nil => rfl
    | cons u left =>
      rw [List.zip_cons_cons, List.forall_mem_cons] at hnone
      rw [useRule_cons, hrule.unused hnone.1, ih hnone.2]
      rfl

theorem findSome?_of_fits {before after : List MapClause} {c : MapClause}
    (h : List.Forall₂ MapClause.Fits (before ++ c :: after) maps) (hc : c.fires v)
    (hbefore : ∀ b ∈ before, ¬ b.fires v) : maps.findSome? (·.map? v) = some c.mapped := by
  induction before generalizing maps with
  | nil =>
    cases h with
    | cons hrule hrules => rw [List.findSome?_cons, (hrule.map_eq_some v _).mpr ⟨hc, rfl⟩]
  | cons b before ih =>
    rw [List.forall_mem_cons] at hbefore
    cases h with
    | @cons _ rule _ maps hrule hrules =>
      rw [List.findSome?_cons, hrule.idle hbefore.1]
      exact ih hrules hbefore.2

theorem findSome?_eq_none_of_fits {clauses : List MapClause}
    (h : List.Forall₂ MapClause.Fits clauses maps) (hnone : ∀ c ∈ clauses, ¬ c.fires v) :
    maps.findSome? (·.map? v) = none := by
  induction h with
  | nil => rfl
  | @cons c rule clauses maps hrule hrules ih =>
    rw [List.forall_mem_cons] at hnone
    rw [List.findSome?_cons, hrule.idle hnone.1]
    exact ih hnone.2

end

-- ---------------------------------------------------------------------------
-- Dice and their clauses
-- ---------------------------------------------------------------------------

/-- Every clause has its rule, in the order of the clauses. -/
structure Follows (clauses : List Clause) (die : RuledDie) : Prop where
  rerolls : List.Forall₂ RerollClause.Fits (clauses.filterMap Clause.reroll?) die.rerolls
  maps : List.Forall₂ MapClause.Fits (clauses.filterMap Clause.map?) die.maps

/-- Of the clauses that speak of a face and have uses left the first one is used, and of those that
speak of a total the first one maps it. -/
structure FirstDecides (clauses : List Clause) (die : RuledDie) : Prop where
  reroll : ∀ {before c after used uses rest face isFirst},
    clauses.filterMap Clause.reroll? = before ++ c :: after → used.length = before.length →
    c.Answers face isFirst → (∀ e ∈ before.zip used, e.1.Answers face isFirst → e.2 = 0) →
    useRule die.rerolls (used ++ (uses + 1) :: rest) face isFirst = some (c.effect, used ++ uses :: rest)
  no_reroll : ∀ {left face isFirst},
    (∀ e ∈ (clauses.filterMap Clause.reroll?).zip left, e.1.Answers face isFirst → e.2 = 0) →
    useRule die.rerolls left face isFirst = none
  map : ∀ {before c after total}, clauses.filterMap Clause.map? = before ++ c :: after →
    c.fires total → (∀ b ∈ before, ¬ b.fires total) → die.mapTotal total = c.mapped
  no_map : ∀ {total}, (∀ c ∈ clauses.filterMap Clause.map?, ¬ c.fires total) → die.mapTotal total = {}

theorem Follows.firstDecides {clauses : List Clause} {die : RuledDie} (h : Follows clauses die) :
    FirstDecides clauses die where
  reroll hsplit hlen hc hbefore := useRule_of_fits (hsplit ▸ h.rerolls) hlen hc hbefore
  no_reroll hnone := useRule_eq_none_of_fits h.rerolls hnone
  map hsplit hc hbefore := by
    rw [RuledDie.mapTotal, findSome?_of_fits (hsplit ▸ h.maps) hc hbefore]
    rfl
  no_map hnone := by
    rw [RuledDie.mapTotal, findSome?_eq_none_of_fits h.maps hnone]
    rfl

/-- A phrase with the dice that are built of it, if it is one of dice; its modifiers read as these
clauses and no others. -/
inductive PhraseBuilds : List (List Char) → List Term → Prop
  | constant {ds n} (hn : Numeral ds n) : PhraseBuilds [ds] []
  | dice {dice count sides modifiers clauses t} (hdice : WritesDice dice count sides)
      (hcount : t.bunch.count = count) (hsides : t.bunch.die.sides = sides)
      (hreads : List.Forall₂ (Reads sides) modifiers clauses)
      (honly : ∀ {others}, List.Forall₂ (Reads sides) modifiers others → others = clauses)
      (hfollows : Follows clauses t.bunch.die) (hfirst : FirstDecides clauses t.bunch.die) :
      PhraseBuilds (dice :: modifiers) [t]

inductive MoreBuild : List (List Char) → List Term → Prop
  | nil : MoreBuild [] []
  | cons {mark ps ts pieces terms} (hmark : mark = ['+'] ∨ mark = ['-']) (hphrase : PhraseBuilds ps ts)
      (hmore : MoreBuild pieces terms) : MoreBuild (mark :: (ps ++ pieces)) (ts ++ terms)

inductive TextBuilds : List (List Char) → List Term → Prop
  | unsigned {ps ts pieces terms} (hphrase : PhraseBuilds ps ts) (hmore : MoreBuild pieces terms) :
      TextBuilds (ps ++ pieces) (ts ++ terms)
  | signed {mark ps ts pieces terms} (hmark : mark = ['+'] ∨ mark = ['-']) (hphrase : PhraseBuilds ps ts)
      (hmore : MoreBuild pieces terms) : TextBuilds (mark :: (ps ++ pieces)) (ts ++ terms)

section
variable {pieces : List (List Char)} {terms : List Term} {ms : List Modifier}

/-- Modifiers ask together for what their clauses do. -/
theorem exists_clauses (sides : Nat)
    (h : List.Forall₂ (fun cs m => ∃ clause, Reads sides cs clause ∧ clause.Agrees sides m) pieces ms) :
    ∃ clauses, List.Forall₂ (Reads sides) pieces clauses ∧
      List.Forall₂ (fun clause m => clause.Agrees sides m) clauses ms := by
  induction h with
  | nil => exact ⟨[], .nil, .nil⟩
  | cons hpiece _ ih =>
    obtain ⟨clause, hreads, hagrees⟩ := hpiece
    obtain ⟨clauses, hall, hall'⟩ := ih
    exact ⟨clause :: clauses, .cons hreads hall, .cons hagrees hall'⟩

theorem follows_of_agrees {s : Sign} {count sides : Nat} {clauses : List Clause} {t : Term}
    (h : List.Forall₂ (fun clause m => clause.Agrees sides m) clauses ms)
    (hterm : (bunchOf s count sides ms).Describes t) : Follows clauses t.bunch.die := by
  have hrerolls := hterm.rerolls
  have hmaps := hterm.maps
  simp only [bunchOf, listed_getD] at hrerolls hmaps
  have hasked : List.Forall₂ RerollClause.Agrees (clauses.filterMap Clause.reroll?)
      (ms.filterMap (rerollOf sides)) := List.rel_filterMap (fun _ _ hm => hm.reroll) h
  have hasked' : List.Forall₂ MapClause.Agrees (clauses.filterMap Clause.map?) (ms.filterMap mapOf) :=
    List.rel_filterMap (fun _ _ hm => hm.map) h
  exact ⟨forall₂_trans (fun hs hrule => hs.fits hrule) hasked hrerolls,
    forall₂_trans (fun hs hrule => hs.fits hrule) hasked' hmaps⟩

theorem phraseBuilds {x : SignedPhrase} (h : List.Forall₂ Piece pieces x.phrase.tokens)
    (hterms : List.Forall₂ BunchSpec.Describes x.bunches terms) : PhraseBuilds pieces terms := by
  obtain ⟨s, phrase⟩ := x
  cases phrase with
  | constant n =>
    cases hterms
    cases h with
    | cons hpiece hnone =>
      cases hnone
      cases hpiece with
      | constant hn => exact .constant hn
  | dice count sides ms =>
    cases hterms with
    | @cons _ t _ _ hterm hnone =>
      cases hnone
      cases h with
      | cons hpiece hmodifiers =>
        cases hpiece with
        | dice hdice =>
          have hasks := (List.forall₂_map_right_iff.mp hmodifiers).imp fun cs m hm => by
            cases hm with
            | modifier hall => exact hall sides
          obtain ⟨clauses, hreads, hagrees⟩ := exists_clauses sides hasks
          have hfollows := follows_of_agrees hagrees hterm
          have hunique : Relator.RightUnique (Reads sides) := fun _ _ _ h h' => h.unique h'
          exact .dice hdice (Int.ofNat_inj.mp hterm.count) (Int.ofNat_inj.mp hterm.sides) hreads
            (fun hothers => List.right_unique_forall₂' hunique hothers hreads) hfollows
            hfollows.firstDecides

theorem mark_of_piece {cs : List Char} {s : Sign} (h : Piece cs (.sign s)) : cs = ['+'] ∨ cs = ['-'] := by
  cases h with
  | plus => exact .inl rfl
  | minus => exact .inr rfl

theorem moreBuild {more : List SignedPhrase}
    (h : List.Forall₂ Piece pieces (more.flatMap SignedPhrase.tokens))
    (hterms : List.Forall₂ BunchSpec.Describes (more.flatMap SignedPhrase.bunches) terms) :
    MoreBuild pieces terms := by
  induction more generalizing pieces terms with
  | nil =>
    cases h
    cases hterms
    exact .nil
  | cons x more ih =>
    rw [List.flatMap_cons] at h hterms
    obtain ⟨ts, terms, rfl, hts, hterms⟩ := exists_of_append_forall₂ hterms
    obtain ⟨signed, pieces, rfl, hsigned, hpieces⟩ := exists_of_forall₂_append h
    cases hsigned with
    | cons hmark hphrase => exact .cons (mark_of_piece hmark) (phraseBuilds hphrase hts) (ih hpieces hterms)

theorem textBuilds {s : Sentence} (h : List.Forall₂ Piece pieces s.tokens)
    (hterms : List.Forall₂ BunchSpec.Describes s.spec.bunches terms) : TextBuilds pieces terms := by
  obtain ⟨sign, first, more⟩ := s
  obtain ⟨ts, terms, rfl, hts, hterms⟩ := exists_of_append_forall₂ hterms
  have hphrases : ∀ {pieces}, List.Forall₂ Piece pieces (first.tokens ++ more.flatMap SignedPhrase.tokens) →
      ∃ ps rest, pieces = ps ++ rest ∧ PhraseBuilds ps ts ∧ MoreBuild rest terms := by
    intro pieces h
    obtain ⟨ps, rest, hpieces, hfirst, hrest⟩ := exists_of_forall₂_append h
    exact ⟨ps, rest, hpieces, phraseBuilds (x := ⟨sign.getD .plus, first⟩) hfirst hts, moreBuild hrest hterms⟩
  cases sign with
  | none =>
    obtain ⟨ps, rest, rfl, hphrase, hmore⟩ := hphrases h
    exact .unsigned hphrase hmore
  | some sign =>
    cases h with
    | cons hmark h =>
      obtain ⟨ps, rest, rfl, hphrase, hmore⟩ := hphrases h
      exact .signed (mark_of_piece hmark) hphrase hmore

end

/-- A text that is dice is phrases, and the modifiers after dice are the rules of these dice: each
fires where it says, does what it says, and comes before the rules of those written after it. -/
theorem create_follows_clauses {text : String} {d : Dice} (h : Dice.create text = .ok d) :
    Spaced (fragments text.toList) text.toList ∧ TextBuilds (fragments text.toList) d.terms := by
  obtain ⟨spec, hparse, hspec⟩ := Dice.create_ok.mp h
  obtain ⟨ts, htokens, hrun⟩ := parse_eq_ok.mp hparse
  obtain ⟨s, -, rfl, rfl⟩ := run_eq_ok.mp hrun
  have hpieces : List.Forall₂ Piece (fragments text.toList) s.tokens :=
    ((List.forall₂_and_left _ _).mpr ⟨fun piece hpiece => (shape_of_mem_fragments hpiece).not_blank,
      tokenize_eq_ok.mp htokens⟩).imp fun piece t hread => piece_of_readToken hread.1 hread.2
  have hdescribes := ((RollSpec.builds_ofSpec (readable_of_parse hparse)).ok hspec).2
  exact ⟨spaced_fragments _, textBuilds hpieces hdescribes.terms⟩

/-- Two dice that explode on an eight and roll anything below three again for the worst of the two, three
times at most; a total of five or more is a hit, which the clause after it cannot take back. -/
def explodingHits : Dice where
  terms := [{
    multiplier := 1
    bunch := {
      count := 2
      count_pos := Nat.two_pos
      die := {
        sides := 8
        sides_pos := by decide
        rerolls := [⟨.compares .eq 8, .add, 1000, by decide, by decide, by decide⟩,
          ⟨.compares .gt 3, .useWorst, 3, by decide, by decide, by decide⟩]
        maps := [⟨.compares .le 5, ⟨1, "hit"⟩⟩, ⟨.compares .eq 5, ⟨-2, ""⟩⟩] }
      keep := none } }]
  offset := 0

theorem create_follows_clauses_explodingHits :
    Dice.create "2d8 x r:<3,use_worst,3. m:>=5,1,hit. m:5,-2." = .ok explodingHits ∧
      TextBuilds (fragments "2d8 x r:<3,use_worst,3. m:>=5,1,hit. m:5,-2.".toList) explodingHits.terms := by
  have hcreate : Dice.create "2d8 x r:<3,use_worst,3. m:>=5,1,hit. m:5,-2." = .ok explodingHits :=
    ok_of_toOption (by decide +kernel)
  exact ⟨hcreate, (create_follows_clauses hcreate).2⟩

end TabletopDice.Notation
