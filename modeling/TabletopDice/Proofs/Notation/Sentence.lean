import Mathlib.Algebra.BigOperators.Group.List.Basic
import Mathlib.Algebra.Ring.Int.Defs
import Mathlib.Data.List.Induction
import TabletopDice.Proofs.Outcome
import TabletopDice.Notation.Parse

/-!
# Sentences of tokens

The tokens of a text make sense when they are phrases with a sign between each
two. What such a sentence describes is read off it here as a whole: its bunches
in order, each with its rules as they are written, and the sum of its constants.
Reading the tokens one by one comes to the same, and refuses all others.
-/

namespace TabletopDice.Notation

-- ---------------------------------------------------------------------------
-- Sentences and what they describe
-- ---------------------------------------------------------------------------

inductive Phrase where
  | constant (n : Nat)
  | dice (count sides : Nat) (modifiers : List Modifier)

def Phrase.tokens : Phrase → List Token
  | .constant n => [.constant n]
  | .dice count sides ms => .dice count sides :: ms.map .modifier

def rerollOf (sides : Nat) : Modifier → Option RerollSpec
  | .explode => some ⟨sides, .eq, .add, none⟩
  | .rerollAtMost n => some ⟨n, .ge, .replace, some 1⟩
  | .reroll o n e limit => some ⟨n, o, e, limit.map Int.ofNat⟩
  | _ => none

def mapOf : Modifier → Option MapSpec
  | .successAtLeast n => some ⟨n, .le, 1, none⟩
  | .map o n value label => some ⟨n, o, value, label⟩
  | _ => none

def keepOf : Modifier → Option (KeepMode × Nat)
  | .keepBest n => some (.best, n)
  | .keep n mode => some (mode, n)
  | _ => none

def listed {ρ : Type} : List ρ → Option (List ρ)
  | [] => none
  | rules => some rules

/-- Dice with a sign and modifiers; the first keep counts. -/
def bunchOf (s : Sign) (count sides : Nat) (ms : List Modifier) : BunchSpec where
  ndice := count
  sides := sides
  multiplier := s.factor
  rerolls := listed (ms.filterMap (rerollOf sides))
  maps := listed (ms.filterMap mapOf)
  keepMode := (ms.filterMap keepOf).head?.map Prod.fst
  keepNumber := (ms.filterMap keepOf).head?.map fun k => (k.2 : Int)

structure SignedPhrase where
  sign : Sign
  phrase : Phrase

namespace SignedPhrase

def tokens (x : SignedPhrase) : List Token := .sign x.sign :: x.phrase.tokens

def bunches (x : SignedPhrase) : List BunchSpec :=
  match x.phrase with
  | .constant _ => []
  | .dice count sides ms => [bunchOf x.sign count sides ms]

def offset (x : SignedPhrase) : Int :=
  match x.phrase with
  | .constant n => x.sign.factor * n
  | .dice .. => 0

def KeepsOnce (x : SignedPhrase) : Prop :=
  match x.phrase with
  | .constant _ => True
  | .dice _ _ ms => (ms.filterMap keepOf).length ≤ 1

end SignedPhrase

/-- A phrase that may go without a sign, and any number of phrases with one. -/
structure Sentence where
  sign : Option Sign
  first : Phrase
  more : List SignedPhrase

namespace Sentence

def phrases (s : Sentence) : List SignedPhrase := ⟨s.sign.getD .plus, s.first⟩ :: s.more

def tokens (s : Sentence) : List Token :=
  s.sign.toList.map .sign ++ (s.first.tokens ++ s.more.flatMap SignedPhrase.tokens)

def KeepsOnce (s : Sentence) : Prop := ∀ x ∈ s.phrases, x.KeepsOnce

def spec (s : Sentence) : RollSpec where
  bunches := s.phrases.flatMap SignedPhrase.bunches
  offset := (s.phrases.map SignedPhrase.offset).sum

end Sentence

-- ---------------------------------------------------------------------------
-- Modifiers
-- ---------------------------------------------------------------------------

section
variable {ρ : Type} {s : Sign} {count sides : Nat} {ms : List Modifier} {m : Modifier} {b : BunchSpec}

theorem listed_getD (rules : List ρ) : (listed rules).getD [] = rules := by
  cases rules <;> rfl

theorem listed_snoc (rules : List ρ) (rule : ρ) : listed (rules ++ [rule]) = some (rules ++ [rule]) := by
  cases rules <;> rfl

theorem modify_bunchOf (hkeep : (ms.filterMap keepOf).length ≤ 1) :
    (bunchOf s count sides ms).modify m = .ok b ↔
      ((ms ++ [m]).filterMap keepOf).length ≤ 1 ∧ bunchOf s count sides (ms ++ [m]) = b := by
  have hset : ∀ mode : KeepMode, ∀ n : Nat, keepOf m = some (mode, n) →
      (rerollOf sides m = none ∧ mapOf m = none) →
      ((bunchOf s count sides ms).setKeep mode n = .ok b ↔
        ((ms ++ [m]).filterMap keepOf).length ≤ 1 ∧ bunchOf s count sides (ms ++ [m]) = b) := by
    rintro mode n hm ⟨hreroll, hmap⟩
    cases hall : ms.filterMap keepOf with
    | nil =>
      simp [BunchSpec.setKeep, bunchOf, hall, hm, hreroll, hmap]
    | cons k ks =>
      simp [BunchSpec.setKeep, bunchOf, hall, hm, hreroll, hmap]
  cases m with
  | keepBest n => exact hset .best n rfl ⟨rfl, rfl⟩
  | keep n mode => exact hset mode n rfl ⟨rfl, rfl⟩
  | explode | rerollAtMost n | reroll o n e limit | successAtLeast n | map o n v label =>
    simp [BunchSpec.modify, Modifier.change, BunchSpec.addReroll, BunchSpec.addMap, bunchOf, rerollOf,
      mapOf, keepOf, listed_getD, listed_snoc, List.filterMap_cons, hkeep]

theorem foldlM_modify :
    ms.foldlM BunchSpec.modify (bunchOf s count sides []) = .ok b ↔
      (ms.filterMap keepOf).length ≤ 1 ∧ bunchOf s count sides ms = b := by
  induction ms using List.reverseRecOn generalizing b with
  | nil => simp [pure_ok]
  | append_singleton ms m ih =>
    simp only [List.foldlM_append, bind_ok, ih, List.foldlM_cons, List.foldlM_nil, pure_ok]
    constructor
    · rintro ⟨_, ⟨hkeep, rfl⟩, _, hb, rfl⟩
      exact (modify_bunchOf hkeep).mp hb
    · intro h
      have hkeep : (ms.filterMap keepOf).length ≤ 1 := by
        have hall := h.1
        rw [List.filterMap_append, List.length_append] at hall
        omega
      exact ⟨_, ⟨hkeep, rfl⟩, b, (modify_bunchOf hkeep).mpr h, rfl⟩

end

-- ---------------------------------------------------------------------------
-- Reading tokens one by one
-- ---------------------------------------------------------------------------

def run (p : Progress) (ts : List Token) : Except GrammarFault RollSpec := do
  (← ts.foldlM Progress.step p).finish

def Settled (ts : List Token) : Prop := ∀ m, ts.head? ≠ some (.modifier m)

section
variable {p q : Progress} {ts rest : List Token} {t : Token} {spec : RollSpec}

theorem run_nil : run p [] = p.finish := rfl

theorem run_cons : run p (t :: ts) = p.step t >>= fun p => run p ts := by
  simp only [run, List.foldlM_cons]
  cases p.step t <;> rfl

theorem run_modifiers {b : BunchSpec} (ms : List Modifier) (hp : p.current = some b) :
    run p (ms.map .modifier ++ ts) =
      ms.foldlM BunchSpec.modify b >>= fun b => run { p with current := some b } ts := by
  induction ms generalizing p b with
  | nil =>
    have hsame : { p with current := some b } = p := by rw [← hp]
    simp only [List.map_nil, List.nil_append, List.foldlM_nil]
    exact (congrArg (run · ts) hsame).symm
  | cons m ms ih =>
    rw [List.map_cons, List.cons_append, run_cons, List.foldlM_cons]
    simp only [Progress.step, hp]
    cases hm : b.modify m with
    | error f => rfl
    | ok b' => exact ih (p := { p with current := some b' }) rfl

/-- Once no modifier can follow, it does not matter which bunch is the current one. -/
theorem run_settled (h : Settled ts) :
    run p ts = run ⟨p.bunches, none, p.offset, p.sign, p.seenTerm⟩ ts := by
  have hbunches : (⟨p.bunches, none, p.offset, p.sign, p.seenTerm⟩ : Progress).bunches = p.bunches :=
    List.append_nil _
  cases ts with
  | nil => rw [run_nil, run_nil, Progress.finish, Progress.finish, hbunches]
  | cons t ts =>
    rw [run_cons, run_cons]
    cases t with
    | modifier m => exact absurd rfl (h m)
    | sign s => simp only [Progress.step, hbunches]
    | constant n => simp only [Progress.step, Progress.beginTerm, hbunches]
    | dice count sides => simp only [Progress.step, Progress.beginTerm, hbunches]

/-- What follows a sentence is read on from what has been read, and needs a sign. -/
theorem run_append (h : run p ts = .ok spec) (hrest : Settled rest) :
    run p (ts ++ rest) = run ⟨spec.bunches, none, spec.offset, none, true⟩ rest := by
  obtain ⟨q, hq, hfinish⟩ := bind_ok.mp h
  have hon : run p (ts ++ rest) = run q rest := by
    rw [run, List.foldlM_append, hq]
    rfl
  unfold Progress.finish at hfinish
  split at hfinish
  · cases hfinish
  · rename_i hsign
    split at hfinish
    · cases hfinish
    · rename_i hseen
      obtain rfl := Except.ok.inj hfinish
      have hseen : q.seenTerm = true := by simpa using hseen
      rw [hon, run_settled hrest, Option.not_isSome_iff_eq_none.mp hsign, hseen]

/-- No sentence ends in a sign. -/
theorem run_concat_sign (s : Sign) : run p (ts ++ [.sign s]) ≠ .ok spec := by
  intro h
  obtain ⟨q, hq, hfinish⟩ := bind_ok.mp h
  rw [List.foldlM_append] at hq
  obtain ⟨q', -, hstep⟩ := bind_ok.mp hq
  simp only [List.foldlM_cons, List.foldlM_nil, Progress.step] at hstep
  split at hstep
  · cases hstep
  · obtain rfl := Except.ok.inj hstep
    cases hfinish

theorem exists_modifiers (ts : List Token) : ∃ (ms : List Modifier) (rest : List Token),
    ts = ms.map .modifier ++ rest ∧ Settled rest := by
  induction ts with
  | nil => exact ⟨[], [], rfl, by simp [Settled]⟩
  | cons t ts ih =>
    obtain ⟨ms, rest, rfl, hrest⟩ := ih
    cases t with
    | modifier m => exact ⟨m :: ms, rest, rfl, hrest⟩
    | sign | constant | dice => exact ⟨[], _, rfl, by simp [Settled]⟩

section
variable {bs : List BunchSpec} {off : Int} {sign : Option Sign} {seen : Bool}

/-- Where modifiers have no dice to belong to, none can follow. -/
theorem settled_of_run (h : run ⟨bs, none, off, sign, seen⟩ ts = .ok spec) : Settled ts := by
  cases ts with
  | nil => simp [Settled]
  | cons t ts =>
    cases t with
    | modifier m => cases h
    | sign | constant | dice => simp [Settled]

theorem beginTerm_eq (hstart : sign.isSome ∨ seen = false) :
    Progress.beginTerm ⟨bs, none, off, sign, seen⟩ t =
      .ok ((sign.getD .plus).factor, ⟨bs, none, off, none, true⟩) := by
  have hmissing : (sign.isNone && seen) = false := by
    rcases hstart with h | h
    · simp [Option.isSome_iff_ne_none.mp h]
    · simp [h]
  have hbunches : (⟨bs, none, off, sign, seen⟩ : Progress).bunches = bs := List.append_nil _
  simp [Progress.beginTerm, hmissing, hbunches]

theorem run_sign (s : Sign) :
    run ⟨bs, none, off, none, seen⟩ (.sign s :: ts) = run ⟨bs, none, off, some s, seen⟩ ts := by
  have hbunches : (⟨bs, none, off, none, seen⟩ : Progress).bunches = bs := List.append_nil _
  rw [run_cons]
  simp only [Progress.step, hbunches]
  rfl

theorem run_constant (hstart : sign.isSome ∨ seen = false) (n : Nat) :
    run ⟨bs, none, off, sign, seen⟩ (.constant n :: ts) =
      run ⟨bs, none, off + (sign.getD .plus).factor * n, none, true⟩ ts := by
  rw [run_cons, Progress.step, beginTerm_eq hstart]
  rfl

theorem run_dice (hstart : sign.isSome ∨ seen = false) (count sides : Nat) :
    run ⟨bs, none, off, sign, seen⟩ (.dice count sides :: ts) =
      run ⟨bs, some (bunchOf (sign.getD .plus) count sides []), off, none, true⟩ ts := by
  rw [run_cons, Progress.step, beginTerm_eq hstart]
  rfl

/-- From where a phrase may begin to where a sign has to follow. -/
theorem run_phrase (hstart : sign.isSome ∨ seen = false) {x : SignedPhrase}
    (hx : x.sign = sign.getD .plus) (hkeep : x.KeepsOnce) (hrest : Settled rest) :
    run ⟨bs, none, off, sign, seen⟩ (x.phrase.tokens ++ rest) =
      run ⟨bs ++ x.bunches, none, off + x.offset, none, true⟩ rest := by
  obtain ⟨s, phrase⟩ := x
  dsimp only at hx
  subst hx
  cases phrase with
  | constant n =>
    simp only [Phrase.tokens, List.cons_append, List.nil_append, run_constant hstart,
      SignedPhrase.bunches, SignedPhrase.offset, List.append_nil]
  | dice count sides ms =>
    have hall : ms.foldlM BunchSpec.modify (bunchOf (sign.getD .plus) count sides []) =
        .ok (bunchOf (sign.getD .plus) count sides ms) := foldlM_modify.mpr ⟨hkeep, rfl⟩
    rw [Phrase.tokens, List.cons_append, run_dice hstart, run_modifiers ms rfl, hall]
    refine (run_settled hrest).trans ?_
    simp [Progress.bunches, SignedPhrase.bunches, SignedPhrase.offset]

theorem exists_phrase (hstart : sign.isSome ∨ seen = false)
    (hsign : sign = none → ∀ s, ts.head? ≠ some (.sign s))
    (h : run ⟨bs, none, off, sign, seen⟩ ts = .ok spec) :
    ∃ (x : SignedPhrase) (rest : List Token), x.sign = sign.getD .plus ∧ x.KeepsOnce ∧ Settled rest ∧
      ts = x.phrase.tokens ++ rest ∧
        run ⟨bs ++ x.bunches, none, off + x.offset, none, true⟩ rest = .ok spec := by
  cases ts with
  | nil =>
    rw [run_nil, Progress.finish] at h
    split at h
    · cases h
    · rename_i hnone
      rw [hstart.resolve_left hnone] at h
      cases h
  | cons t ts =>
    cases t with
    | sign s =>
      cases hs : sign with
      | none => exact absurd rfl (hsign hs s)
      | some s' =>
        rw [hs] at h
        cases h
    | modifier m => exact absurd rfl (settled_of_run h m)
    | constant n =>
      rw [run_constant hstart] at h
      refine ⟨⟨sign.getD .plus, .constant n⟩, ts, rfl, trivial, settled_of_run h, rfl, ?_⟩
      simpa [SignedPhrase.bunches, SignedPhrase.offset] using h
    | dice count sides =>
      obtain ⟨ms, rest, rfl, hrest⟩ := exists_modifiers ts
      rw [run_dice hstart, run_modifiers ms rfl] at h
      obtain ⟨b, hb, h⟩ := bind_ok.mp h
      obtain ⟨hkeep, rfl⟩ := foldlM_modify.mp hb
      refine ⟨⟨sign.getD .plus, .dice count sides ms⟩, rest, rfl, hkeep, hrest, rfl, ?_⟩
      rw [run_settled hrest] at h
      simpa [Progress.bunches, SignedPhrase.bunches, SignedPhrase.offset] using h

theorem settled_more (more : List SignedPhrase) : Settled (more.flatMap SignedPhrase.tokens) := by
  cases more <;> simp [Settled, SignedPhrase.tokens]

theorem run_more (more : List SignedPhrase) (hkeep : ∀ x ∈ more, x.KeepsOnce) :
    run ⟨bs, none, off, none, true⟩ (more.flatMap SignedPhrase.tokens) =
      .ok ⟨bs ++ more.flatMap SignedPhrase.bunches, off + (more.map SignedPhrase.offset).sum⟩ := by
  induction more generalizing bs off with
  | nil => simp [run_nil, Progress.finish, Progress.bunches]
  | cons x more ih =>
    rw [List.forall_mem_cons] at hkeep
    rw [List.flatMap_cons, SignedPhrase.tokens, List.cons_append, run_sign,
      run_phrase (.inl rfl) rfl hkeep.1 (settled_more more), ih hkeep.2]
    simp [add_assoc]

theorem exists_more (h : run ⟨bs, none, off, none, true⟩ ts = .ok spec) :
    ∃ more : List SignedPhrase, (∀ x ∈ more, x.KeepsOnce) ∧ ts = more.flatMap SignedPhrase.tokens := by
  -- by the number of tokens, of which a phrase takes several
  induction hn : ts.length using Nat.strongRecOn generalizing ts bs off with
  | _ n ih =>
    cases ts with
    | nil => exact ⟨[], by simp, rfl⟩
    | cons t ts =>
      cases t with
      | modifier m => exact absurd rfl (settled_of_run h m)
      | constant n => cases h
      | dice count sides => cases h
      | sign s =>
        rw [run_sign] at h
        obtain ⟨x, rest, hx, hkeep, -, rfl, hrest⟩ := exists_phrase (.inl rfl) (by simp) h
        have hshorter : rest.length < n := by
          rw [← hn, List.length_cons, List.length_append]
          omega
        obtain ⟨more, hmore, rfl⟩ := ih rest.length hshorter hrest rfl
        refine ⟨x :: more, List.forall_mem_cons.mpr ⟨hkeep, hmore⟩, ?_⟩
        have hs : x.sign = s := hx
        rw [List.flatMap_cons, SignedPhrase.tokens, hs]
        rfl

end

/-- Tokens are read just where they make up a sentence that keeps dice in one way at most. -/
theorem run_eq_ok : run {} ts = .ok spec ↔ ∃ s : Sentence, s.KeepsOnce ∧ s.tokens = ts ∧ s.spec = spec := by
  have hsentence : ∀ s : Sentence, s.KeepsOnce → run {} s.tokens = .ok s.spec := by
    intro s hkeep
    obtain ⟨hfirst, hmore⟩ := List.forall_mem_cons.mp hkeep
    obtain ⟨sign, first, more⟩ := s
    cases sign with
    | none =>
      refine (run_phrase (.inr rfl) rfl hfirst (settled_more more)).trans ?_
      rw [run_more more hmore]
      simp [Sentence.spec, Sentence.phrases]
    | some sign =>
      refine (run_sign sign).trans ((run_phrase (.inl rfl) rfl hfirst (settled_more more)).trans ?_)
      rw [run_more more hmore]
      simp [Sentence.spec, Sentence.phrases]
  have hexists : run {} ts = .ok spec → ∃ s : Sentence, s.KeepsOnce ∧ s.tokens = ts := by
    intro h
    by_cases hts : ∃ s rest, ts = .sign s :: rest
    · obtain ⟨s, rest, rfl⟩ := hts
      rw [run_sign] at h
      obtain ⟨x, rest', hx, hkeep, -, rfl, hrest⟩ := exists_phrase (.inl rfl) (by simp) h
      obtain ⟨more, hmore, rfl⟩ := exists_more hrest
      obtain ⟨xsign, phrase⟩ := x
      obtain rfl : xsign = s := hx
      exact ⟨⟨some xsign, phrase, more⟩, List.forall_mem_cons.mpr ⟨hkeep, hmore⟩, rfl⟩
    · have hhead : ∀ s, ts.head? ≠ some (.sign s) := by
        intro s hs
        obtain ⟨rest, rfl⟩ := List.head?_eq_some_iff.mp hs
        exact hts ⟨s, rest, rfl⟩
      obtain ⟨x, rest', hx, hkeep, -, rfl, hrest⟩ := exists_phrase (.inr rfl) (fun _ => hhead) h
      obtain ⟨more, hmore, rfl⟩ := exists_more hrest
      obtain ⟨xsign, phrase⟩ := x
      obtain rfl : xsign = .plus := hx
      exact ⟨⟨none, phrase, more⟩, List.forall_mem_cons.mpr ⟨hkeep, hmore⟩, rfl⟩
  constructor
  · intro h
    obtain ⟨s, hkeep, rfl⟩ := hexists h
    exact ⟨s, hkeep, rfl, Except.ok.inj ((hsentence s hkeep).symm.trans h)⟩
  · rintro ⟨s, hkeep, rfl, rfl⟩
    exact hsentence s hkeep

end

end TabletopDice.Notation
