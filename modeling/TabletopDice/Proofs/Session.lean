import TabletopDice.Proofs.Dice.Created
import TabletopDice.Proofs.Odds.Faults
import TabletopDice.Proofs.Odds.Refusal
import TabletopDice.Proofs.Roll.Shown
import TabletopDice.Session

/-!
# Where sessions stop

A session goes on after every line that is answered, be it with a report or
with what is wrong with the line. What stops it, beside the word exit, are
numbers: a report with a number that is too long to be written, and odds that
the numbers they are worked out with do not carry. Over fractions the latter
are all gone.
-/

namespace TabletopDice

-- ---------------------------------------------------------------------------
-- Reports
-- ---------------------------------------------------------------------------

theorem Wording.write_of_writable {w : Wording} (h : w.Writable) : w.write = .ok w.text := if_pos h

theorem Wording.write_of_not_writable {w : Wording} (h : ¬ w.Writable) :
    w.write = .error (.value .unworded) := if_neg h

theorem Wording.writable_number (n : Int) : Wording.Writable [.number n] ↔ Decimal.Writable n := by
  simp [Writable, Piece.Writable]

/-- What there is to tell about a text that stands for no dice is always told. -/
theorem Dice.reported_of_create {text : String} {f : Fault} (h : Dice.create text = .error f) :
    f.isReported ∧ ∃ m, f.message = some m := by
  cases hparse : Notation.parse text with
  | error g =>
    rw [Dice.create_of_not_parse hparse] at h
    obtain rfl := Except.error.inj h
    exact ⟨rfl, _, rfl⟩
  | ok spec =>
    rw [Dice.create_of_parse hparse] at h
    obtain ⟨-, g, rfl⟩ := (RollSpec.builds_ofSpec (readable_of_parse hparse)).error h
    exact ⟨rfl, _, rfl⟩

namespace Report

section
variable {α : Type} [Mass α] {style : Style} {d : Dice} {p : Distribution α}

def oddsEntry (e : Int × α) : String :=
  Decimal.padLeft 6 ' ' (Decimal.writeInt e.1) ++ ": " ++ Decimal.padLeft 8 ' ' (Mass.percent 4 e.2)

def oddsText (style : Style) (p : Distribution α) (mean : α) (complete : Bool) : String :=
  "\n".intercalate (p.entries.map oddsEntry ++
    ("Expected: " ++ (style.bold [.words (Mass.fixed 4 mean)]).text) ::
      if complete then [] else ["Rare outcomes of open-ended rerolls are approximated."])

theorem oddsLine_of_writable {e : Int × α} (h : Decimal.Writable e.1) : oddsLine e = .ok (oddsEntry e) := by
  have htext : Wording.text [.number e.1] = Decimal.writeInt e.1 := by simp [Wording.text, Piece.text]
  rw [oddsLine, Wording.write_of_writable ((Wording.writable_number e.1).mpr h), htext]
  rfl

theorem oddsLine_of_not_writable {e : Int × α} (h : ¬ Decimal.Writable e.1) :
    oddsLine e = .error (.value .unworded) := by
  rw [oddsLine, Wording.write_of_not_writable (mt (Wording.writable_number e.1).mp h)]
  rfl

theorem oddsLines_of_writable (h : ∀ e ∈ p.entries, Decimal.Writable e.1) :
    p.entries.mapM oddsLine = .ok (p.entries.map oddsEntry) :=
  ok_mapM (List.forall₂_map_right_iff.mpr (List.forall₂_same.mpr fun e he => oddsLine_of_writable (h e he)))

theorem oddsLines_of_not_writable {e : Int × α} (he : e ∈ p.entries) (h : ¬ Decimal.Writable e.1) :
    p.entries.mapM oddsLine = .error (.value .unworded) := by
  have hfails : FailsAs (· = Fault.value .unworded) (p.entries.mapM oddsLine) := .mapM fun e _ => by
    by_cases hw : Decimal.Writable e.1
    · rw [oddsLine_of_writable hw]
      exact .ok _
    · rw [oddsLine_of_not_writable hw]
      exact .error rfl
  cases hlines : p.entries.mapM oddsLine with
  | error f => rw [hfails f hlines]
  | ok lines =>
    obtain ⟨i, hi⟩ := List.getElem?_of_mem he
    obtain ⟨line, hline, -⟩ := mapM_ok_getElem? hlines hi
    rw [oddsLine_of_not_writable h] at hline
    cases hline

theorem odds_of_not_distribution {f : Fault} (h : (d.distribution : Except Fault (Distribution α)) = .error f) :
    odds style d α = .error f := by
  rw [odds, h]
  rfl

section
variable (hp : d.distribution = .ok p)
include hp

theorem odds_of_not_writable {e : Int × α} (he : e ∈ p.entries) (h : ¬ Decimal.Writable e.1) :
    odds style d α = .error (.value .unworded) := by
  rw [odds, hp, ok_bind, oddsLines_of_not_writable he h]
  rfl

variable (hw : ∀ e ∈ p.entries, Decimal.Writable e.1)
include hw

theorem odds_of_not_mean {f : Fault} (h : p.mean = .error f) : odds style d α = .error f := by
  rw [odds, hp, ok_bind, oddsLines_of_writable hw, ok_bind, h]
  rfl

theorem odds_of_mean {mean : α} {complete : Bool} (hm : p.mean = .ok mean) (hc : d.isComplete α = .ok complete) :
    odds style d α = .ok (oddsText style p mean complete) := by
  rw [odds, hp, ok_bind, oddsLines_of_writable hw, ok_bind, hm, ok_bind, hc, oddsText]
  cases complete <;> rfl

end

end

end Report

namespace Session

-- ---------------------------------------------------------------------------
-- Lines
-- ---------------------------------------------------------------------------

inductive Line where
  | exit | blank
  | roll (text : String)
  | odds (text : String)

def readLine (line : String) : Line :=
  let cs := normalize line
  if isWithin "exit".toList cs then .exit
  else
    match cs with
    | [] => .blank
    | '?' :: rest => .odds (String.ofList rest)
    | cs => .roll (String.ofList cs)

theorem isWithin_iff {word cs : List Char} : isWithin word cs ↔ word <:+: cs := by
  induction cs with
  | nil => simp [isWithin]
  | cons c cs ih => simp [isWithin, List.infix_cons_iff, ih]

theorem readLine_cases {text : String} (hexit : isWithin "exit".toList (normalize text) = false)
    (hne : normalize text ≠ []) :
    (∃ rest, normalize text = '?' :: rest ∧ readLine text = .odds (String.ofList rest)) ∨
      (∀ rest, normalize text ≠ '?' :: rest) ∧ readLine text = .roll (String.ofList (normalize text)) := by
  unfold readLine
  generalize normalize text = cs at hexit hne
  dsimp only
  rw [hexit]
  cases cs with
  | nil => exact absurd rfl hne
  | cons c rest =>
    by_cases hc : c = '?'
    · subst hc
      exact .inl ⟨rest, rfl, rfl⟩
    · exact .inr ⟨by simp [hc], by simp [hc]⟩

def answer {m : Type → Type} [Monad m] (α : Type) [Mass α] (draw : Nat → m Int) : Line → m Reply
  | .exit => pure .quit
  | .blank => pure .nothing
  | .odds text => pure (Reply.of (reportOdds .ansi text α))
  | .roll text => return Reply.of (← evaluate draw .ansi text)

theorem reply_eq {m : Type → Type} [Monad m] (α : Type) [Mass α] (draw : Nat → m Int) (line : String) :
    reply α draw line = answer α draw (readLine line) := by
  unfold reply readLine
  generalize normalize line = cs
  dsimp only
  split
  · rfl
  · cases cs with
    | nil => rfl
    | cons c rest =>
      by_cases hodds : c = '?'
      · subst hodds
        rfl
      · simp [hodds, answer]

-- ---------------------------------------------------------------------------
-- Runs
-- ---------------------------------------------------------------------------

section
variable {σ : Type} (α : Type) [Mass α] (draw : Nat → StateM σ Int)

/-- How a line is answered: what is printed, and the state of the draws afterwards. -/
inductive Answers (s : σ) (line : String) : σ → List String → Prop
  | blank (h : readLine line = .blank) : Answers s line s []
  | roll {text : String} {d : Dice} (h : readLine line = .roll text) (hd : Dice.create text = .ok d)
      (hw : (Report.roll .ansi d (some (d.roll draw s).1)).Writable) :
      Answers s line (d.roll draw s).2 [(Report.roll .ansi d (some (d.roll draw s).1)).text]
  | odds {text : String} {d : Dice} {p : Distribution α} {mean : α} {complete : Bool}
      (h : readLine line = .odds text) (hd : Dice.create text = .ok d) (hp : d.distribution = .ok p)
      (hw : ∀ e ∈ p.entries, Decimal.Writable e.1) (hm : p.mean = .ok mean)
      (hc : d.isComplete α = .ok complete) : Answers s line s [Report.oddsText .ansi p mean complete]
  | wrong {text m : String} {f : Fault} (h : readLine line = .roll text ∨ readLine line = .odds text)
      (hd : Dice.create text = .error f) (hm : f.message = some m) : Answers s line s ["Error: " ++ m]
  | limit {text : String} {d : Dice} {l : LimitFault} (h : readLine line = .odds text)
      (hd : Dice.create text = .ok d)
      (hl : (d.distribution : Except Fault (Distribution α)) = .error (.limit l)) :
      Answers s line s ["Error: " ++ l.message]

/-- Why a line stops a session: the number of a roll or of a result is too long, or the numbers that masses are
carry no distribution or no mean. -/
inductive Breaks (s : σ) (line : String) : Fault → Prop
  | roll {text : String} {d : Dice} (h : readLine line = .roll text) (hd : Dice.create text = .ok d)
      (hw : ¬ (Report.roll .ansi d (some (d.roll draw s).1)).Writable) : Breaks s line (.value .unworded)
  | odds {text : String} {d : Dice} {f : Fault} (h : readLine line = .odds text)
      (hd : Dice.create text = .ok d) (hp : (d.distribution : Except Fault (Distribution α)) = .error f)
      (hf : NumberFault α d f) : Breaks s line f
  | result {text : String} {d : Dice} {p : Distribution α} {e : Int × α} (h : readLine line = .odds text)
      (hd : Dice.create text = .ok d) (hp : d.distribution = .ok p) (he : e ∈ p.entries)
      (hw : ¬ Decimal.Writable e.1) : Breaks s line (.value .unworded)
  | mean {text : String} {d : Dice} {p : Distribution α} {f : Fault} (h : readLine line = .odds text)
      (hd : Dice.create text = .ok d) (hp : d.distribution = .ok p)
      (hw : ∀ e ∈ p.entries, Decimal.Writable e.1) (hm : p.mean = .error f) (hf : NumberFault α d f) :
      Breaks s line f

/-- A run of a session: lines are answered in turn until one says exit or breaks it. -/
inductive Runs : σ → List String → Transcript → Prop
  | done {s : σ} : Runs s [] {}
  | exit {s : σ} {line : String} {rest : List String} (h : readLine line = .exit) : Runs s (line :: rest) {}
  | answered {s s' : σ} {line : String} {rest printed : List String} {t : Transcript}
      (h : Answers α draw s line s' printed) (ht : Runs s' rest t) :
      Runs s (line :: rest) { t with lines := printed ++ t.lines }
  | broken {s : σ} {line : String} {rest : List String} {f : Fault} (h : Breaks α draw s line f) :
      Runs s (line :: rest) { fault := some f }

-- ---------------------------------------------------------------------------
-- One line
-- ---------------------------------------------------------------------------

variable {α} {draw} {s s' : σ} {line text : String} {printed : List String}
variable {d : Dice} {t : Transcript} {f : Fault}

theorem reply_exit (h : readLine line = .exit) : reply α draw line s = (.quit, s) := by
  rw [reply_eq, h]
  rfl

theorem reply_blank (h : readLine line = .blank) : reply α draw line s = (.nothing, s) := by
  rw [reply_eq, h]
  rfl

theorem reply_roll (h : readLine line = .roll text) (hd : Dice.create text = .ok d) :
    reply α draw line s =
      (Reply.of (Report.roll .ansi d (some (d.roll draw s).1)).write, (d.roll draw s).2) := by
  rw [reply_eq, h, answer, evaluate, hd]
  rfl

theorem reply_odds (h : readLine line = .odds text) (hd : Dice.create text = .ok d) :
    reply α draw line s = (Reply.of (Report.odds .ansi d α), s) := by
  rw [reply_eq, h, answer, reportOdds, hd]
  rfl

theorem reply_wrong (h : readLine line = .roll text ∨ readLine line = .odds text)
    (hd : Dice.create text = .error f) : reply α draw line s = (Reply.of (.error f), s) := by
  rcases h with h | h
  · rw [reply_eq, h, answer, evaluate, hd]
    rfl
  · rw [reply_eq, h, answer, reportOdds, hd]
    rfl

theorem Reply.of_reported {m : String} (h : f.isReported) (hm : f.message = some m) :
    Reply.of (.error f) = .line ("Error: " ++ m) := by
  rw [Reply.of, faultLine, if_pos h, hm]
  rfl

theorem Reply.of_not_reported (h : f.isReported = false) : Reply.of (.error f) = .failure f := by
  rw [Reply.of, faultLine, h]
  rfl

theorem Answers.reply (h : Answers α draw s line s' printed) :
    Session.reply α draw line s = (.nothing, s') ∧ printed = [] ∨
      ∃ shown, Session.reply α draw line s = (.line shown, s') ∧ printed = [shown] := by
  cases h with
  | blank h => exact .inl ⟨reply_blank h, rfl⟩
  | roll h hd hw =>
    refine .inr ⟨_, ?_, rfl⟩
    rw [reply_roll h hd, Wording.write_of_writable hw]
    rfl
  | odds h hd hp hw hm hc =>
    refine .inr ⟨_, ?_, rfl⟩
    rw [reply_odds h hd, Report.odds_of_mean hp hw hm hc]
    rfl
  | wrong h hd hm =>
    refine .inr ⟨_, ?_, rfl⟩
    rw [reply_wrong h hd, Reply.of_reported (Dice.reported_of_create hd).1 hm]
  | limit h hd hl =>
    refine .inr ⟨_, ?_, rfl⟩
    rw [reply_odds h hd, Report.odds_of_not_distribution hl]
    rfl

theorem Breaks.reply (h : Breaks α draw s line f) : ∃ s', Session.reply α draw line s = (.failure f, s') := by
  cases h with
  | @roll text d h hd hw =>
    refine ⟨(d.roll draw s).2, ?_⟩
    rw [reply_roll h hd, Wording.write_of_not_writable hw]
    rfl
  | odds h hd hp hf =>
    refine ⟨s, ?_⟩
    rw [reply_odds h hd, Report.odds_of_not_distribution hp, Reply.of_not_reported hf.not_reported]
  | result h hd hp he hw =>
    refine ⟨s, ?_⟩
    rw [reply_odds h hd, Report.odds_of_not_writable hp he hw]
    rfl
  | mean h hd hp hw hm hf =>
    refine ⟨s, ?_⟩
    rw [reply_odds h hd, Report.odds_of_not_mean hp hw hm, Reply.of_not_reported hf.not_reported]

theorem odds_cases (draw : Nat → StateM σ Int) (s : σ) (h : readLine line = .odds text)
    (hd : Dice.create text = .ok d) :
    (∃ printed, Answers α draw s line s printed) ∨ ∃ f, Breaks α draw s line f := by
  cases hp : (d.distribution : Except Fault (Distribution α)) with
  | error f =>
    rcases d.failsAs_distribution f hp with ⟨l, rfl⟩ | hf
    · exact .inl ⟨_, .limit h hd hp⟩
    · exact .inr ⟨f, .odds h hd hp hf⟩
  | ok p =>
    by_cases hw : ∀ e ∈ p.entries, Decimal.Writable e.1
    · cases hm : p.mean with
      | error f => exact .inr ⟨f, .mean h hd hp hw hm (Dice.failsAs_mean hp f hm)⟩
      | ok mean =>
        obtain ⟨complete, hc⟩ := Dice.exists_isComplete hp
        exact .inl ⟨_, .odds h hd hp hw hm hc⟩
    · push Not at hw
      obtain ⟨e, he, hw⟩ := hw
      exact .inr ⟨_, .result h hd hp he hw⟩

/-- A line says exit, is answered or breaks the session. -/
theorem line_cases (α : Type) [Mass α] (draw : Nat → StateM σ Int) (s : σ) (line : String) :
    readLine line = .exit ∨ (∃ s' printed, Answers α draw s line s' printed) ∨ ∃ f, Breaks α draw s line f := by
  have hwrong : ∀ {text f}, readLine line = .roll text ∨ readLine line = .odds text →
      Dice.create text = .error f → ∃ s' printed, Answers α draw s line s' printed := by
    intro text f h hd
    obtain ⟨-, m, hm⟩ := Dice.reported_of_create hd
    exact ⟨_, _, .wrong h hd hm⟩
  cases h : readLine line with
  | exit => exact .inl rfl
  | blank => exact .inr (.inl ⟨_, _, .blank h⟩)
  | roll text =>
    cases hd : Dice.create text with
    | error f => exact .inr (.inl (hwrong (.inl h) hd))
    | ok d =>
      by_cases hw : (Report.roll .ansi d (some (d.roll draw s).1)).Writable
      · exact .inr (.inl ⟨_, _, .roll h hd hw⟩)
      · exact .inr (.inr ⟨_, .roll h hd hw⟩)
  | odds text =>
    cases hd : Dice.create text with
    | error f => exact .inr (.inl (hwrong (.inr h) hd))
    | ok d =>
      rcases odds_cases (α := α) draw s h hd with ⟨printed, ha⟩ | hb
      · exact .inr (.inl ⟨s, printed, ha⟩)
      · exact .inr (.inr hb)

-- ---------------------------------------------------------------------------
-- All lines
-- ---------------------------------------------------------------------------

theorem exists_runs (α : Type) [Mass α] (draw : Nat → StateM σ Int) (s : σ) (lines : List String) :
    ∃ t, Runs α draw s lines t := by
  induction lines generalizing s with
  | nil => exact ⟨_, .done⟩
  | cons line rest ih =>
    rcases line_cases α draw s line with h | ⟨s', printed, h⟩ | ⟨f, h⟩
    · exact ⟨_, .exit h⟩
    · obtain ⟨t, ht⟩ := ih s'
      exact ⟨_, .answered h ht⟩
    · exact ⟨_, .broken h⟩

theorem Runs.run {lines : List String} (h : Runs α draw s lines t) : (Session.run α draw lines s).1 = t := by
  induction h with
  | done => rfl
  | exit h =>
    simp only [Session.run, bind, StateT.bind, reply_exit h]
    rfl
  | answered h ht ih =>
    rcases h.reply with ⟨hreply, rfl⟩ | ⟨shown, hreply, rfl⟩
    · simp only [Session.run, bind, StateT.bind, hreply]
      exact ih
    · simp only [Session.run, bind, StateT.bind, hreply, ← ih]
      rfl
  | broken h =>
    obtain ⟨s', hreply⟩ := h.reply
    simp only [Session.run, bind, StateT.bind, hreply]
    rfl

/-- A session, over masses of any kind, runs on until a line says exit or breaks it: a roll that shows too long
a number, or odds that its masses do not carry. Dice that show no such number are always rolled, and over
fractions dice have odds and a mean unless they are too large for them. -/
theorem run_eq_iff (α : Type) [Mass α] (draw : Nat → StateM σ Int) (s : σ) (lines : List String)
    (t : Transcript) : ((run α draw lines s).1 = t ↔ Runs α draw s lines t) ∧
      (DrawsInRange draw → ∀ d : Dice, d.mostShown < Nat.pow 10 Decimal.digitLimit →
        Returns (fun r => (Report.roll .ansi d (some r)).Writable) (d.roll draw)) ∧
      ∀ d : Dice, (∃ p x, (d.distribution : Except Fault (Distribution Rat)) = .ok p ∧ p.mean = .ok x) ∨
        ∃ l, (d.distribution : Except Fault (Distribution Rat)) = .error (.limit l) := by
  refine ⟨⟨?_, Runs.run⟩, fun hdraw d hd s => ?_, fun d => ?_⟩
  · rintro rfl
    obtain ⟨t, ht⟩ := exists_runs α draw s lines
    rw [ht.run]
    exact ht
  · exact Wording.writable_of_upTo (Dice.returns_report hdraw .ansi s) hd
  · rcases d.distribution_cases with ⟨p, hp⟩ | h
    · obtain ⟨x, hx⟩ := p.exists_mean
      exact .inl ⟨p, x, hp, hx⟩
    · exact .inr h

end

-- ---------------------------------------------------------------------------
-- A sum that is one digit too long
-- ---------------------------------------------------------------------------

def nines (k : Nat) : List Char := List.replicate k '9'

def twoNines (k : Nat) : List Char := nines k ++ '+' :: nines k

theorem ofDigits_nines (k : Nat) : Nat.ofDigits 10 (List.replicate k 9) + 1 = 10 ^ k := by
  induction k with
  | zero => rfl
  | succ k ih =>
    rw [List.replicate_succ, Nat.ofDigits_cons, pow_succ]
    omega

variable {k : Nat}

theorem isNumber_nines (hk : 0 < k) : Notation.IsNumber (nines k) (10 ^ k - 1) where
  ne_nil := by simp [nines, hk.ne']
  all c hc := List.eq_of_mem_replicate hc ▸ rfl
  value := by
    rw [nines, List.map_replicate, List.reverse_replicate]
    exact Nat.eq_sub_of_add_eq (ofDigits_nines k)

theorem plain_nines (hle : k ≤ Decimal.digitLimit) : Notation.Plain (nines k) where
  ascii c hc := List.eq_of_mem_replicate hc ▸ by decide
  short ds hin _ := (hin.length_le.trans_eq List.length_replicate).trans hle

theorem digits_nines (hk : 0 < k) : Notation.Digits (nines k) where
  ne_nil := (isNumber_nines hk).ne_nil
  all c hc := List.eq_of_mem_replicate hc ▸ by decide

theorem not_blank_nines : ∀ c ∈ nines k, Text.isBlank c = false := fun _ hc =>
  List.eq_of_mem_replicate hc ▸ by decide

theorem fragments_twoNines (hk : 0 < k) : Notation.fragments (twoNines k) = [nines k, ['+'], nines k] := by
  have hnines : ∀ rest, Notation.Ends Decimal.isDigit rest → Notation.Ends (Text.sameLetter 'd') rest →
      Notation.fragments (nines k ++ rest) = nines k :: Notation.fragments rest := fun rest hdigit hletter =>
    Notation.fragments_append (isNumber_nines hk).ne_nil not_blank_nines
      (Notation.fragmentLength_number (digits_nines hk) hdigit hletter)
  have hplusDigit : Decimal.isDigit '+' = false := Text.isDigit_eq_false (by decide)
  have hplus : Notation.fragments (['+'] ++ nines k) = ['+'] :: Notation.fragments (nines k) :=
    Notation.fragments_append (List.cons_ne_nil _ _) (List.forall_mem_singleton.mpr (by decide))
      (Notation.fragmentLength_single (by decide) hplusDigit)
  have hlast := hnines [] (by simp [Notation.Ends]) (by simp [Notation.Ends])
  rw [List.append_nil] at hlast
  rw [twoNines, hnines ('+' :: nines k) (Notation.ends_cons.mpr hplusDigit) (Notation.ends_cons.mpr (by decide))]
  refine congrArg (nines k :: ·) (hplus.trans ?_)
  rw [hlast]
  rfl

theorem create_twoNines (hk : 0 < k) (hle : k ≤ Decimal.digitLimit) :
    Dice.create (String.ofList (twoNines k)) =
      .ok { terms := [], offset := ((10 ^ k - 1 : Nat) + (10 ^ k - 1 : Nat) : Int) } := by
  have hread : Notation.readToken (nines k) = .ok (.constant (10 ^ k - 1)) :=
    (Notation.readToken_eq_ok (plain_nines hle) not_blank_nines).mpr (.constant (isNumber_nines hk))
  have htokens : Notation.tokenize (String.ofList (twoNines k)) =
      .ok [.constant (10 ^ k - 1), .sign .plus, .constant (10 ^ k - 1)] := by
    rw [Notation.tokenize_eq_ok, String.toList_ofList, fragments_twoNines hk]
    exact .cons hread (.cons rfl (.cons hread .nil))
  generalize 10 ^ k - 1 = n at htokens
  have hparse : Notation.parse (String.ofList (twoNines k)) = .ok { bunches := [], offset := n + n } := by
    refine Notation.parse_eq_ok.mpr ⟨_, htokens, ?_⟩
    show Except.ok ({ bunches := [], offset := 0 + 1 * (n : Int) + 1 * n } : RollSpec) = _
    rw [Int.zero_add, Int.one_mul]
  rw [Dice.create_of_parse hparse]
  rfl

theorem not_writable_twoNines (hk : 0 < Decimal.digitLimit) : ¬ Decimal.Writable
    ((10 ^ Decimal.digitLimit - 1 : Nat) + (10 ^ Decimal.digitLimit - 1 : Nat) : Int) := by
  unfold Decimal.Writable
  generalize Decimal.digitLimit = k at hk
  have hmany : 1 < 10 ^ k := Nat.one_lt_pow hk.ne' (by decide)
  rw [Nat.pow_eq, ← Int.natCast_add, Int.natAbs_natCast]
  omega

theorem mem_twoNines {c : Char} (hc : c ∈ twoNines k) : c = '9' ∨ c = '+' := by
  rw [twoNines, List.mem_append, List.mem_cons] at hc
  rcases hc with hc | rfl | hc
  · exact .inl (List.eq_of_mem_replicate hc)
  · exact .inr rfl
  · exact .inl (List.eq_of_mem_replicate hc)

theorem normalize_twoNines : normalize (String.ofList (twoNines k)) = twoNines k := by
  have hplain : ∀ c ∈ twoNines k, Text.isBlank c = false ∧ Text.IsAscii c ∧ c.toLower = c := fun c hc => by
    rcases mem_twoNines hc with rfl | rfl <;> decide
  have htrim : Text.trim (twoNines k) = twoNines k := Text.strip_of_forall_not fun c hc => (hplain c hc).1
  rw [normalize, String.toList_ofList, htrim, Text.lower_ascii fun c hc => (hplain c hc).2.1]
  exact (List.map_congr_left fun c hc => (hplain c hc).2.2).trans (List.map_id _)

theorem readLine_twoNines (hk : 0 < k) :
    readLine (String.ofList (twoNines k)) = .roll (String.ofList (twoNines k)) := by
  have hexit : isWithin "exit".toList (twoNines k) = false := by
    have hnot : 'e' ∉ twoNines k := fun hc => by
      rcases mem_twoNines hc with h | h <;> exact absurd h (by decide)
    exact Bool.eq_false_iff.mpr fun h => hnot ((isWithin_iff.mp h).subset (by decide))
  obtain ⟨k, rfl⟩ := Nat.exists_eq_succ_of_ne_zero hk.ne'
  simp only [readLine, normalize_twoNines, hexit]
  rfl

-- ---------------------------------------------------------------------------
-- Shares that come to more than one
-- ---------------------------------------------------------------------------

def nineSides : Dice where
  terms := [{
    bunch := {
      count := 1
      count_pos := Nat.one_pos
      die := RuledDie.surely 9 (Nat.succ_pos 8) } }]

theorem not_distribution_nineSides :
    ∃ f, (nineSides.distribution : Except Fault (Distribution Rounded)) = .error (.value f) := by
  have hmapped : ∀ face ∈ (RuledDie.surely 9 (Nat.succ_pos 8)).faces,
      ((RuledDie.surely 9 (Nat.succ_pos 8)).mapTotal face).value = 1 := by decide
  have habove : 1 < copies 9 (Chains.share (RuledDie.surely 9 (Nat.succ_pos 8)) 1) := by decide +kernel
  obtain ⟨f, hf⟩ := (RuledDie.refused_iff_of_isEmpty (by decide) rfl).mpr ⟨rfl, ⟨1, hmapped⟩, habove⟩
  refine ⟨f, ?_⟩
  simp only [Dice.distribution, nineSides, List.foldlM_cons, Bunch.odds, hf, error_bind]

/-- Two sessions that end before their last line: over fractions of 53 digits at odds whose shares come to more
than one, and over doubles at a sum that is one digit too long. -/
theorem run_eq_iff_broken :
    (∃ f, (run (m := StateM Unit) Rounded (fun _ => pure 0) ["?1d9m1", "1d6"] ()).1 =
      { fault := some (.value f) }) ∧
    (run (m := StateM Unit) Float (fun _ => pure 0) [String.ofList (twoNines Decimal.digitLimit), "1d6"] ()).1 =
      { fault := some (.value .unworded) } := by
  constructor
  · have hcreate : Dice.create "1d9m1" = .ok nineSides := ok_of_toOption (by decide)
    obtain ⟨f, hf⟩ := not_distribution_nineSides
    refine ⟨f, (run_eq_iff Rounded _ () _ _).1.mpr (.broken (.odds rfl hcreate hf ?_))⟩
    exact (nineSides.failsAs_distribution _ hf).resolve_left fun ⟨l, hl⟩ => by cases hl
  · refine (run_eq_iff Float _ () _ _).1.mpr (.broken (.roll (readLine_twoNines (by decide))
      (create_twoNines (by decide) le_rfl) fun hw => ?_))
    have hlong := hw (.number _) (List.mem_append_right _ (List.mem_cons_of_mem _ (List.mem_singleton_self _)))
    exact not_writable_twoNines (by decide) hlong

end Session

end TabletopDice
