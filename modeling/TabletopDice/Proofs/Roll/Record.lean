import TabletopDice.Proofs.Outcome
import TabletopDice.Roll.Loose

/-!
# What histories record

The total of a history can be told from what it records: it is what its rolls
come to when each joins the ones before it by its recorded reason. A reason is
recorded as it was applied, so that nothing is added any more once a later roll
has been subtracted. All this outlasts every step, also those that fail. It is
shown of ledgers, which hold every part of a history apart from the others, and
so of the histories that they are the parts of.
-/

namespace TabletopDice

def Effect.joins (total roll : Int) : Effect → Int
  | .basic | .replace => roll
  | .add => total + roll
  | .subtract => total - roll
  | .useBest => max total roll
  | .useWorst => min total roll

/-- What rolls come to, one after another. The first one is the total, whatever its reason. -/
def totalOf (rolls : List Int) (reasons : List Effect) : Option Int :=
  match rolls.zip reasons with
  | [] => none
  | first :: later => some (later.foldl (fun total e => e.2.joins total e.1) first.1)

theorem totalOf_concat {rolls : List Int} {reasons : List Effect} (h : rolls.length = reasons.length)
    (roll : Int) (reason : Effect) : totalOf (rolls ++ [roll]) (reasons ++ [reason]) =
      some (((totalOf rolls reasons).map (reason.joins · roll)).getD roll) := by
  unfold totalOf
  rw [List.zip_append h]
  cases rolls.zip reasons with
  | nil => rfl
  | cons first later => simp

theorem isSome_totalOf {rolls : List Int} {reasons : List Effect} (h : rolls.length = reasons.length) :
    (totalOf rolls reasons).isSome ↔ reasons ≠ [] := by
  unfold totalOf
  cases rolls with
  | nil => simp [List.eq_nil_of_length_eq_zero h.symm]
  | cons roll rolls =>
    cases reasons with
    | nil => cases h
    | cons reason reasons => simp

-- ---------------------------------------------------------------------------
-- Recorded rolls
-- ---------------------------------------------------------------------------

namespace Running

theorem joined_eq (s : Running) (roll : Int) (reason : Effect) :
    s.joined roll reason = (s.total.map ((s.applied reason).joins · roll)).getD roll := by
  unfold joined
  cases s.total with
  | none => rfl
  | some total => cases s.applied reason <;> rfl

theorem applied_ne_add {s : Running} (h : s.subtracting) (reason : Effect) : s.applied reason ≠ .add := by
  unfold applied
  split
  · exact Effect.noConfusion
  · rename_i hadd
    simpa [h] using hadd

end Running

/-- Nothing is added after a later roll has been subtracted. -/
def Reversed (reasons : List Effect) : Prop :=
  (reasons.drop 1).Pairwise fun earlier later => earlier = .subtract → later ≠ .add

/-- The running total is that of the recorded rolls, and additions subtract exactly if a roll after the
first one has been subtracted. -/
structure Recorded (rolls : List Int) (reasons : List Effect) (s : Running) : Prop where
  lengths : rolls.length = reasons.length
  total : s.total = totalOf rolls reasons
  subtracting : s.subtracting ↔ .subtract ∈ reasons.drop 1
  reversed : Reversed reasons

theorem recorded_nil : Recorded [] [] {} := ⟨rfl, rfl, by decide, .nil⟩

theorem Recorded.concat {rolls : List Int} {reasons : List Effect} {s : Running} (h : Recorded rolls reasons s)
    (roll : Int) (reason : Effect) :
    Recorded (rolls ++ [roll]) (reasons ++ [s.applied reason]) (s.join roll reason) := by
  have hsome := isSome_totalOf h.lengths
  rw [← h.total] at hsome
  refine ⟨by simp [h.lengths], ?_, ?_, ?_⟩
  · rw [totalOf_concat h.lengths, ← h.total, ← Running.joined_eq]
    rfl
  · show (s.subtracting || (s.total.isSome && decide (s.applied reason = .subtract))) = true ↔ _
    -- A subtraction counts from the second roll on, where there is a total before it.
    rw [Bool.or_eq_true, Bool.and_eq_true, hsome, h.subtracting, decide_eq_true_eq]
    cases reasons with
    | nil => simp
    | cons first later => simp [eq_comm]
  · have hreversed := h.reversed
    have hsubtracting := h.subtracting
    unfold Reversed at hreversed ⊢
    cases reasons with
    | nil => exact .nil
    | cons first later =>
      refine List.pairwise_append.mpr
        ⟨hreversed, List.pairwise_singleton .., fun earlier hearlier later' hlater => ?_⟩
      -- The roll that joins is the only new pair, and after a subtraction it is no addition.
      obtain rfl := List.mem_singleton.mp hlater
      rintro rfl
      exact Running.applied_ne_add (hsubtracting.mpr hearlier) reason

namespace History

def reasons (h : History) : List Effect := h.steps.toList.map (·.reason)

theorem rolls_add (h : History) (roll : Int) (reason : Effect) :
    (h.add roll reason).rolls = h.rolls ++ [roll] := by
  simp [rolls, add]

theorem reasons_add (h : History) (roll : Int) (reason : Effect) :
    (h.add roll reason).reasons = h.reasons ++ [h.running.applied reason] := by
  simp [reasons, add]

end History

-- ---------------------------------------------------------------------------
-- Steps
-- ---------------------------------------------------------------------------

namespace LooseHistory

/-- Adds a roll in place, field by field. The roll is read once for the total, and again to be recorded
when the total is there already. -/
def addInPlace (roll reason : Value) : ExceptT Fault (StateM LooseHistory) Unit := do
  let n ← ofExcept roll.toWhole
  let e ← ofExcept (Effect.ofValue reason)
  let applied := (← get).rolled.running.applied e
  modify fun h => { h with rolled := { h.rolled with running := h.rolled.running.join n e } }
  let n ← ofExcept roll.toWhole
  modify fun h => { h with rolled := { h.rolled with steps := h.rolled.steps.push ⟨n, applied⟩ } }
  modify fun h => { rolled := { h.rolled with mapped := none } }

inductive Step where
  | roll (roll reason : Value)
  | map (mapped : LooseMapped)

def take : Step → ExceptT Fault (StateM LooseHistory) Unit
  | .roll roll reason => addInPlace roll reason
  | .map mapped => modify fun h => h.map mapped

def after (h : LooseHistory) (step : Step) : LooseHistory := ((take step).run h).2

def run (h : LooseHistory) (steps : List Step) : LooseHistory := steps.foldl after h

/-- What a history shows fits what it records: there is a reason for each roll, the total is what the
rolls come to, nothing is added after a later roll has been subtracted, and unless it has been mapped
the value is the total and has no label. -/
structure Consistent (h : LooseHistory) : Prop where
  lengths : h.rolled.rolls.length = h.rolled.reasons.length
  total : h.rolled.total = totalOf h.rolled.rolls h.rolled.reasons
  reversed : (h.rolled.reasons.drop 1).Pairwise fun earlier later => earlier = .subtract → later ≠ .add
  value : h.mapped.isNone → h.value = (h.rolled.total.map Value.whole).getD .absent
  label : h.mapped.isNone → h.label = .text ""

variable {h h' : LooseHistory} {roll reason : Value}

theorem add_ok : h.add roll reason = .ok h' ↔ ∃ n e, roll.toWhole = .ok n ∧ Effect.ofValue reason = .ok e ∧
    h' = { rolled := h.rolled.add n e } := by
  simp only [add, bind_ok, pure_ok]
  constructor
  · rintro ⟨n, hn, e, he, rfl⟩
    exact ⟨n, e, hn, he, rfl⟩
  · rintro ⟨n, e, hn, he, rfl⟩
    exact ⟨n, hn, e, he, rfl⟩

/-- What makes an addition fail is what was given for it, and never the history. -/
theorem add_error {f : Fault} (hf : h.add roll reason = .error f) :
    roll.toWhole = .error f ∨ (∃ n, roll.toWhole = .ok n) ∧ Effect.ofValue reason = .error f := by
  unfold add at hf
  cases hroll : roll.toWhole with
  | error g =>
    rw [hroll, error_bind] at hf
    obtain rfl := Except.error.inj hf
    exact .inl rfl
  | ok n =>
    refine .inr ⟨⟨n, rfl⟩, ?_⟩
    cases hreason : Effect.ofValue reason with
    | error g =>
      rw [hroll, hreason] at hf
      obtain rfl := Except.error.inj hf
      rfl
    | ok e =>
      rw [hroll, hreason] at hf
      cases hf

/-- In place a roll is added as it is to a new history, or not at all. -/
theorem run_addInPlace (h : LooseHistory) (roll reason : Value) : (addInPlace roll reason).run h =
    match h.add roll reason with
    | .ok h' => (.ok (), h')
    | .error f => (.error f, h) := by
  unfold addInPlace add
  cases hroll : roll.toWhole with
  | error f => rfl
  | ok n =>
    cases hreason : Effect.ofValue reason with
    | error f => rfl
    | ok e => rfl

end LooseHistory

-- ---------------------------------------------------------------------------
-- Ledgers
-- ---------------------------------------------------------------------------

/-- The parts of a history, each held apart from the others. -/
structure Ledger where
  rolls : List Int := []
  reasons : List Effect := []
  total : Option Int := none
  value : Value := .absent
  mapped : Bool := false
  label : Value := .text ""
  subtracting : Bool := false

namespace Ledger

def running (l : Ledger) : Running := ⟨l.total, l.subtracting⟩

/-- Adds a roll part by part, and so leaves what has been changed by then if something fails. -/
def add (roll reason : Value) : ExceptT Fault (StateM Ledger) Unit := do
  let n ← ofExcept roll.toWhole
  let e ← ofExcept (Effect.ofValue reason)
  let s := (← get).running
  modify fun l => { l with total := some (s.joined n e) }
  modify fun l => { l with subtracting := (s.join n e).subtracting }
  let n ← ofExcept roll.toWhole
  modify fun l => { l with rolls := l.rolls ++ [n] }
  modify fun l => { l with reasons := l.reasons ++ [s.applied e] }
  modify fun l => { l with mapped := false }
  modify fun l => { l with label := .text "" }
  modify fun l => { l with value := (l.total.map Value.whole).getD .absent }

def map (mapped : LooseMapped) : ExceptT Fault (StateM Ledger) Unit := do
  modify fun l => { l with mapped := true }
  modify fun l => { l with value := mapped.value }
  modify fun l => { l with label := mapped.label }

def take : LooseHistory.Step → ExceptT Fault (StateM Ledger) Unit
  | .roll roll reason => add roll reason
  | .map mapped => map mapped

def after (l : Ledger) (step : LooseHistory.Step) : Ledger := ((take step).run l).2

def run (l : Ledger) (steps : List LooseHistory.Step) : Ledger := steps.foldl after l

def begun (roll reason : Value) : Ledger := if roll.isAbsent then {} else ((add roll reason).run {}).2

structure Fits (l : Ledger) : Prop where
  lengths : l.rolls.length = l.reasons.length
  total : l.total = totalOf l.rolls l.reasons
  reversed : Reversed l.reasons
  value : l.mapped = false → l.value = (l.total.map Value.whole).getD .absent
  label : l.mapped = false → l.label = .text ""

/-- What every step keeps: the parts fit, and the ledger knows whether additions subtract. -/
structure Sound (l : Ledger) : Prop where
  recorded : Recorded l.rolls l.reasons l.running
  value : l.mapped = false → l.value = (l.total.map Value.whole).getD .absent
  label : l.mapped = false → l.label = .text ""

theorem Sound.fits {l : Ledger} (h : l.Sound) : l.Fits :=
  ⟨h.recorded.lengths, h.recorded.total, h.recorded.reversed, h.value, h.label⟩

def added (l : Ledger) (roll : Int) (reason : Effect) : Ledger where
  rolls := l.rolls ++ [roll]
  reasons := l.reasons ++ [l.running.applied reason]
  total := some (l.running.joined roll reason)
  value := .whole (l.running.joined roll reason)
  subtracting := (l.running.join roll reason).subtracting

theorem run_add_of_ok {roll reason : Value} {n : Int} {e : Effect} (hn : roll.toWhole = .ok n)
    (he : Effect.ofValue reason = .ok e) (l : Ledger) : (add roll reason).run l = (.ok (), l.added n e) := by
  rw [add, hn, he]
  rfl

theorem run_add_of_error {roll reason : Value} {f : Fault}
    (h : roll.toWhole = .error f ∨ (∃ n, roll.toWhole = .ok n) ∧ Effect.ofValue reason = .error f) (l : Ledger) :
    (add roll reason).run l = (.error f, l) := by
  rcases h with h | ⟨⟨n, hn⟩, h⟩
  · rw [add, h]
    rfl
  · rw [add, hn, h]
    rfl

theorem sound_empty : Sound {} := ⟨recorded_nil, fun _ => rfl, fun _ => rfl⟩

theorem Sound.added {l : Ledger} (h : l.Sound) (roll : Int) (reason : Effect) : (l.added roll reason).Sound :=
  ⟨h.recorded.concat roll reason, fun _ => rfl, fun _ => rfl⟩

/-- A roll is added as a whole or not at all. -/
theorem run_add_cases (l : Ledger) (roll reason : Value) :
    (∃ n e, (add roll reason).run l = (.ok (), l.added n e)) ∨ ∃ f, (add roll reason).run l = (.error f, l) := by
  cases hn : roll.toWhole with
  | error f => exact .inr ⟨f, run_add_of_error (.inl hn) l⟩
  | ok n =>
    cases he : Effect.ofValue reason with
    | error f => exact .inr ⟨f, run_add_of_error (.inr ⟨⟨n, hn⟩, he⟩) l⟩
    | ok e => exact .inl ⟨n, e, run_add_of_ok hn he l⟩

theorem run_add_of_failed {l : Ledger} {roll reason : Value} {f : Fault}
    (h : ((add roll reason).run l).1 = .error f) : ((add roll reason).run l).2 = l := by
  rcases run_add_cases l roll reason with ⟨n, e, hrun⟩ | ⟨g, hrun⟩
  · rw [hrun] at h
    cases h
  · rw [hrun]

theorem Sound.add {l : Ledger} (h : l.Sound) (roll reason : Value) :
    Sound ((Ledger.add roll reason).run l).2 := by
  rcases run_add_cases l roll reason with ⟨n, e, hrun⟩ | ⟨f, hrun⟩
  · rw [hrun]
    exact h.added n e
  · rw [hrun]
    exact h

theorem Sound.map {l : Ledger} (h : l.Sound) (mapped : LooseMapped) : Sound ((Ledger.map mapped).run l).2 := by
  have htrue : ((Ledger.map mapped).run l).2.mapped = true := rfl
  refine ⟨h.recorded, fun hfalse => ?_, fun hfalse => ?_⟩ <;> exact absurd (htrue.symm.trans hfalse) (by decide)

theorem Sound.after {l : Ledger} (h : l.Sound) (step : LooseHistory.Step) : (l.after step).Sound := by
  cases step with
  | roll roll reason => exact h.add roll reason
  | map mapped => exact h.map mapped

theorem Sound.run {l : Ledger} (h : l.Sound) (steps : List LooseHistory.Step) : (l.run steps).Sound :=
  List.foldlRecOn steps Ledger.after h fun _ hrun step _ => hrun.after step

theorem sound_begun (roll reason : Value) : (begun roll reason).Sound := by
  unfold begun
  split
  · exact sound_empty
  · exact sound_empty.add roll reason

end Ledger

-- ---------------------------------------------------------------------------
-- Histories by their parts
-- ---------------------------------------------------------------------------

namespace LooseHistory

variable {h h' : LooseHistory} {roll reason : Value}

def ledger (h : LooseHistory) : Ledger where
  rolls := h.rolled.rolls
  reasons := h.rolled.reasons
  total := h.rolled.total
  value := h.value
  mapped := h.mapped.isSome
  label := h.label
  subtracting := h.rolled.running.subtracting

theorem ledger_add (h : LooseHistory) (n : Int) (e : Effect) :
    ledger { rolled := h.rolled.add n e } = h.ledger.added n e := by
  rw [ledger, Ledger.added, Ledger.mk.injEq]
  exact ⟨History.rolls_add .., History.reasons_add .., rfl, rfl, rfl, rfl, rfl⟩

/-- In place, a step changes the parts of a history as it changes the history. -/
theorem ledger_addInPlace (h : LooseHistory) (roll reason : Value) :
    (Ledger.add roll reason).run h.ledger =
      (((addInPlace roll reason).run h).1, (((addInPlace roll reason).run h).2).ledger) := by
  rw [run_addInPlace]
  cases hadd : h.add roll reason with
  | error f => rw [Ledger.run_add_of_error (add_error hadd)]
  | ok h' =>
    obtain ⟨n, e, hn, he, rfl⟩ := add_ok.mp hadd
    rw [Ledger.run_add_of_ok hn he, ledger_add]

theorem ledger_after (h : LooseHistory) (step : Step) : (h.after step).ledger = h.ledger.after step := by
  cases step with
  | roll roll reason => exact (congrArg Prod.snd (ledger_addInPlace h roll reason)).symm
  | map mapped => rfl

theorem ledger_run (h : LooseHistory) (steps : List Step) : (h.run steps).ledger = h.ledger.run steps := by
  induction steps generalizing h with
  | nil => rfl
  | cons step steps ih => exact (ih (h.after step)).trans (congrArg (Ledger.run · steps) (ledger_after h step))

theorem ledger_made (hmade : ofValues roll reason = .ok h) : h.ledger = .begun roll reason := by
  unfold ofValues at hmade
  unfold Ledger.begun
  split at hmade
  · rename_i habsent
    obtain rfl := Except.ok.inj hmade
    rw [if_pos habsent]
    rfl
  · rename_i hgiven
    have hrun := run_addInPlace {} roll reason
    rw [hmade] at hrun
    have hledger := ledger_addInPlace {} roll reason
    rw [hrun] at hledger
    rw [if_neg hgiven]
    exact (congrArg Prod.snd hledger).symm

theorem consistent_of_fits (hfits : h.ledger.Fits) : h.Consistent where
  lengths := hfits.lengths
  total := hfits.total
  reversed := hfits.reversed
  value hnone := hfits.value (by simpa [ledger] using hnone)
  label hnone := hfits.label (by simpa [ledger] using hnone)

/-- However a history was begun, and whatever steps have been taken with it, what it shows fits what it
records. An addition that fails does so for what was given for it, and leaves the history as it was. All this
holds part by part of the ledger with the same steps, whose parts those of the history are. -/
theorem consistent_run (hmade : ofValues roll reason = .ok h) (steps : List Step) :
    (h.run steps).Consistent ∧
      (∀ roll reason f, ((addInPlace roll reason).run (h.run steps)).1 = .error f →
        ((addInPlace roll reason).run (h.run steps)).2 = h.run steps ∧
          (roll.toWhole = .error f ∨ (∃ n, roll.toWhole = .ok n) ∧ Effect.ofValue reason = .error f)) ∧
      (h.run steps).ledger = (Ledger.begun roll reason).run steps ∧
      ((Ledger.begun roll reason).run steps).Fits ∧
      ∀ (l : Ledger) more reason f, ((Ledger.add more reason).run l).1 = .error f →
        ((Ledger.add more reason).run l).2 = l := by
  have hledger : (h.run steps).ledger = (Ledger.begun roll reason).run steps := by
    rw [ledger_run, ledger_made hmade]
  have hfits := ((Ledger.sound_begun roll reason).run steps).fits
  refine ⟨consistent_of_fits (hledger ▸ hfits), fun roll reason f hf => ?_, hledger, hfits,
    fun l more reason f => Ledger.run_add_of_failed⟩
  rw [run_addInPlace] at hf ⊢
  cases hadd : (h.run steps).add roll reason with
  | ok h' =>
    rw [hadd] at hf
    cases hf
  | error g =>
    rw [hadd] at hf
    obtain rfl := Except.error.inj hf
    exact ⟨rfl, add_error hadd⟩

/-- A subtracted roll, two additions of which one fails, a mapping, and an addition that undoes it. -/
def turns : List Step :=
  [.roll (.whole 3) (.text "subtract"), .roll (.text "x") (.text "add"), .roll (.text " 2 ") (.text "Add"),
    .map ⟨.whole 7, .text "seven"⟩, .roll (.whole 5) (.text "add")]

theorem consistent_run_turns : ofValues (.whole 6) (.text "subtract") = .ok { rolled := .ofRoll 6 .subtract } ∧
    (run { rolled := .ofRoll 6 .subtract } turns).Consistent ∧
    (run { rolled := .ofRoll 6 .subtract } turns).rolled.reasons = [.subtract, .subtract, .subtract, .subtract] ∧
    (run { rolled := .ofRoll 6 .subtract } turns).rolled.total = some (-4) ∧
    ((Ledger.begun (.whole 6) (.text "subtract")).run turns).Fits ∧
    ((Ledger.begun (.whole 6) (.text "subtract")).run turns).total = some (-4) := by
  have hmade : ofValues (.whole 6) (.text "subtract") = .ok { rolled := .ofRoll 6 .subtract } := rfl
  obtain ⟨hconsistent, -, hledger, hfits, -⟩ := consistent_run hmade turns
  have htotal : (run { rolled := .ofRoll 6 .subtract } turns).rolled.total = some (-4) := by decide
  exact ⟨hmade, hconsistent, by decide, htotal, hfits, (congrArg Ledger.total hledger).symm.trans htotal⟩

end LooseHistory

end TabletopDice
