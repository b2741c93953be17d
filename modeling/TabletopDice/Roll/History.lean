import TabletopDice.Roll.Running
import TabletopDice.Rule.Map
import TabletopDice.Wording

/-!
# Die histories

The rolls that made up one result of a die, why each was made and how they
combined, and the game value that the total was mapped to, if it was.
-/

namespace TabletopDice

structure RollStep where
  roll : Int
  reason : Effect
deriving DecidableEq, Repr

structure History where
  steps : Array RollStep := #[]
  running : Running := {}
  mapped : Option Mapped := none
deriving DecidableEq, Repr

namespace History

def total (h : History) : Option Int := h.running.total

def rolls (h : History) : List Int := h.steps.toList.map (·.roll)

/-- Adds a roll, which undoes any mapping of the total before it. -/
def add (h : History) (roll : Int) (reason : Effect) : History where
  steps := h.steps.push ⟨roll, h.running.applied reason⟩
  running := h.running.join roll reason
  mapped := none

def ofRoll (roll : Int) (reason : Effect := .basic) : History :=
  add {} roll reason

def map (h : History) (mapped : Mapped) : History :=
  { h with mapped := some mapped }

def value? (h : History) : Option Int :=
  match h.mapped with
  | some m => some m.value
  | none => h.total

/-- The value that counts; nothing rolled counts as zero. -/
def value (h : History) : Int := h.value?.getD 0

def label (h : History) : String := (h.mapped.map (·.label)).getD ""

def labelSuffix (h : History) : Wording :=
  if h.label = "" then [] else [.words (" " ++ h.label)]

def stepsText : List RollStep → Wording
  | [] => []
  | first :: later => .number first.roll ::
    later.flatMap fun s => [.words s.reason.symbol, .number s.roll]

def breakdown (h : History) : Wording :=
  let total := Wording.ofNumber? h.total
  if h.steps.size < 2 then total
  else .words "[" :: stepsText h.steps.toList ++ .words "] " :: total

def explain (h : History) : Wording := h.breakdown ++ h.labelSuffix

def explainTotal (h : History) : Wording :=
  Wording.ofNumber? h.total ++ h.labelSuffix

end History

end TabletopDice
