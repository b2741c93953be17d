import TabletopDice.Text.Case
import TabletopDice.Value

/-!
# Effects and keep modes

An effect is the reason for a roll and says how the roll joins the total so
far. A keep mode says which dice of a bunch count.
-/

namespace TabletopDice

inductive Effect where
  | basic | add | subtract | replace | useBest | useWorst
deriving DecidableEq, Repr, Hashable

namespace Effect

def all : List Effect := [.basic, .add, .subtract, .replace, .useBest, .useWorst]

def name : Effect → String
  | .basic => "basic"
  | .add => "add"
  | .subtract => "subtract"
  | .replace => "replace"
  | .useBest => "use_best"
  | .useWorst => "use_worst"

def capitals : Effect → String
  | .basic => "BASIC"
  | .add => "ADD"
  | .subtract => "SUBTRACT"
  | .replace => "REPLACE"
  | .useBest => "USE_BEST"
  | .useWorst => "USE_WORST"

def symbol : Effect → String
  | .basic => ","
  | .add => "+"
  | .subtract => "-"
  | .replace => "|"
  | .useBest => "/"
  | .useWorst => "\\"

def ofText? (cs : List Char) : Option Effect :=
  let lowered := Text.lower cs
  all.find? fun e => e.name.toList == lowered

def ofValue? : Value → Option Effect
  | .text s => ofText? s.toList
  | _ => none

end Effect

inductive KeepMode where
  | best | worst
deriving DecidableEq, Repr

namespace KeepMode

def name : KeepMode → String
  | .best => "best"
  | .worst => "worst"

/-- Keep modes go by their names, with or without `keep_` before them, in letters of either
case. -/
def ofText? (cs : List Char) : Option KeepMode :=
  let lowered := Text.lower cs
  let marker := "keep_".toList
  let name := if marker.isPrefixOf lowered then lowered.drop marker.length else lowered
  if name == "best".toList then some .best
  else if name == "worst".toList then some .worst
  else none

def ofValue? : Value → Option KeepMode
  | .text s => ofText? s.toList
  | _ => none

end KeepMode

end TabletopDice
