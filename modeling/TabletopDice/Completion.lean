import TabletopDice.Fault
import TabletopDice.Text.Case

/-!
# Completion

What the completion key makes of the text before it: it steps a bunch through
the usual dice, or through its modifiers once it has one, and proposes a term
where none has been begun.
-/

namespace TabletopDice.Completion

def dieSizes : List Nat := [4, 6, 8, 10, 12, 20, 100]

def modifierLetters : List Char := ['x', 'k', 'r', 'm']

/-- A bunch as it was typed: count, sides, and the letter and the digits of a modifier. -/
structure Typed where
  count : List Char
  sides : List Char
  modifier : Option (Char × List Char)
deriving DecidableEq, Repr

def isOver (cs : List Char) : Bool := cs == [] || cs == ['\n']

def readModifier (cs : List Char) : Option (Option (Char × List Char)) :=
  match cs with
  | c :: rest =>
    if modifierLetters.contains c then
      if isOver (rest.dropWhile Decimal.isDigit) then
        some (some (c, rest.takeWhile Decimal.isDigit))
      else none
    else if isOver cs then some none else none
  | [] => some none

def readTyped (cs : List Char) : Option Typed :=
  match cs.takeWhile Decimal.isDigit, cs.dropWhile Decimal.isDigit with
  | [], _ => none
  | count, 'd' :: rest =>
    (readModifier (rest.dropWhile Decimal.isDigit)).map fun modifier =>
      ⟨count, rest.takeWhile Decimal.isDigit, modifier⟩
  | _, _ => none

def readNumber (ds : List Char) : Except Fault Nat :=
  match Decimal.readDigits? ds with
  | some n => .ok n
  | none => .error (.value .unworded)

/-- The element after another one, going round; the first one after an unknown element. -/
def after [BEq β] (x : β) (xs : List β) : Option β :=
  match xs.dropWhile (· != x) with
  | _ :: y :: _ => some y
  | _ => xs.head?

def nextSides (sides : List Char) : Except Fault Nat := do
  if sides.isEmpty then return 4
  return (after (← readNumber sides) dieSizes).getD 4

def modifiers (count sides : Nat) : List (Char × List Char) :=
  [('x', []), ('k', (Decimal.writeNat (max (count - 1) 1)).toList), ('r', ['1']),
    ('m', (Decimal.writeNat sides).toList)]

/-- The modifier after another one. One with a number of its own becomes the proposed one
first. -/
def nextModifier (proposed : List (Char × List Char)) (m : Char × List Char) :
    Option (Char × List Char) :=
  if proposed.contains m then after m proposed
  else proposed.find? fun p => p.1 == m.1

def nextBunch (text : String) : Except Fault (Option String) := do
  let some t := readTyped (Text.lower text.toList) | return none
  let written (sides : List Char) (modifier : List Char) : String :=
    String.ofList (t.count ++ 'd' :: sides ++ modifier)
  match t.modifier with
  | none => return some (written (Decimal.writeNat (← nextSides t.sides)).toList [])
  | some m =>
    if t.sides.isEmpty then return none
    let count ← readNumber t.count
    let sides ← readNumber t.sides
    return (nextModifier (modifiers count sides) m).map fun (letter, digits) =>
      written t.sides (letter :: digits)

def propose (line : List Char) : String :=
  match (Text.trim line).getLast? with
  | none => "1d20"
  | some c => if c == '+' || c == '-' then "1d6" else "+ 1d6"

def complete (text line : String) (index : Int) : Except Fault (Option String) :=
  if 0 < index then .ok none
  else if text = "" then .ok (some (propose line.toList))
  else nextBunch text

end TabletopDice.Completion
