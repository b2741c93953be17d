import TabletopDice.Decimal.Numeral
import TabletopDice.Text.Case

/-!
# Fragments of dice notation

A text is cut from left to right. At each character that is not blank the first
shape that fits gives the fragment: a modifier in words, a modifier in one
letter, dice, digits, or the character by itself. No character but the blank
ones is passed over.
-/

namespace TabletopDice.Notation

open Text (isBlank sameLetter)
open Decimal (isDigit)

def isVerboseLetter (c : Char) : Bool :=
  sameLetter 'r' c || sameLetter 'm' c || sameLetter 'k' c

def isTerseLetter (c : Char) : Bool :=
  sameLetter 'x' c || isVerboseLetter c

def isVerboseBody (c : Char) : Bool :=
  !isBlank c && c != '.'

def digitCount (cs : List Char) : Nat := (cs.takeWhile isDigit).length

def verboseLength? : List Char → Option Nat
  | letter :: ':' :: rest =>
    if isVerboseLetter letter then
      match rest.dropWhile isVerboseBody with
      | '.' :: _ => some ((rest.takeWhile isVerboseBody).length + 3)
      | _ => none
    else none
  | _ => none

def terseLength? : List Char → Option Nat
  | letter :: rest =>
    if isTerseLetter letter then
      match rest.dropWhile isDigit with
      | '.' :: _ => some (digitCount rest + 2)
      | _ => some (digitCount rest + 1)
    else none
  | _ => none

def diceLength? (cs : List Char) : Option Nat :=
  match cs.dropWhile isDigit with
  | letter :: rest =>
    if digitCount cs ≠ 0 ∧ sameLetter 'd' letter ∧ digitCount rest ≠ 0 then
      some (digitCount cs + 1 + digitCount rest)
    else none
  | [] => none

def numberLength? (cs : List Char) : Option Nat :=
  if digitCount cs = 0 then none else some (digitCount cs)

/-- The length of the fragment at the start of a text whose first character is not blank. -/
def fragmentLength (cs : List Char) : Nat :=
  (verboseLength? cs <|> terseLength? cs <|> diceLength? cs <|> numberLength? cs).getD 1

/-- Cuts what follows `pending` characters that belong to the fragment before. -/
def fragmentsAfter (pending : Nat) : List Char → List (List Char)
  | [] => []
  | c :: rest =>
    match pending with
    | pending + 1 => fragmentsAfter pending rest
    | 0 =>
      if isBlank c then fragmentsAfter 0 rest
      else
        let length := fragmentLength (c :: rest)
        (c :: rest).take length :: fragmentsAfter (length - 1) rest

def fragments (cs : List Char) : List (List Char) :=
  fragmentsAfter 0 cs

end TabletopDice.Notation
