import TabletopDice.Notation.Fragment
import TabletopDice.Notation.Token
import TabletopDice.Rule.Reroll

/-!
# Reading tokens

Each class of tokens reads the texts of its own shape; a line end after the
token is not part of it. A text of the right shape is still refused when a
number in it is too long or a word in it is unknown.
-/

namespace TabletopDice.Notation

open Text (isBlank sameLetter sameWord)
open Decimal (isDigit readDigits?)

def withoutLineEnd (cs : List Char) : List Char :=
  if cs.getLast? = some '\n' then cs.dropLast else cs

def digits? (cs : List Char) : Option (List Char × List Char) :=
  if digitCount cs = 0 then none else some (cs.takeWhile isDigit, cs.dropWhile isDigit)

def misshapen (shape : TokenShape) (cs : List Char) : Fault :=
  .value (.misshapen shape (String.ofList cs))

def number (ds : List Char) : Except Fault Nat :=
  match readDigits? ds with
  | some n => .ok n
  | none => .error (.value .unworded)

def signedNumber (s : Option Sign) (ds : List Char) : Except Fault Int :=
  (number ds).map fun n => (s.getD .plus).factor * (n : Int)

def readConstant (cs : List Char) : Except Fault Token :=
  match digits? (withoutLineEnd cs) with
  | some (ds, []) => (number ds).map .constant
  | _ => .error (misshapen .number cs)

structure DiceParts where
  count : List Char
  sides : List Char

def DiceParts.ofText? (cs : List Char) : Option DiceParts :=
  match digits? cs with
  | some (count, letter :: rest) =>
    if sameLetter 'd' letter then
      match digits? rest with
      | some (sides, []) => some ⟨count, sides⟩
      | _ => none
    else none
  | _ => none

def readDice (cs : List Char) : Except Fault Token :=
  match DiceParts.ofText? (withoutLineEnd cs) with
  | some parts => do
    let count ← number parts.count
    let sides ← number parts.sides
    return .dice count sides
  | none => .error (misshapen .dice cs)

structure TerseParts where
  letter : Char
  digits : List Char

def TerseParts.ofText? : List Char → Option TerseParts
  | letter :: rest =>
    if isTerseLetter letter then
      match rest.dropWhile isDigit with
      | [] | ['.'] => some ⟨letter, rest.takeWhile isDigit⟩
      | _ => none
    else none
  | [] => none

def readTerse (cs : List Char) : Except Fault Modifier :=
  match TerseParts.ofText? (withoutLineEnd cs) with
  | some parts =>
    if sameLetter 'x' parts.letter then
      if parts.digits.isEmpty then .ok .explode else .error (misshapen .modifier cs)
    else if parts.digits.isEmpty then .error (misshapen .modifier cs)
    else if sameLetter 'r' parts.letter then (number parts.digits).map .rerollAtMost
    else if sameLetter 'k' parts.letter then (number parts.digits).map .keepBest
    else (number parts.digits).map .successAtLeast
  | none => .error (misshapen .modifier cs)

/-- A comparison as it is written, the value of the die first, turned to put the trigger
first. Without a comparison the value has to equal the number. -/
def comparison : List Char → Comparison × List Char
  | '>' :: '=' :: rest => (.le, rest)
  | '<' :: '=' :: rest => (.ge, rest)
  | '=' :: '=' :: rest => (.eq, rest)
  | '>' :: rest => (.lt, rest)
  | '<' :: rest => (.gt, rest)
  | rest => (.eq, rest)

def part? (isPart : Char → Bool) : List Char → Option (List Char × List Char)
  | ',' :: rest =>
    if (rest.takeWhile isPart).isEmpty then none
    else some (rest.takeWhile isPart, rest.dropWhile isPart)
  | _ => none

structure RerollParts where
  comparison : Comparison
  value : List Char
  effect : Option (List Char)
  limit : Option (List Char)

def isEffectChar (c : Char) : Bool := Text.isLetter c || c == '_'

/-- `r:`, a comparison, a number, and then an effect and a limit, each after a comma, up to
a full stop. -/
def RerollParts.ofText? : List Char → Option RerollParts
  | letter :: ':' :: rest =>
    if sameLetter 'r' letter then
      let (comparison, rest) := Notation.comparison rest
      match digits? rest with
      | none => none
      | some (value, ['.']) => some ⟨comparison, value, none, none⟩
      | some (value, rest) =>
        match part? isEffectChar rest with
        | none => none
        | some (effect, ['.']) => some ⟨comparison, value, some effect, none⟩
        | some (effect, rest) =>
          match part? isDigit rest with
          | some (limit, ['.']) => some ⟨comparison, value, some effect, some limit⟩
          | _ => none
    else none
  | _ => none

def effectNamed (cs : List Char) : Except Fault Effect :=
  Effect.ofValue (.text (String.ofList cs))

/-- Reads a reroll in words; it replaces the roll unless it names an effect. -/
def readReroll (cs : List Char) : Except Fault Modifier :=
  match RerollParts.ofText? (withoutLineEnd cs) with
  | some parts => do
    let value ← number parts.value
    let effect ← match parts.effect with
      | some name => effectNamed name
      | none => .ok .replace
    let limit ← match parts.limit with
      | some ds => (number ds).map some
      | none => .ok none
    return .reroll parts.comparison value effect limit
  | none => .error (misshapen .reroll cs)

structure MapParts where
  comparison : Comparison
  value : List Char
  mapped : Option (Option Sign × List Char)
  label : Option (List Char)

def isLabelChar (c : Char) : Bool := Text.isLetter c || ('0' ≤ c && c ≤ '9') || c == '_'

def signedPart? : List Char → Option ((Option Sign × List Char) × List Char)
  | ',' :: '+' :: rest => (digits? rest).map fun (ds, rest) => ((some .plus, ds), rest)
  | ',' :: '-' :: rest => (digits? rest).map fun (ds, rest) => ((some .minus, ds), rest)
  | ',' :: rest => (digits? rest).map fun (ds, rest) => ((none, ds), rest)
  | _ => none

/-- `m:`, a comparison, a number, and then a signed number and a label, each after a comma,
up to a full stop. -/
def MapParts.ofText? : List Char → Option MapParts
  | letter :: ':' :: rest =>
    if sameLetter 'm' letter then
      let (comparison, rest) := Notation.comparison rest
      match digits? rest with
      | none => none
      | some (value, ['.']) => some ⟨comparison, value, none, none⟩
      | some (value, rest) =>
        match signedPart? rest with
        | none => none
        | some (mapped, ['.']) => some ⟨comparison, value, some mapped, none⟩
        | some (mapped, rest) =>
          match part? isLabelChar rest with
          | some (label, ['.']) => some ⟨comparison, value, some mapped, some label⟩
          | _ => none
    else none
  | _ => none

/-- Reads a map in words; it maps to one unless it names a value. -/
def readMap (cs : List Char) : Except Fault Modifier :=
  match MapParts.ofText? (withoutLineEnd cs) with
  | some parts => do
    let value ← number parts.value
    let mapped ← match parts.mapped with
      | some (s, ds) => signedNumber s ds
      | none => .ok 1
    return .map parts.comparison value mapped (parts.label.map String.ofList)
  | none => .error (misshapen .map cs)

structure KeepParts where
  count : List Char
  mode : Option (List Char)

/-- `k:`, a number, and then `best` or `worst` after a comma, up to a full stop. -/
def KeepParts.ofText? : List Char → Option KeepParts
  | letter :: ':' :: rest =>
    if sameLetter 'k' letter then
      match digits? rest with
      | none => none
      | some (count, ['.']) => some ⟨count, none⟩
      | some (count, rest) =>
        match part? Text.isLetter rest with
        | some (mode, ['.']) =>
          if sameWord "best".toList mode || sameWord "worst".toList mode then
            some ⟨count, some mode⟩
          else none
        | _ => none
    else none
  | _ => none

def keepModeNamed (cs : List Char) : Except Fault KeepMode :=
  match KeepMode.ofText? cs with
  | some mode => .ok mode
  | none => .error (.build (.unknownKeepMode (.text (String.ofList cs))))

/-- Reads a keep in words; it keeps the best unless it says otherwise. -/
def readKeep (cs : List Char) : Except Fault Modifier :=
  match KeepParts.ofText? (withoutLineEnd cs) with
  | some parts => do
    let count ← number parts.count
    let mode ← match parts.mode with
      | some name => keepModeNamed name
      | none => .ok .best
    return .keep count mode
  | none => .error (misshapen .keep cs)

def readVerbose (cs : List Char) : Except Fault Modifier :=
  match cs with
  | [] => .error (misshapen .modifier cs)
  | letter :: _ =>
    if verboseLength? (withoutLineEnd cs) = some (withoutLineEnd cs).length then
      if sameLetter 'r' letter then readReroll cs
      else if sameLetter 'm' letter then readMap cs
      else readKeep cs
    else .error (misshapen .modifier cs)

/-- The classes in the order in which they are tried. -/
def classReaders : List (List Char → Except Fault Token) :=
  [readConstant, readDice, fun cs => (readTerse cs).map .modifier,
    fun cs => (readVerbose cs).map .modifier]

/-- Reads any token. A sign is read only as it stands. -/
def readToken (cs : List Char) : Except Fault Token :=
  if cs = ['+'] then .ok (.sign .plus)
  else if cs = ['-'] then .ok (.sign .minus)
  else
    match classReaders.findSome? fun read => (read cs).toOption with
    | some token => .ok token
    | none => .error (misshapen .token cs)

def tokenize (text : String) : Except GrammarFault (List Token) :=
  (fragments text.toList).mapM fun cs =>
    match readToken cs with
    | .ok token => .ok token
    | .error _ => .error (.unreadable (String.ofList cs))

end TabletopDice.Notation
