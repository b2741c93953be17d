import TabletopDice.Text.Blank

/-!
# Whole numbers as text

Digits of every script count as digits. A number is read, and written, up to a
fixed count of digits, so that no conversion takes quadratic time on a long
text; leading zeros count.
-/

namespace TabletopDice.Decimal

/-- The zeros of the scripts with decimal digits; the nine digits that follow each zero have
the values one to nine. -/
def zeros : List Nat := [
    0x30, 0x660, 0x6f0, 0x7c0, 0x966, 0x9e6, 0xa66, 0xae6, 0xb66, 0xbe6, 0xc66, 0xce6, 0xd66,
    0xde6, 0xe50, 0xed0, 0xf20, 0x1040, 0x1090, 0x17e0, 0x1810, 0x1946, 0x19d0, 0x1a80, 0x1a90,
    0x1b50, 0x1bb0, 0x1c40, 0x1c50, 0xa620, 0xa8d0, 0xa900, 0xa9d0, 0xa9f0, 0xaa50, 0xabf0,
    0xff10, 0x104a0, 0x10d30, 0x11066, 0x110f0, 0x11136, 0x111d0, 0x112f0, 0x11450, 0x114d0,
    0x11650, 0x116c0, 0x11730, 0x118e0, 0x11950, 0x11c50, 0x11d50, 0x11da0, 0x16a60, 0x16ac0,
    0x16b50, 0x1d7ce, 0x1d7d8, 0x1d7e2, 0x1d7ec, 0x1d7f6, 0x1e140, 0x1e2f0, 0x1e950, 0x1fbf0]

def digitValue? (c : Char) : Option Nat :=
  (zeros.find? fun first => first ≤ c.toNat && c.toNat ≤ first + 9).map (c.toNat - ·)

def isDigit (c : Char) : Bool := (digitValue? c).isSome

/-- The longest text of digits that is read or written. -/
def digitLimit : Nat := 4300

def digitsValue (ds : List Char) : Nat :=
  ds.foldl (fun n c => 10 * n + (digitValue? c).getD 0) 0

def readDigits? (ds : List Char) : Option Nat :=
  if ds.length ≤ digitLimit then some (digitsValue ds) else none

def grouped? : List Char → Option (List Char)
  | [] => none
  | [c] => if isDigit c then some [c] else none
  | c :: '_' :: rest => if isDigit c then (grouped? rest).map (c :: ·) else none
  | c :: rest => if isDigit c then (grouped? rest).map (c :: ·) else none

/-- The blanks that may stand around a number, which information separators may not. -/
def isPadding (c : Char) : Bool := Text.isBlank c && !Text.isSeparator c

/-- Reads a whole number as people type it: blanks around it, one sign, digits of any script
and single underscores between digits. -/
def readInt? (cs : List Char) : Option Int :=
  match Text.strip isPadding cs with
  | '-' :: rest => magnitude? rest |>.map fun n => -(n : Int)
  | '+' :: rest => magnitude? rest |>.map fun n => (n : Int)
  | rest => magnitude? rest |>.map fun n => (n : Int)
where
  magnitude? (cs : List Char) : Option Nat :=
    (grouped? cs).bind readDigits?

def writeNat (n : Nat) : String := Nat.repr n

def writeInt (n : Int) : String :=
  if n < 0 then "-" ++ writeNat n.natAbs else writeNat n.natAbs

def Writable (n : Int) : Prop := n.natAbs < Nat.pow 10 digitLimit

instance (n : Int) : Decidable (Writable n) :=
  inferInstanceAs (Decidable (n.natAbs < Nat.pow 10 digitLimit))

end TabletopDice.Decimal
