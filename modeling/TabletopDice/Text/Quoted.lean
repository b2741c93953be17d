import TabletopDice.Text.Printable

/-!
# Quoted text

Text shown inside a message stands between single quotes, or between double
quotes when it holds a single quote and no double one. What does not print is
written as an escape of two, four or eight lower-case hexadecimal digits.
-/

namespace TabletopDice.Text.Quoted

def hex (width n : Nat) : List Char :=
  let digits := Nat.toDigits 16 n
  List.replicate (width - digits.length) '0' ++ digits

def escape (quote c : Char) : List Char :=
  if c == quote || c == '\\' then ['\\', c]
  else if c == '\t' then ['\\', 't']
  else if c == '\n' then ['\\', 'n']
  else if c == '\r' then ['\\', 'r']
  else if isPrintable c then [c]
  else if c.toNat ≤ 0xff then '\\' :: 'x' :: hex 2 c.toNat
  else if c.toNat ≤ 0xffff then '\\' :: 'u' :: hex 4 c.toNat
  else '\\' :: 'U' :: hex 8 c.toNat

def mark (cs : List Char) : Char :=
  if cs.contains '\'' && !cs.contains '"' then '"' else '\''

def encode (cs : List Char) : List Char :=
  let quote := mark cs
  quote :: (cs.flatMap (escape quote) ++ [quote])

end TabletopDice.Text.Quoted

namespace TabletopDice.Text

def quoted (s : String) : String :=
  String.ofList (Quoted.encode s.toList)

end TabletopDice.Text
