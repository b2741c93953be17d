import TabletopDice.Text.CaseTable

/-!
# Letter case

Lower-casing of whole texts, and the letters that count as one when case is
ignored. The two differ: the long s has no upper-case form of its own but
counts as an s when case is ignored.
-/

namespace TabletopDice.Text

def inRuns (runs : List (Nat × Nat)) (c : Char) : Bool :=
  runs.any fun run => run.1 ≤ c.toNat && c.toNat ≤ run.2

def isCased (c : Char) : Bool := inRuns casedRuns c

def isCaseIgnorable (c : Char) : Bool := inRuns caseIgnorableRuns c

/-- Whether the first character that is not passed over has case. -/
def besideCased (cs : List Char) : Bool :=
  match cs.dropWhile isCaseIgnorable with
  | [] => false
  | c :: _ => isCased c

def lowerChar (c : Char) : List Char :=
  if c.toNat ≤ 127 then [c.toLower]
  else if c.toNat = 0x130 then ['i', Char.ofNat 0x307]
  else
    match caseRuns.find? fun run =>
      run.first ≤ c.toNat && c.toNat ≤ run.last && (c.toNat - run.first) % run.step == 0 with
    | some run => [Char.ofNat (c.toNat + run.shift).toNat]
    | none => [c]

/-- Lower-cases what follows `before`, the characters already passed, nearest first. A
capital sigma at the end of a word takes its final form. -/
def lowerAfter (before : List Char) : List Char → List Char
  | [] => []
  | c :: rest =>
    let lowered :=
      if c.toNat = 0x3a3 then
        [Char.ofNat (if besideCased before && !besideCased rest then 0x3c2 else 0x3c3)]
      else lowerChar c
    lowered ++ lowerAfter (c :: before) rest

def lower (cs : List Char) : List Char :=
  lowerAfter [] cs

/-- Whether `c` is the ASCII lower-case letter `letter` when case is ignored: the Kelvin sign
is a k, the long s an s, and the dotted capital and the dotless small i are an i. -/
def sameLetter (letter c : Char) : Bool :=
  c.toLower == letter || (letter == 'k' && c.toNat == 0x212a) ||
    (letter == 's' && c.toNat == 0x17f) ||
    (letter == 'i' && (c.toNat == 0x130 || c.toNat == 0x131))

def isLetter (c : Char) : Bool :=
  c.isAlpha || c.toNat == 0x212a || c.toNat == 0x17f || c.toNat == 0x130 || c.toNat == 0x131

def sameWord : List Char → List Char → Bool
  | [], [] => true
  | letter :: word, c :: cs => sameLetter letter c && sameWord word cs
  | _, _ => false

end TabletopDice.Text
