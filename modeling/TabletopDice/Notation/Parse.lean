import TabletopDice.Notation.Reader
import TabletopDice.Notation.Spec

/-!
# Reading dice notation

Terms stand one after another with a sign between them; modifiers follow the
dice that they belong to.
-/

namespace TabletopDice.Notation

/-- How far a text has been read: the bunches that are complete, the one that modifiers still
belong to, and the sign that waits for its term. -/
structure Progress where
  complete : List BunchSpec := []
  current : Option BunchSpec := none
  offset : Int := 0
  sign : Option Sign := none
  seenTerm : Bool := false

namespace Progress

def bunches (p : Progress) : List BunchSpec :=
  p.complete ++ p.current.toList

/-- Begins a term, which needs a sign before it unless it is the first. -/
def beginTerm (p : Progress) (t : Token) : Except GrammarFault (Int × Progress) :=
  if p.sign.isNone && p.seenTerm then .error (.missingSign t.text)
  else
    .ok ((p.sign.getD .plus).factor,
      { p with complete := p.bunches, current := none, sign := none, seenTerm := true })

def step (p : Progress) (t : Token) : Except GrammarFault Progress :=
  match t with
  | .sign s =>
    if p.sign.isSome then .error (.doubleSign t.text)
    else .ok { p with complete := p.bunches, current := none, sign := some s }
  | .constant n => do
    let (factor, p) ← p.beginTerm t
    return { p with offset := p.offset + factor * n }
  | .dice count sides => do
    let (factor, p) ← p.beginTerm t
    return { p with current := some { ndice := count, sides, multiplier := factor } }
  | .modifier m =>
    match p.current with
    | none => .error (.strayModifier t.text)
    | some b => (b.modify m).map fun b => { p with current := some b }

def finish (p : Progress) : Except GrammarFault RollSpec :=
  if p.sign.isSome then .error .endsInSign
  else if !p.seenTerm then .error .empty
  else .ok { bunches := p.bunches, offset := p.offset }

end Progress

def parse (text : String) : Except GrammarFault RollSpec := do
  let tokens ← tokenize text
  let p ← tokens.foldlM Progress.step {}
  p.finish

end TabletopDice.Notation
