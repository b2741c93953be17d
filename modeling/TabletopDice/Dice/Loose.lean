import TabletopDice.Dice.Amount

/-!
# Dice from loose values

Descriptions of dice by name, as a caller hands them over. The multipliers of
such dice are looked at only when they are needed: whatever needs one that is
no number fails there, after what came before it has been done.
-/

namespace TabletopDice

structure TermArgs where
  multiplier : Value := .whole 1
  bunch : BunchArgs

structure LooseTerm where
  multiplier : Value
  bunch : Bunch

structure LooseDice where
  terms : List LooseTerm
  offset : Int

namespace TermArgs

def names : List String :=
  ["ndice", "sides", "multiplier", "rerolls", "maps", "keep_mode", "keep_number"]

def ofFields (fields : List (String × Value)) : Except Fault TermArgs :=
  match fields.lookup "ndice", fields.lookup "sides" with
  | some count, some sides =>
    if fields.all fun f => names.contains f.1 then
      let optional (name : String) := (fields.lookup name).getD .absent
      .ok { multiplier := (fields.lookup "multiplier").getD (.whole 1)
            bunch :=
              { count, sides, rerolls := optional "rerolls", maps := optional "maps"
                keepMode := optional "keep_mode", keepNumber := optional "keep_number" } }
    else .error (.kind .unworded)
  | _, _ => .error (.kind .unworded)

def ofValue : Value → Except Fault TermArgs
  | .record fields => ofFields fields
  | v => .error (.kind (.notBunch v))

/-! ## Modifiers -/

def rerollParts (trigger : Value) (c : Comparison) (e : Effect) (limit : Option Int) : Value :=
  .list ([trigger, .text c.tag, .text e.name] ++ (limit.map Value.whole).toList)

def mapParts (rule : MapSpec) : Value :=
  .list ([.whole rule.trigger, .text rule.comparison.tag, .whole rule.value] ++
    (rule.label.map Value.text).toList)

def addRule (given rule : Value) : Except Fault Value :=
  match given with
  | .list rules => .ok (.list (rules ++ [rule]))
  | given => if given.isGiven then .error (.kind .unworded) else .ok (.list [rule])

/-- The description as a modifier changes it. What was given before stays as it was given. -/
def modify (a : TermArgs) (m : Modifier) : Except Fault TermArgs :=
  let addReroll (rule : Value) := do
    return { a with bunch := { a.bunch with rerolls := ← addRule a.bunch.rerolls rule } }
  match m.change with
  | .explode => addReroll (rerollParts a.bunch.sides .eq .add none)
  | .reroll r => addReroll (rerollParts (.whole r.trigger) r.comparison r.effect r.limit)
  | .map rule => do
    return { a with bunch := { a.bunch with maps := ← addRule a.bunch.maps (mapParts rule) } }
  | .keep mode count =>
    if a.bunch.keepMode.isAbsent then
      .ok { a with bunch :=
              { a.bunch with keepMode := .text mode.name, keepNumber := .whole count } }
    else .error (.grammar .secondKeep)

def apply (a : TermArgs) : Token → Except Fault TermArgs
  | .modifier m => a.modify m
  | t => .error (.value (.notModifier t.described))

def fields (a : TermArgs) : List (String × Value) :=
  let optional := [("rerolls", a.bunch.rerolls), ("maps", a.bunch.maps),
    ("keep_mode", a.bunch.keepMode), ("keep_number", a.bunch.keepNumber)]
  [("ndice", a.bunch.count), ("sides", a.bunch.sides), ("multiplier", a.multiplier)] ++
    optional.filter fun f => !f.2.isAbsent

end TermArgs

/-! ## Named bunches -/

/-- A bunch under a name of any kind. An empty name is none. -/
structure NamedBunch where
  bunch : Bunch
  name : Value := .absent

namespace NamedBunch

def ofFields (fields : List (String × Value)) (impostor : Option Value := none) :
    Except Fault NamedBunch := do
  let args ← TermArgs.ofFields (fields.filter fun f => f.1 != "name")
  if (fields.lookup "multiplier").isSome then .error (.kind .unworded)
  return { bunch := ← Bunch.ofArgs args.bunch impostor
           name := (fields.lookup "name").getD .absent }

def label (b : NamedBunch) : Value :=
  if b.name.isGiven then b.name else .text b.bunch.label

def described (b : NamedBunch) : String := "Bunch(" ++ b.label.written ++ ")"

end NamedBunch

/-! ## Dice -/

namespace LooseDice

/-- Reads all terms, then the offset, before any bunch is built. -/
def ofValues (bunches offset : Value) (impostor : Option Value := none) :
    Except Fault LooseDice := do
  let args ← (← bunches.items).mapM TermArgs.ofValue
  let offset ← offset.readWhole .offset
  let terms ← args.mapM fun a => do return ⟨a.multiplier, ← Bunch.ofArgs a.bunch impostor⟩
  return { terms, offset }

def dice? (d : LooseDice) : Option Dice := do
  let terms ← d.terms.mapM fun t => t.multiplier.whole?.map (⟨·, t.bunch⟩)
  return { terms, offset := d.offset }

/-- Rolls one bunch after another and adds up their results, up to the first whose multiplier
gives no amount. -/
def rollOn [Monad m] (draw : Nat → m Int) (sum : Amount) :
    List LooseTerm → m (List BunchRoll × Except Fault Amount)
  | [] => return ([], .ok sum)
  | t :: terms => do
    let r ← t.bunch.roll draw
    match Amount.ofProduct t.multiplier r.result >>= sum.add with
    | .error f => return ([r], .error f)
    | .ok sum => do
      let (rolls, total) ← rollOn draw sum terms
      return (r :: rolls, total)

/-- Rolls the dice. The bunches that were rolled are there even if the roll fails. -/
def roll [Monad m] (draw : Nat → m Int) (d : LooseDice) :
    m (List BunchRoll × Except Fault Amount) := do
  let (rolls, sum) ← rollOn draw (.whole 0) d.terms
  return (rolls, sum >>= (Amount.whole d.offset).add)

/-- The bunches one after another, then how their results add up, where that says anything
new. -/
def explain (d : LooseDice) (rolls : List BunchRoll) (result : Amount) : Except Fault Wording := do
  match d.terms with
  | [] => return [.number d.offset]
  | first :: _ =>
    let rolled := d.terms.zip rolls
    let parts := rolled.map fun (t, r) => t.bunch.explainLabelled r
    let scaled ← rolled.mapM fun (t, r) => Amount.ofProduct t.multiplier r.result
    let summands := scaled ++ if d.offset = 0 then [] else [.whole d.offset]
    let isNew ← if summands.length > 1 then .ok true
      else (Amount.ofValue first.multiplier).map Amount.isNegative
    let sum := if isNew then [Dice.sumText result.text (summands.map Amount.summand)] else []
    return Wording.join ". " (parts ++ sum)

def described (d : LooseDice) : Wording :=
  Dice.described ⟨d.terms.map fun t => ⟨1, t.bunch⟩, d.offset⟩

end LooseDice

end TabletopDice
