import TabletopDice.Rule.Condition

/-!
# Faults

Why an operation cannot be carried out. Faults of six families are worded
here; a fault without words of its own has no message. A session reports the
faults that a player can cause by what was written and stops at any other.
-/

namespace TabletopDice

inductive Quantity where
  | diceCount | sides | keepNumber | offset | rerollLimit | mappedValue | result | target
  | shift | multiplier | repeatCount | keepCount
deriving DecidableEq, Repr

def Quantity.name : Quantity → String
  | .diceCount => "Number of dice"
  | .sides => "Sides"
  | .keepNumber => "Keep number"
  | .offset => "Offset"
  | .rerollLimit => "Reroll limit"
  | .mappedValue => "Mapped value"
  | .result => "Result"
  | .target => "Target"
  | .shift => "Shift"
  | .multiplier => "Multiplier"
  | .repeatCount => "Repeat count"
  | .keepCount => "Keep count"

inductive RuleKind where
  | reroll | map
deriving DecidableEq, Repr

def RuleKind.name : RuleKind → String
  | .reroll => "RerollRule"
  | .map => "MapRule"

inductive BuildFault where
  | unknownOperator (v : Value)
  | triggerMismatch (trigger : Value) (o : Operator)
  | unknownEffect (v : Value)
  | basicReroll
  | limitTooLow (limit : Int)
  | unknownKeepMode (v : Value)
  | tooFewDice (count : Int)
  | tooFewSides (sides : Int)
  | keepsNone
  | noFairDie (sides : Int)

def BuildFault.message : BuildFault → String
  | .unknownOperator v => "Unrecognised trigger operator " ++ v.written
  | .triggerMismatch v o =>
    "Trigger value " ++ v.written ++ " cannot be used with operator " ++ o.tag
  | .unknownEffect v => "Unrecognised reroll effect " ++ v.written
  | .basicReroll => "A reroll rule needs an effect other than basic"
  | .limitTooLow n => "Reroll limit must be 1 or more, got " ++ Decimal.writeInt n
  | .unknownKeepMode v => "Keep mode can be best or worst, got " ++ v.written
  | .tooFewDice n => "Number of dice must be 1 or more, got " ++ Decimal.writeInt n
  | .tooFewSides n =>
    "Sides value " ++ Decimal.writeInt n ++ " is too low, it must be 1 or greater"
  | .keepsNone => "Can't keep less than one die"
  | .noFairDie n => "Sides must be at least 1, got " ++ Decimal.writeInt n

inductive GrammarFault where
  | unreadable (fragment : String)
  | doubleSign (token : String)
  | missingSign (token : String)
  | strayModifier (token : String)
  | empty
  | endsInSign
  | secondKeep
deriving DecidableEq, Repr

def GrammarFault.message : GrammarFault → String
  | .unreadable s => "Unknown token " ++ Text.quoted s
  | .doubleSign t => "Unexpected \"" ++ t ++ "\" after another sign"
  | .missingSign t => "Missing + or - before \"" ++ t ++ "\""
  | .strayModifier t => "\"" ++ t ++ "\" modifier must follow dice"
  | .empty => "No dice or numbers to parse"
  | .endsInSign => "Dice notation cannot end with a sign"
  | .secondKeep => "Cannot set keepers for a bunch twice"

inductive LimitFault where
  | tooManySides (most : Nat) (sides : Int)
  | resultsTooWide
  | tooManyOutcomes
  | tooManyArrangements

def LimitFault.message : LimitFault → String
  | .tooManySides most n =>
    "Sides can be at most " ++ Decimal.writeNat most ++ ", got " ++ Decimal.writeInt n
  | .resultsTooWide => "Range of possible results too large"
  | .tooManyOutcomes => "Probability distribution too large"
  | .tooManyArrangements => "Too many dice to calculate numbers of arrangements"

inductive KindFault where
  | notWhole (q : Quantity) (v : Value)
  | notRule (k : RuleKind) (v : Value)
  | notRuleList (k : RuleKind) (v : Value)
  | notSource (v : Value)
  | notBunch (v : Value)
  | notMasses (v : Value)
  | notMass (v : Value)
  | notTable
  | notSummand
  | notComparable
  | unworded

def KindFault.message : KindFault → Option String
  | .notWhole q v => some (q.name ++ " must be an integer, got " ++ v.written)
  | .notRule k v => some ("Expected a " ++ k.name ++ " or tuple, got " ++ v.written)
  | .notRuleList k v =>
    some (k.name ++ " items should be in a list, instead got " ++ v.written)
  | .notSource v => some ("Random source " ++ v.written ++ " is not callable")
  | .notBunch v => some ("Expected a BunchSpec or mapping, got " ++ v.written)
  | .notMasses v =>
    some ("Probabilities must be a list of numbers, got <class '" ++ v.kindName ++ "'>")
  | .notMass v => some ("Probability " ++ v.written ++ " is not a number")
  | .notTable => some "from_dict expected a mapping of result to probability"
  | .notSummand => some "Parameter to add_scaled is not a Probabilities"
  | .notComparable => some "Parameter to isclose is not a Probabilities"
  | .unworded => none

inductive TokenShape where
  | token | number | dice | modifier | reroll | map | keep
deriving DecidableEq, Repr

inductive ValueFault where
  | noResults
  | massOutOfRange (mass : String)
  | totalNotOne
  | nothingAtLeast (target : Int)
  | nothingAtMost (target : Int)
  | repeatsNone
  | keepsNone
  | opposedInfinities
  | misshapen (shape : TokenShape) (text : String)
  | notModifier (token : String)
  | unworded

def ValueFault.message : ValueFault → Option String
  | .noResults => some "A distribution needs at least one result"
  | .massOutOfRange p =>
    some ("Found probability value " ++ p ++ " which is not in range 0.0..1.0")
  | .totalNotOne =>
    some "Total probabilities too far from 1.0 for a valid distribution"
  | .nothingAtLeast t =>
    some ("There is no valid distribution given a result >= " ++ Decimal.writeInt t)
  | .nothingAtMost t =>
    some ("There is no valid distribution given a result <= " ++ Decimal.writeInt t)
  | .repeatsNone => some "Cannot combine probabilities less than once"
  | .keepsNone => some "Cannot keep less than one result"
  | .opposedInfinities => some "-inf + inf in fsum"
  | .misshapen .token s => some ("Unknown token " ++ Text.quoted s)
  | .misshapen .number s => some ("Invalid numeric syntax " ++ Text.quoted s)
  | .misshapen .dice s => some ("Invalid dice syntax " ++ Text.quoted s)
  | .misshapen .modifier s => some ("Invalid modifier syntax " ++ Text.quoted s)
  | .misshapen .reroll s => some ("Invalid reroll syntax " ++ Text.quoted s)
  | .misshapen .map s => some ("Invalid map syntax " ++ Text.quoted s)
  | .misshapen .keep s => some ("Invalid keep syntax " ++ Text.quoted s)
  | .notModifier t => some ("Unhandled modifier " ++ t)
  | .unworded => none

inductive RangeFault where
  /-- A whole number that no mass comes near. -/
  | tooLarge
  /-- A sum of masses, or of numbers weighed by masses, on the way. -/
  | partialSum
  /-- A power of a mass. -/
  | power
  /-- How often something is to be repeated. -/
  | repetitions
  /-- A number whose factorial is asked for. -/
  | factorial
  /-- A whole number that is infinite. -/
  | infinite

def RangeFault.message : RangeFault → Option String
  | .tooLarge => some "int too large to convert to float"
  | .partialSum => some "intermediate overflow in fsum"
  | .power => some "(34, 'Numerical result out of range')"
  | .repetitions => some "cannot fit 'int' into an index-sized integer"
  | .factorial | .infinite => none

inductive Fault where
  | build (f : BuildFault)
  | grammar (f : GrammarFault)
  | limit (f : LimitFault)
  | kind (f : KindFault)
  | value (f : ValueFault)
  | range (f : RangeFault)

namespace Fault

def message : Fault → Option String
  | .build f => some f.message
  | .grammar f => some f.message
  | .limit f => some f.message
  | .kind f => f.message
  | .value f => f.message
  | .range f => f.message

/-- Whether a session tells the player about the fault and goes on. -/
def isReported : Fault → Bool
  | .build _ | .grammar _ | .limit _ => true
  | .kind _ | .value _ | .range _ => false

end Fault

namespace Value

def readWhole (q : Quantity) (v : Value) : Except Fault Int :=
  match v.whole? with
  | some n => .ok n
  | none => .error (.kind (.notWhole q v))

def items (v : Value) : Except Fault (List Value) :=
  match v.items? with
  | some vs => .ok vs
  | none => .error (.kind .unworded)

end Value

end TabletopDice
