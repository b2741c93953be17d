import TabletopDice.Decimal.Numeral
import TabletopDice.Decimal.Shortest
import TabletopDice.Rule.Stride
import TabletopDice.Text.Quoted

/-!
# Loose values

What a caller hands over before anything has been checked. A loose value is
read into the types of the library by the checks of each operation, and it is
shown in their messages as it would be written down.
-/

namespace TabletopDice

inductive Value where
  | absent
  | truth (b : Bool)
  | whole (n : Int)
  | real (x : Float)
  | text (s : String)
  | list (vs : List Value)
  | record (fields : List (String × Value))
  | stride (r : Stride)
deriving Inhabited

namespace Value

def strideText (r : Stride) : String :=
  let ends := "range(" ++ Decimal.writeInt r.start ++ ", " ++ Decimal.writeInt r.stop
  if r.step = 1 then ends ++ ")" else ends ++ ", " ++ Decimal.writeInt r.step ++ ")"

mutual
def written : Value → String
  | .absent => "None"
  | .truth b => if b then "True" else "False"
  | .whole n => Decimal.writeInt n
  | .real x => Decimal.shortest x
  | .text s => Text.quoted s
  | .list vs => "[" ++ ", ".intercalate (writtenAll vs) ++ "]"
  | .record fields => "\x7b" ++ ", ".intercalate (writtenFields fields) ++ "\x7d"
  | .stride r => strideText r
def writtenAll : List Value → List String
  | [] => []
  | v :: vs => v.written :: writtenAll vs
def writtenFields : List (String × Value) → List String
  | [] => []
  | (name, v) :: fields => (Text.quoted name ++ ": " ++ v.written) :: writtenFields fields
end

def shown : Value → String
  | .text s => s
  | v => v.written

def kindName : Value → String
  | .absent => "NoneType"
  | .truth _ => "bool"
  | .whole _ => "int"
  | .real _ => "float"
  | .text _ => "str"
  | .list _ => "list"
  | .record _ => "dict"
  | .stride _ => "range"

def isAbsent : Value → Bool
  | .absent => true
  | _ => false

/-- Empty and zero values count as not given. -/
def isGiven : Value → Bool
  | .absent => false
  | .truth b => b
  | .whole n => n != 0
  | .real x => x != 0
  | .text s => s != ""
  | .list vs => !vs.isEmpty
  | .record fields => !fields.isEmpty
  | .stride r => r.contains r.start

/-- Truth values are not numbers here. -/
def whole? : Value → Option Int
  | .whole n => some n
  | _ => none

/-- The value of a finite number of any kind. Truth values count as zero and one. -/
def number? : Value → Option Decimal.Binary64.Scaled
  | .whole n => some ⟨n, 0⟩
  | .truth b => some ⟨if b then 1 else 0, 0⟩
  | .real x => Decimal.Binary64.scaled? x
  | _ => none

/-- Whether two values are equal, if neither is made of others. Numbers of every kind are
compared as numbers. -/
def sameAtom (a b : Value) : Bool :=
  match a.number?, b.number?, a, b with
  | some x, some y, _, _ =>
    let (m, n) := x.aligned y
    m == n
  | none, none, .real x, .real y => x == y
  | none, none, .stride r, .stride s => r.same s
  | none, none, .text s, .text t => s == t
  | none, none, .absent, .absent => true
  | _, _, _, _ => false

mutual
/-- Whether two values are equal. The fields of a record may stand in any order. -/
def same : Value → Value → Bool
  | .list as, .list bs => sameAll as bs
  | .record as, .record bs => as.length == bs.length && sameFields as bs
  | a, b => sameAtom a b
def sameAll : List Value → List Value → Bool
  | [], [] => true
  | a :: as, b :: bs => same a b && sameAll as bs
  | _, _ => false
def sameFields : List (String × Value) → List (String × Value) → Bool
  | [], _ => true
  | (name, a) :: as, bs =>
    match bs.lookup name with
    | some b => same a b && sameFields as bs
    | none => false
end

/-- The values that one value goes through: those of a list, the characters of a text, the
names of a record, the numbers of a stride. -/
def items? : Value → Option (List Value)
  | .list vs => some vs
  | .text s => some (s.toList.map fun c => .text c.toString)
  | .record fields => some (fields.map fun f => .text f.1)
  | .stride r => some (r.toList.map .whole)
  | _ => none

end Value

end TabletopDice
