import TabletopDice.Value

/-!
# Trigger conditions

A condition compares its trigger with a number, in that order: `le` with
trigger 10 holds of 10 and more, because it asks whether 10 is at most the
number. Membership takes a stride as its trigger, every comparison a number.
-/

namespace TabletopDice

inductive Comparison where
  | eq | ne | gt | ge | lt | le
deriving DecidableEq, Repr, Hashable

inductive Operator where
  | compares (c : Comparison)
  | rangeMember
deriving DecidableEq, Repr

namespace Comparison

def holds : Comparison → Int → Int → Bool
  | .eq, t, n => t == n
  | .ne, t, n => t != n
  | .gt, t, n => n < t
  | .ge, t, n => n ≤ t
  | .lt, t, n => t < n
  | .le, t, n => t ≤ n

def symbol : Comparison → String
  | .eq => "=="
  | .ne => "!="
  | .gt => ">"
  | .ge => ">="
  | .lt => "<"
  | .le => "<="

def tag : Comparison → String
  | .eq => "eq"
  | .ne => "ne"
  | .gt => "gt"
  | .ge => "ge"
  | .lt => "lt"
  | .le => "le"

end Comparison

namespace Operator

def all : List Operator :=
  [.compares .eq, .compares .ne, .compares .gt, .compares .ge, .compares .lt, .compares .le,
    .rangeMember]

def symbol : Operator → String
  | .compares c => c.symbol
  | .rangeMember => "in"

def tag : Operator → String
  | .compares c => c.tag
  | .rangeMember => "range-member"

def capitals : Operator → String
  | .compares .eq => "EQ"
  | .compares .ne => "NE"
  | .compares .gt => "GT"
  | .compares .ge => "GE"
  | .compares .lt => "LT"
  | .compares .le => "LE"
  | .rangeMember => "IN"

/-- Operators go by their symbol or their tag, in exactly that spelling. -/
def ofText? (s : String) : Option Operator :=
  all.find? fun o => s == o.symbol || s == o.tag

def ofValue? : Value → Option Operator
  | .text s => ofText? s
  | _ => none

end Operator

inductive Condition where
  | compares (c : Comparison) (trigger : Int)
  | isIn (r : Stride)
deriving DecidableEq, Repr

namespace Condition

def operator : Condition → Operator
  | .compares c _ => .compares c
  | .isIn _ => .rangeMember

def trigger : Condition → Value
  | .compares _ t => .whole t
  | .isIn r => .stride r

def holds : Condition → Int → Bool
  | .compares c t, n => c.holds t n
  | .isIn r, n => r.contains n

def of? : Operator → Value → Option Condition
  | .compares c, .whole t => some (.compares c t)
  | .rangeMember, .stride r => some (.isIn r)
  | _, _ => none

end Condition

/-! ## Loose values -/

namespace Comparison

/-- Compares with a value of any kind, if the two can be compared. Values of different kinds
differ, and only numbers have an order; what is not a number differs from all numbers. -/
def holdsOf? (c : Comparison) (t : Int) (v : Value) : Option Bool :=
  match v.number?, v with
  | some s, _ =>
    let (t, n) := Decimal.Binary64.Scaled.aligned ⟨t, 0⟩ s
    some (c.holds t n)
  | none, .real x =>
    some (if x.isNaN then c = .ne else c.holds 0 (if x < 0 then -1 else 1))
  | none, _ =>
    match c with
    | .eq => some false
    | .ne => some true
    | _ => none

end Comparison

def Stride.containsValue (r : Stride) (v : Value) : Bool :=
  match v.number? with
  | some s =>
    let (n, unit) := Decimal.Binary64.Scaled.aligned s ⟨1, 0⟩
    n % unit == 0 && r.contains (n / unit)
  | none => false

def Condition.holdsOf? : Condition → Value → Option Bool
  | .compares c t, v => c.holdsOf? t v
  | .isIn r, v => some (r.containsValue v)

end TabletopDice
