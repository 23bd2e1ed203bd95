import Bindery.Expr
import Bindery.Number

/-!
# Operators on values

`Value.normalize` brings a value into the standard form of a type, and `Value.apply` is the strict
binary operators. Arithmetic with null is null, and comparisons with null are false.
-/

namespace Bindery.Value

def normalize (t : Ty) : Value → Value
  | .loose (.word n) => ofInt n
  | .loose (.int32 n) => ofInt n.toInt64
  | .loose (.single x) => ofFloat x.toFloat
  | .loose (.texts ts) => .list none (ts.map .text)
  | .int n => ofInt n
  | .float x => ofFloat x
  | v => v
where
  ofInt (n : Int64) : Value := if t.kind == .float then .float n.toFloat else .int n
  ofFloat (x : Float) : Value :=
    if t.kind == .int && Number.isWhole x then .int (Number.toInt64 x) else .float x

def toFloat? : Value → Option Float
  | .int n => some (Float.ofInt n.toInt)
  | .float x => some x
  | _ => none

/-- Equality of values. Numbers are compared as floats; lists and objects equal nothing. -/
def equals (x y : Value) : Bool :=
  match x.toFloat? with
  | some a => match y.toFloat? with
    | some b => a == b
    | none => false
  | none => x.sameScalar y

variable (op : BinaryOp)

/-- The outcome of a comparison operator, given how the operands compare. Other operators have
none. -/
def ordered (o : Ordering) : Except Fault Value :=
  match op with
  | .less => .ok (.bool (o == .lt))
  | .lessEqual => .ok (.bool (o != .gt))
  | .greater => .ok (.bool (o == .gt))
  | .greaterEqual => .ok (.bool (o != .lt))
  | _ => .error .misfit

def applyInt (x y : Int64) : Except Fault Value :=
  match op with
  | .add => .ok (.int (x + y))
  | .sub => .ok (.int (x - y))
  | .mul => .ok (.int (x * y))
  | .div => if y == 0 then .error divisionByZero else .ok (.int (x / y))
  | .mod => if y == 0 then .error divisionByZero else .ok (.int (x % y))
  | _ => ordered op (if x < y then .lt else if y < x then .gt else .eq)
where
  divisionByZero : Fault := Error.plain EvalCause.divisionByZero.message

def applyFloat (x y : Float) : Except Fault Value :=
  match op with
  | .add => .ok (.float (x + y))
  | .sub => .ok (.float (x - y))
  | .mul => .ok (.float (x * y))
  | .div => .ok (.float (x / y))
  | .mod => .ok (.float (Number.remainder x y))
  | _ =>
    if x < y then ordered op .lt
    else if y < x then ordered op .gt
    else if x == y then ordered op .eq
    else .ok (.bool false)

def apply (x y : Value) : Except Fault Value :=
  match op with
  | .equal => .ok (.bool (x.equals y))
  | .notEqual => .ok (.bool !(x.equals y))
  | _ =>
    let misfit : Except Fault Value :=
      .error (Error.plain (EvalCause.operands op.text x.rep y.rep).message)
    match x, y with
    | .null, _ => .ok (if op.isComparison then .bool false else .null)
    | _, .null => .ok (if op.isComparison then .bool false else .null)
    | .text a, .text b => if op.isComparison then ordered op (a.compare b) else misfit
    | .int a, .int b => applyInt op a b
    | _, _ =>
      match x.toFloat?, y.toFloat? with
      | some a, some b => applyFloat op a b
      | _, _ => misfit

end Bindery.Value
