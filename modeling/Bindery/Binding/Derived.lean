import Bindery.Expr

/-!
# Expressions of derived bindings
-/

namespace Bindery.Expr

/-- The negation of an expression. A negation is undone, and an equality turned into the opposite
one. -/
def negation : Expr → Except Error Expr
  | .unary .not x => .ok x
  | .binary .equal x y t => .ok (.binary .notEqual x y t)
  | .binary .notEqual x y t => .ok (.binary .equal x y t)
  | e => newUnary .not e

def nullTest (e : Expr) : Except Error Expr :=
  if e.type.kind.isValue && !e.type.isNullable then .ok (.const (.bool false) .bool)
  else newBinary .equal e .null

def textTest (method : Text) (c : Catalog) (e : Expr) : Except Error Expr :=
  if e.type.kind != .string then
    .error (.of .shape
      (e.text ++ " is of type " ++ e.type.name ++ ", not " ++ Ty.string.name))
  else match newStaticCall c .string method [e] with
    | .ok test => .ok test
    | .error err => .error (.of .shape err.message)

def positiveTest (e : Expr) : Except Error Expr := newBinary .greater e (.const (.int 0) .int)

def lengthOf (c : Catalog) (e : Expr) : Except Error Expr :=
  match e.type.kind with
  | .list => newMember c e "Count"
  | .string => newMember c e "Length"
  | _ =>
    .error (.of .shape ("cannot find the length of " ++ e.text ++ " of type " ++ e.type.name))

def isConst : Expr → Bool
  | .const .. => true
  | _ => false

mutual

/-- The expression without conversions, unary operations, and operations with constants around it.
There is none under a static `ToString` without arguments. -/
def unwrap? : Expr → Option Expr
  | .unary _ x => unwrap? x
  | .convert _ x _ => unwrap? x
  | .call x m args => if m.name == "ToString" then unwrap? x else some (.call x m args)
  | .callStatic m args =>
    if m.name == "ToString" then unwrapFirst? args else some (.callStatic m args)
  | .binary op x y t =>
    if y.isConst then unwrap? x else if x.isConst then unwrap? y else some (.binary op x y t)
  | e => some e

def unwrapFirst? : List Expr → Option Expr
  | [] => none
  | x :: _ => unwrap? x

end

end Bindery.Expr
