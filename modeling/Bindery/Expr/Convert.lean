import Bindery.Expr

/-!
# Conversions

`Expr.implicit?` inserts the conversions that always succeed, `Expr.explicit` also those that are
checked at run time, and `Expr.convertTo` what the expected type of a binding allows.
-/

namespace Bindery.Expr

variable (e : Expr)

variable (dest : Ty)

/-- The expression at type `dest`, by identity, boxing, typing of a null literal, lifting to a
nullable type, widening of integers, or boxing of list elements. -/
def implicit? : Option Expr :=
  let t := e.type
  if t.identical dest then some e
  else if dest.kind == .any then some (.convert .box e dest)
  else if e.isNullConst then if dest.isNullable then some (.const .null dest) else none
  else if dest.isNullable && t.identical dest.underlying then some (.convert .lift e dest)
  else if t.kind == .int && dest.kind == .float && (dest.isNullable || !t.isNullable) then
    some (.convert .numeric e dest)
  else if t.kind == .list && boxesElements dest then some (.convert .box e dest)
  else none
where
  /-- A list type whose elements may be anything. -/
  boxesElements : Ty → Bool
    | .list elem _ => elem.kind == .any
    | _ => false

/-- A function literal that ignores its parameters and gives `e`, if `dest` is a function type to
whose result `e` converts. -/
def lambda? : Option Expr :=
  match dest with
  | .func params result => do
    let body ← if result.kind == .void then some e else e.implicit? result
    let fresh := e.nextLocal
    let locals := params.mapIdx fun i t =>
      ({ id := fresh + i, name := "_arg" ++ Text.ofNat i, type := t } : Local)
    some (.lambda locals body dest)
  | _ => none

def conversionError : Error :=
  .of .conversion ("cannot convert " ++ e.text ++ " of type " ++ e.type.name ++ " to " ++ dest.name)

/-- The expression at type `dest`: implicitly, else as a text if that is allowed and `dest` is the
type of texts, else as a function literal. An expression of the type of all values becomes a
function literal first, if it can. Nothing is converted to the void type. -/
def convertTo (allowText : Bool) : Except Error Expr :=
  if dest.kind == .void then .ok e
  else
    let direct := (e.implicit? dest).or
      (if allowText && dest.kind == .string then some (.convert .toText e dest) else none)
    let attempts :=
      if e.type.kind == .any then (e.lambda? dest).or direct else direct.or (e.lambda? dest)
    match attempts with
    | some converted => .ok converted
    | none => .error (e.conversionError dest)

def explicit : Except Error Expr :=
  let t := e.type
  match e.implicit? dest with
  | some converted => .ok converted
  | none =>
    if t.kind == .any || t.isNullable && t.underlying.identical dest then
      .ok (.convert .unbox e dest)
    else if t.kind.isNumeric && dest.kind.isNumeric then .ok (.convert .numeric e dest)
    else .error (e.conversionError dest)

end Bindery.Expr
