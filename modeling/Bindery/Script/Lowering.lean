import Bindery.Script.Registry
import Bindery.Server.Eval

/-!
# Scripts of typed expressions

`Expr.lower` gives the client form of an expression in a scope. Fields of view models become cells,
which later passes read. The data context and the binding context are slots, so that a script can be
placed where they have other names.
-/

namespace Bindery

namespace Script

def dataSlot : Text := "$data"

def contextSlot : Text := "$context"

def context : Script := .symbol { notNull := true } contextSlot (some (Script.id contextSlot))

def data : Script := .symbol { notNull := true } dataSlot (some (Script.id dataSlot))

def contextAt : Nat → Script
  | 0 => context
  | n + 1 => ((contextAt n).dot "$parentContext").notNull

end Script

namespace Expr

open Script

def noScript (what : Text) : Fault :=
  Error.of .untranslatable ("no script translation for " ++ what)

def lowerValue (v : Value) : Except Fault Script :=
  match Literal.ofValue? v with
  | some l => .ok (lit l)
  | none => .error (.crash (some ("jsast.Lit: unsupported " ++ v.rep)))

def lowerContext (owner : Scope) (levels : Nat) : Script :=
  if levels == 0 then data
  else if owner.outer.isEmpty then context.dot "$root"
  else if levels == 1 then context.dot "$parent"
  else .index {} (context.dot "$parents") (lit (.int (Int64.ofNat (levels - 1))))

def lowerSpecial (name : Text) (p : Param) (levels : Nat) : Except Fault Script :=
  match p.kind with
  | .index => .ok (((contextAt levels).dot "$index").asCell .cell).notNull
  | .control => .ok (Script.id "$element").notNull
  | .collection => .error (noScript name)
  | .custom => .ok (((contextAt levels).dot p.name).asCell .maybe)

def lowerParam (s : Scope) (name : Text) (owner : Scope) (special : Option Param) :
    Except Fault Script :=
  match levelsOut s name owner with
  | .error e => .error e
  | .ok levels => match special with
    | none =>
      .ok (((lowerContext owner levels).notNull.typed owner.dataType).mark { source := some name })
    | some p => do
      return ((← lowerSpecial name p levels).typed p.type).mark { source := some name }

def lowerUnaryOp : UnaryOp → UnOp
  | .not => .not
  | .negate => .minus
  | .plus => .plus

def lowerBinaryOp : BinaryOp → BinOp
  | .add => .add
  | .sub => .sub
  | .mul => .mul
  | .div => .div
  | .mod => .rem
  | .equal => .looseEq
  | .notEqual => .looseNe
  | .less => .lt
  | .lessEqual => .le
  | .greater => .gt
  | .greaterEqual => .ge
  | .andAlso => .and
  | .orElse => .or
  | .coalesce => .coalesce

/-- An operand of a concatenation, where null counts as the empty text. -/
def concatOperand (x : Script) (t : Ty) : Script :=
  if !t.isNullable || x.marks.notNull then x else (x.orEmpty.notNull).typed .string

/-- `x == null ? null : body`, if `x` may be null. -/
def nullIfNull (t : Ty) (x body : Script) : Script :=
  if (x.type?.map Ty.isNullable).getD false && !x.marks.notNull then
    (Script.cond {} (bin .looseEq x Script.null) Script.null body).typed t
  else body

def lowerBinary (op : BinaryOp) (type s t : Ty) (x y : Script) : Script :=
  if op == .add && type.kind == .string then
    (bin .add (concatOperand x s) (concatOperand y t)).typed type
  else
    let plain := bin (lowerBinaryOp op) x y
    let whole := if op == .div && type.underlying == .int then
        invoke ((Script.id "Math").notNull.dot "trunc") [plain]
      else plain
    let out := whole.typed type
    if op.isArithmetic then nullIfNull type x (nullIfNull type y out) else out

mutual

def lower (r : Registry) (s : Scope) : Expr → Except Fault Script
  | .param n owner special => lowerParam s n owner special
  | .var l => .ok (((Script.id l.name).asCell .maybe).typed l.type)
  | .const v t => do
    let l := (← lowerValue v).typed t
    return if v.isNull then l else l.notNull
  | .typeRef t => .error (typeNotValue t)
  | .member x f => do
    let recv ← lower r s x
    match r.member? f with
    | some form => return (← form recv).typed f.type
    | none =>
      let kind := x.type.kind
      if kind != .object && kind != .any then throw (noScript f.fullName)
      return ((recv.dot f.name).asCell .cell).typed f.type
  | .call x m args =>
    match r.method? m with
    | none => .error (noScript m.fullName)
    | some form => do
      let recv ← lower r s x
      let args ← lowerList r s args
      return (← form (some recv) args).typed m.result
  | .callStatic m args =>
    match r.method? m with
    | none => .error (noScript m.fullName)
    | some form => do
      let args ← lowerList r s args
      return (← form none args).typed m.result
  | .index x k t => do
    let x ← lower r s x
    let k ← lower r s k
    return ((Script.index {} x k).asCell .maybe).typed t
  | .unary op x => do
    let x' ← lower r s x
    return (Script.unary {} (lowerUnaryOp op) x').typed x.type
  | .binary op x y t => do
    let x' ← lower r s x
    let y' ← lower r s y
    return lowerBinary op t x.type y.type x' y'
  | .cond c t e ty => do
    let c ← lower r s c
    let t ← lower r s t
    let e ← lower r s e
    return (Script.cond {} c t e).typed ty
  | .convert kind x t => do
    let x ← lower r s x
    match kind with
    | .toText => return x.toText.typed t
    | .box => return x
    | .lift => return x
    | _ => return x.typed t
  | .lambda ps b t => do
    let b ← lower r s b
    return ((Script.arrow {} (ps.map (·.name)) b).notNull).typed t
  | .list xs t => do
    let xs ← lowerList r s xs
    return ((Script.array {} xs).notNull).typed t
  | .guard x v b t => do
    let x ← lower r s x
    let b ← lower r s b
    let default ← lowerValue t.default
    let test := bin .looseEq (Script.id v.name) Script.null
    return (invoke (.arrow {} [v.name] (.cond {} test default b)) [x]).typed t

def lowerList (r : Registry) (s : Scope) : List Expr → Except Fault (List Script)
  | [] => .ok []
  | x :: xs => do
    let x ← lower r s x
    return x :: (← lowerList r s xs)

end

end Expr

end Bindery
