import Bindery.Expr

/-!
# Propagation of null

`Expr.guardNulls` guards every member access, instance call and element access whose receiver may be
null: if the receiver is null, the rest of the chain is skipped and the chain has the default value
of its type. With `b` and `c` nullable, `a.b.c.d` becomes

    a.b is {} v0 ? (v0.c is {} v1 ? v1.d : default) : default

so accesses that are applied to a guarded chain end up inside its innermost guard.
-/

namespace Bindery

inductive GuardChain where
  | done (e : Expr)
  | guarded (x : Expr) (v : Local) (rest : GuardChain)

namespace GuardChain

def toExpr : GuardChain → Expr
  | .done e => e
  | .guarded x v rest => let body := rest.toExpr; .guard x v body body.type

end GuardChain

namespace Expr

def mayBeNull : Expr → Bool
  | .param .. => false
  | .typeRef _ => false
  | .lambda .. => false
  | .list .. => false
  | .const v t => t.isNullable && v.isNull
  | .var l => l.type.isNullable && !l.nonNull
  | .convert _ x t => t.isNullable && x.mayBeNull
  | e => e.type.isNullable

/-- The variable of the `n`-th guard. Variable numbers start at `base`. -/
def guardVar (base n : Nat) (t : Ty) : Local :=
  { id := base + n, name := "v" ++ Text.ofNat n, type := t, nonNull := true }

/-- `build` applied inside the innermost guard of the receiver, which is guarded itself if it may be
null. The state counts the guards. -/
def accessGuarded (base : Nat) (build : Expr → Expr) : GuardChain → StateM Nat GuardChain
  | .guarded x v rest => return .guarded x v (← accessGuarded base build rest)
  | .done e =>
    if e.mayBeNull then do
      let n ← getModify (· + 1)
      let v := guardVar base n e.type
      return .guarded e v (.done (build (.var v)))
    else return .done (build e)

mutual

/-- `guardNulls` as a chain, so that an access around it can join its guards. -/
def guardChain (base : Nat) : Expr → StateM Nat GuardChain
  | .member x f => do accessGuarded base (.member · f) (← guardChain base x)
  | .call x m args => do
    let args ← guardList base args
    accessGuarded base (.call · m args) (← guardChain base x)
  | .callStatic m args => return .done (.callStatic m (← guardList base args))
  | .index x k t => do
    let k := (← guardChain base k).toExpr
    accessGuarded base (.index · k t) (← guardChain base x)
  | .unary op x => return .done (.unary op (← guardChain base x).toExpr)
  | .binary op x y t => do
    let x := (← guardChain base x).toExpr
    let y := (← guardChain base y).toExpr
    return .done (.binary op x y t)
  | .cond c t e ty => do
    let c := (← guardChain base c).toExpr
    let t := (← guardChain base t).toExpr
    let e := (← guardChain base e).toExpr
    return .done (.cond c t e ty)
  | .convert k x t => return .done (.convert k (← guardChain base x).toExpr t)
  | .lambda ps b t => return .done (.lambda ps (← guardChain base b).toExpr t)
  | .list xs t => return .done (.list (← guardList base xs) t)
  | .guard x v b t => do
    let x := (← guardChain base x).toExpr
    let b := (← guardChain base b).toExpr
    return .done (.guard x v b t)
  | e => return .done e

def guardList (base : Nat) : List Expr → StateM Nat (List Expr)
  | [] => return []
  | x :: xs => do
    let x := (← guardChain base x).toExpr
    return x :: (← guardList base xs)

end

def guardNulls (e : Expr) : Expr := ((guardChain e.nextLocal e).run 0).1.toExpr

end Expr

end Bindery
