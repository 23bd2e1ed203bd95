import Bindery.Client.Value

/-!
# Evaluation of scripts

`Script.eval` evaluates a script on a `Host`, which supplies the global names, the members of values
and the calls of functions. Everything else is fixed by the language: the order of evaluation, what
is evaluated at all, variables, and the operators.

An `Environment` is a host up to the calls of functions that scripts define;
`Environment.callWithin` adds them.
-/

namespace Bindery.Client

abbrev Caller := Value → Value → List Value → Run Value

structure Host where
  global : Text → Option Value
  member : Value → Text → Run Value
  element : Value → Value → Run Value
  call : Caller
  construct : Value → List Value → Run Value
  /-- The primitive value that a value counts as; with `preferText` its text is asked for. -/
  primitive : Bool → Value → Run Value
  same : Value → Value → Run Bool
  /-- Stores the third value in the first one, under the key that the second one is. -/
  store : Value → Value → Value → Run Unit

/-- What an assignment stores into. -/
inductive Target where
  | name (n : Text)
  | property (v key : Value)

namespace Host

variable (h : Host)

def toNumber (v : Value) : Run Number := do return (← h.primitive false v).toNumber

def toText (v : Value) : Run Text := do return (← h.primitive true v).toText

def compare (onUnits : List Nat → List Nat → Bool) (onNumbers : Number → Number → Bool)
    (v w : Value) : Run Value := do
  let a ← h.primitive false v
  let b ← h.primitive false w
  match a, b with
  | .text s, .text t => return .bool (onUnits s.units16 t.units16)
  | _, _ => return .bool (onNumbers a.toNumber b.toNumber)

def primitiveEq (a b : Value) : Bool :=
  match a, b with
  | .undefined, .null => true
  | .null, .undefined => true
  | .undefined, .undefined => true
  | .null, .null => true
  | .undefined, _ => false
  | .null, _ => false
  | _, .undefined => false
  | _, .null => false
  | .text s, .text t => s == t
  | _, _ => a.toNumber.eq b.toNumber

def strictEq (v w : Value) : Run Bool :=
  match v, w with
  | .undefined, .undefined => return true
  | .null, .null => return true
  | .bool a, .bool b => return a == b
  | .number a, .number b => return a.eq b
  | .text a, .text b => return a == b
  | .native a, .native b => return a == b
  | _, _ => if v.isPrimitive || w.isPrimitive then return false else h.same v w

/-- Equality of list elements: as `strictEq`, but NaN equals itself. -/
def sameElement (v w : Value) : Run Bool :=
  match v, w with
  | .number a, .number b => return a.eq b || a.isNaN && b.isNaN
  | _, _ => h.strictEq v w

def hasElement (w : Value) : List Value → Run Bool
  | [] => return false
  | v :: vs => do if ← h.sameElement v w then return true else hasElement w vs

def looseEq (v w : Value) : Run Bool := do
  if v.isPrimitive then
    if w.isPrimitive then return primitiveEq v w
    else if v.isNullish then return false
    else return primitiveEq v (← h.primitive false w)
  else if w.isPrimitive then
    if w.isNullish then return false else return primitiveEq (← h.primitive false v) w
  else h.strictEq v w

def arith (f : Number → Number → Number) (v w : Value) : Run Value := do
  let a ← h.toNumber v
  let b ← h.toNumber w
  return .number (f a b)

def add (v w : Value) : Run Value := do
  let a ← h.primitive false v
  let b ← h.primitive false w
  match a, b with
  | .text s, _ => return .text (s ++ b.toText)
  | _, .text t => return .text (a.toText ++ t)
  | _, _ => return .number (a.toNumber.add b.toNumber)

def binary (op : BinOp) (v w : Value) : Run Value :=
  match op with
  | .add => h.add v w
  | .sub => h.arith .sub v w
  | .mul => h.arith .mul v w
  | .div => h.arith .div v w
  | .rem => h.arith .rem v w
  | .lt => h.compare Text.unitsLt Number.lt v w
  | .le => h.compare (fun a b => !Text.unitsLt b a) Number.le v w
  | .gt => h.compare (fun a b => Text.unitsLt b a) (fun a b => Number.lt b a) v w
  | .ge => h.compare (fun a b => !Text.unitsLt a b) (fun a b => Number.le b a) v w
  | .looseEq => do return .bool (← h.looseEq v w)
  | .looseNe => do return .bool !(← h.looseEq v w)
  | .strictEq => do return .bool (← h.strictEq v w)
  | .strictNe => do return .bool !(← h.strictEq v w)
  | .coalesce => return if v.isNullish then w else v
  | .or => return if v.isTrue then v else w
  | .and => return if v.isTrue then w else v
  | .assign => return w

def unary (op : UnOp) (v : Value) : Run Value :=
  match op with
  | .plus => do return .number (← h.toNumber v)
  | .minus => do return .number (← h.toNumber v).neg
  | .not => return .bool !v.isTrue
  | .typeof => return .text v.typeName
  | .void => return .undefined

def name (env : Env) (n : Text) : Run Value :=
  match env.lookup n with
  | some (.fixed v) => return v
  | some (.place i) => Run.load i
  | none => match h.global n with
    | some v => return v
    | none => throw .thrown

/-- Of the names, only variables can be assigned to. -/
def assign (env : Env) (v : Value) : Target → Run Unit
  | .name n => match env.lookup n with
    | some (.place i) => Run.store i v
    | _ => throw .thrown
  | .property w key => h.store w key v

end Host

/-- The right operand of a short-circuit operator decides, given the value of the left one. -/
def needsRight (op : BinOp) (v : Value) : Bool :=
  match op with
  | .and => v.isTrue
  | .or => !v.isTrue
  | .coalesce => v.isNullish
  | _ => true

/-- The parameters of a function in front of the names in scope. Those that are assigned to are new
variables, which are empty if there is no argument; the others stand for their arguments. -/
def bindParams (assigned : List Text) : List Text → List Value → Env → Run Env
  | [], _, env => return env
  | p :: ps, args, env => do
    if assigned.contains p then
      let i ← Run.alloc args.head?
      bindParams assigned ps args.tail ((p, .place i) :: env)
    else bindParams assigned ps args.tail ((p, .fixed (args.headD .undefined)) :: env)

end Bindery.Client

namespace Bindery.Script

open Client

mutual

/-- The value of a script, and the receiver that it has as the callee of a call. -/
def evalRef (h : Host) (env : Env) : Script → Run (Client.Value × Client.Value)
  | .ident _ n => do return (.undefined, ← h.name env n)
  | .literal _ v => return (.undefined, .ofLiteral v)
  | .symbol _ _ (some d) => evalRef h env d
  | .symbol _ _ none => throw .thrown
  | .member _ x n => do
    let (_, v) ← evalRef h env x
    return (v, ← h.member v n)
  | .index _ x k => do
    let (_, v) ← evalRef h env x
    let (_, key) ← evalRef h env k
    return (v, ← h.element v key)
  | .call _ f args => evalCall h env (evalRef h env f) (evalList h env args) f
  | .construct _ f args => do
    let (_, fn) ← evalRef h env f
    let vs ← evalList h env args
    return (.undefined, ← h.construct fn vs)
  | .unary _ op x => do
    let (_, v) ← evalRef h env x
    return (.undefined, ← h.unary op v)
  | .binary _ .assign x y => do
    let target ← evalTarget h env x
    let (_, v) ← evalRef h env y
    h.assign env v target
    return (.undefined, v)
  | .binary _ op x y => do
    let (_, v) ← evalRef h env x
    if needsRight op v then
      let (_, w) ← evalRef h env y
      return (.undefined, ← h.binary op v w)
    else return (.undefined, v)
  | .cond _ c t e => do
    let (_, v) ← evalRef h env c
    if v.isTrue then
      let (_, r) ← evalRef h env t
      return (.undefined, r)
    else
      let (_, r) ← evalRef h env e
      return (.undefined, r)
  | .array _ xs => do
    let vs ← evalList h env xs
    return (.undefined, .array (← Run.fresh) vs)
  | .object _ ps => do
    let fs ← evalProps h env ps
    return (.undefined, .object (← Run.fresh) fs)
  | .paren _ x => evalRef h env x
  | .function _ ps body => do return (.undefined, .closure (← Run.fresh) ps body env)
  | .arrow _ ps body => do return (.undefined, .closure (← Run.fresh) ps body env)
  | .sequence _ xs => do
    let vs ← evalList h env xs
    return (.undefined, vs.getLastD .undefined)

/-- What an assignment to a script stores into. The object and the key of a property are evaluated
before the value that is stored. -/
def evalTarget (h : Host) (env : Env) : Script → Run Target
  | .ident _ n => return .name n
  | .symbol _ _ (some d) => evalTarget h env d
  | .paren _ x => evalTarget h env x
  | .member _ x n => do
    let (_, v) ← evalRef h env x
    return .property v (.text n)
  | .index _ x k => do
    let (_, v) ← evalRef h env x
    let (_, key) ← evalRef h env k
    return .property v key
  | _ => throw .thrown

/-- The value of a call, where `callee` gives the function with its receiver and `args` the
arguments. A function literal is evaluated in place. -/
def evalCall (h : Host) (env : Env) (callee : Run (Client.Value × Client.Value))
    (args : Run (List Client.Value)) : Script → Run (Client.Value × Client.Value)
  | .paren _ f => evalCall h env callee args f
  | .function _ ps body => do
    let vs ← args
    let (_, v) ← evalRef h (← bindParams body.assigned ps vs env) body
    return (.undefined, v)
  | .arrow _ ps body => do
    let vs ← args
    let (_, v) ← evalRef h (← bindParams body.assigned ps vs env) body
    return (.undefined, v)
  | _ => do
    let (receiver, fn) ← callee
    let vs ← args
    return (.undefined, ← h.call fn receiver vs)

def evalList (h : Host) (env : Env) : List Script → Run (List Client.Value)
  | [] => return []
  | x :: xs => do
    let (_, v) ← evalRef h env x
    return v :: (← evalList h env xs)

/-- The fields of an object literal; the last one of a name counts. -/
def evalProps (h : Host) (env : Env) : Record Script → Run (Record Client.Value)
  | [] => return []
  | (k, x) :: ps => do
    let (_, v) ← evalRef h env x
    let rest ← evalProps h env ps
    return if (rest.get? k).isSome then rest else (k, v) :: rest

end

/-- The value of a script. Marks have no part in it. -/
def eval (h : Host) (env : Env) (s : Script) : Run Client.Value := do
  return (← s.bare.evalRef h env).2

end Bindery.Script

namespace Bindery.Client

/-- What scripts run on, up to the calls of functions that scripts define. What may call functions
is told how. -/
structure Environment where
  global : Text → Option Value
  member : Value → Text → Run Value
  element : Caller → Value → Value → Run Value
  call : Caller → Caller
  construct : Caller → Value → List Value → Run Value
  primitive : Caller → Bool → Value → Run Value
  same : Value → Value → Run Bool
  store : Caller → Value → Value → Value → Run Unit

namespace Environment

def host (E : Environment) (call : Caller) : Host where
  global := E.global
  member := E.member
  element := E.element call
  call := call
  construct := E.construct call
  primitive := E.primitive call
  same := E.same
  store := E.store call

/-- Calls a function; calls nest at most as deep as the bound says. -/
def callWithin (E : Environment) : Nat → Caller
  | 0, _, _, _ => throw .thrown
  | depth + 1, f, this, args =>
    match f with
    | .closure _ params body env => do
      let inner ← bindParams body.assigned params args env
      return (← body.evalRef (E.host (E.callWithin depth)) inner).2
    | _ => E.call (E.callWithin depth) f this args

def eval (E : Environment) (depth : Nat) (env : Env) (s : Script) : Run Value :=
  s.eval (E.host (E.callWithin depth)) env

end Environment

end Bindery.Client
