import Bindery.Expr.NullGuard
import Bindery.Server.Operator

/-!
# Evaluation on the server

`Expr.eval` evaluates an expression in a frame: the data contexts, the control that supplies special
parameters, and the variables in scope. `Expr.checked` rejects expressions that cannot be evaluated
whatever the frame. `Reader` is a compiled binding: it evaluates the expression with guards for
null receivers.
-/

namespace Bindery

/-- Supplies the values of special parameters. The number is that of the levels between the
binding's scope and the scope that declares the parameter. -/
abbrev Control := Param → Nat → Option Value

/-- The state of one evaluation. Data contexts come innermost first. -/
structure Frame where
  vms : List Value
  control : Option Control := none
  vars : List (Nat × Operand) := []

namespace Frame

def get (fr : Frame) (id : Nat) : Operand :=
  match fr.vars.find? fun b => b.1 == id with
  | some (_, x) => x
  | none => .value .null

def bind (fr : Frame) (l : Local) (x : Operand) : Frame := { fr with vars := (l.id, x) :: fr.vars }

def bindAll (fr : Frame) : List Local → List Value → Frame
  | l :: ls, v :: vs => (fr.bind l v).bindAll ls vs
  | _, _ => fr

end Frame

namespace Expr

/-- The number of levels from `s` out to the scope that a parameter refers to. -/
def levelsOut (s : Scope) (name : Text) (owner : Scope) : Except Error Nat :=
  let n := s.depth - owner.depth
  match s.ancestor? n with
  | some a => if owner.depth ≤ s.depth && a.same owner then .ok n else .error outside
  | none => .error outside
where
  outside : Error := .of .shape (name ++ " refers to a scope outside of " ++ s.dataType.name)

def typeNotValue (t : Ty) : Error := .of .ambiguity (t.name ++ " is a type, not a value")

mutual

/-- The first reason, in the order of evaluation, why the expression has no server form in the scope
`s`. -/
def checked (s : Scope) : Expr → Except Error Unit
  | .param n owner _ => discard (levelsOut s n owner)
  | .typeRef t => .error (typeNotValue t)
  | .member x _ => checked s x
  | .call x m args => do
    checked s x
    checkedList s args
    implemented m
  | .callStatic m args => do
    checkedList s args
    implemented m
  | .index x k _ => do
    checked s x
    checked s k
  | .unary _ x => checked s x
  | .binary _ x y _ => do
    checked s x
    checked s y
  | .cond c t e _ => do
    checked s c
    checked s t
    checked s e
  | .convert _ x _ => checked s x
  | .lambda _ b _ => checked s b
  | .list xs _ => checkedList s xs
  | .guard x _ b _ => do
    checked s x
    checked s b
  | .var _ => .ok ()
  | .const .. => .ok ()
where
  implemented (m : Method) : Except Error Unit :=
    if m.run.isSome then .ok ()
    else .error (.of .shape ("method " ++ m.fullName ++ " has no server implementation"))

def checkedList (s : Scope) : List Expr → Except Error Unit
  | [] => .ok ()
  | x :: xs => do
    checked s x
    checkedList s xs

end

variable (e : Expr)

def failed (cause : EvalCause) : Fault := Error.eval e.text cause

/-- A failure inside an expression: crashes pass, errors are reported with the expression. -/
def failedIn : Fault → Fault
  | .error err => e.failed (.member err.message)
  | crash => crash

def readField (f : Field) (recv : Operand) : Except Fault Operand :=
  match recv with
  | .value .null => .error (e.failed (.accessOnNull f.name))
  | _ =>
    match f.get with
    | some get => match get recv.toValue with
      | .ok v => .ok (v.normalize f.type)
      | .error err => .error (e.failed (.member err.message))
    | none => match recv with
      | .value (.object _ fields) => .ok (((Record.get? f.name fields).getD .null).normalize f.type)
      | _ => .error (e.failed (.accessOn f.name recv.rep))

def readElement (recv key : Operand) : Except Fault Operand :=
  match recv with
  | .value .null => .error (e.failed .indexOfNull)
  | .value (.list _ items) => match key with
    | .value (.int i) =>
      match if 0 ≤ i.toInt then items[i.toInt.toNat]? else none with
      | some v => .ok (v.normalize e.type)
      | none => .error (e.failed (.indexRange (Text.ofInt i.toInt) items.length))
    | _ => .error (e.failed (.indexKey key.rep))
  | .value (.object _ fields) => match key with
    | .value (.text k) => .ok (((Record.get? k fields).getD .null).normalize e.type)
    | _ => .error (e.failed (.objectKey key.rep))
  | _ => .error (e.failed (.notIndexable recv.rep))

def applyUnary (op : UnaryOp) (x : Operand) : Except Fault Operand :=
  match op, x with
  | .not, .value (.bool b) => .ok (Value.bool !b)
  | .not, _ => .error .misfit
  | .negate, .value (.int n) => .ok (Value.int (-n))
  | .negate, .value (.float y) => .ok (Value.float (-y))
  | .negate, _ => .error (e.failed (.operand x.rep))
  | .plus, _ => .ok x

def applyConversion (kind : Conversion) (t : Ty) (x : Operand) : Operand :=
  match kind, x with
  | .numeric, .value (.int n) => if t.kind == .float then Value.float (Float.ofInt n.toInt) else x
  | .numeric, .value (.float y) => if t.kind == .int then Value.int (Number.toInt64 y) else x
  | .toText, .value .null => x
  | .toText, _ => Value.text x.toValue.format
  | .unbox, .value .null => t.default
  | .unbox, .value v => v.normalize t
  | _, _ => x

def readParam (fr : Frame) (p : Param) (levels : Nat) : Except Fault Operand :=
  match fr.control with
  | none => .error (e.failed (.noControl p.name))
  | some control => match control p levels with
    | some v => .ok (v.normalize p.type)
    | none => .error (e.failed (.noParameter p.name))

def applyStrict (op : BinaryOp) (t : Ty) (l r : Operand) : Except Fault Operand :=
  if op == .add && t.kind == .string then .ok (Value.text (l.toValue.format ++ r.toValue.format))
  else match Value.apply op l.toValue r.toValue with
    | .ok v => .ok v
    | .error fault => .error (failedIn e fault)

/-- A binary operator on the value of its left operand. The right operand is evaluated only where it
decides. -/
def applyBinary (op : BinaryOp) (t : Ty) (l : Operand)
    (right : Unit → Except Fault Operand) : Except Fault Operand :=
  match op with
  | .andAlso =>
    if l.isTrue then do return Value.bool (← right ()).isTrue else .ok (Value.bool false)
  | .orElse => if l.isTrue then .ok (Value.bool true) else do return Value.bool (← right ()).isTrue
  | .coalesce => if l.isNull then right () else .ok l
  | _ => do applyStrict e op t l (← right ())

def applyMethod (m : Method) (recv : Operand) (args : List Operand) : Except Fault Operand :=
  match m.run with
  | none => .error (Error.of .shape ("method " ++ m.fullName ++ " has no server implementation"))
  | some run => match run recv args with
    | .ok (.value v) => .ok (v.normalize m.result)
    | .ok f => .ok f
    | .error fault => .error (e.failedIn fault)

mutual

def eval (s : Scope) (fr : Frame) : Expr → Except Fault Operand
  | .param n owner special =>
    match levelsOut s n owner with
    | .error err => .error err
    | .ok levels => match special with
      | some p => readParam (.param n owner special) fr p levels
      | none => match fr.vms[levels]? with
        | some v => .ok v
        | none => .error
          (failed (.param n owner special) (.shortChain fr.vms.length (levels + 1)))
  | .var l => .ok (fr.get l.id)
  | .const v _ => .ok v
  | .typeRef t => .error (typeNotValue t)
  | .member x f => do
    let recv ← eval s fr x
    readField (.member x f) f recv
  | .call x m args => do
    let recv ← eval s fr x
    if recv.isNull then .error (failed (.call x m args) (.callOnNull m.name))
    else
      let vals ← evalList s fr args
      applyMethod (.call x m args) m recv vals
  | .callStatic m args => do
    let vals ← evalList s fr args
    applyMethod (.callStatic m args) m (.value .null) vals
  | .index x k t => do
    let recv ← eval s fr x
    let key ← eval s fr k
    readElement (.index x k t) recv key
  | .unary op x => do
    let v ← eval s fr x
    if v.isNull then return v else applyUnary (.unary op x) op v
  | .binary op x y t => do
    let l ← eval s fr x
    applyBinary (.binary op x y t) op t l fun _ => eval s fr y
  | .cond c t e _ => do
    if (← eval s fr c).isTrue then eval s fr t else eval s fr e
  | .convert kind x t => return applyConversion kind t (← eval s fr x)
  | .lambda ps b _ => .ok (.func fun args => eval s (fr.bindAll ps args) b)
  | .list xs _ => return Value.list none ((← evalList s fr xs).map Operand.toValue)
  | .guard x v b t => do
    let recv ← eval s fr x
    if recv.isNull then return t.default else eval s (fr.bind v recv) b

def evalList (s : Scope) (fr : Frame) : List Expr → Except Fault (List Operand)
  | [] => .ok []
  | x :: xs => do
    let v ← eval s fr x
    return v :: (← evalList s fr xs)

end

end Expr

structure Reader where
  expr : Expr
  scope : Scope

namespace Reader

def compile (e : Expr) (s : Scope) : Except Error Reader := do
  let guarded := e.guardNulls
  guarded.checked s
  return ⟨guarded, s⟩

def read (r : Reader) (vms : List Value) (control : Option Control) : Except Fault Operand :=
  r.expr.eval r.scope { vms, control }

end Reader

end Bindery
