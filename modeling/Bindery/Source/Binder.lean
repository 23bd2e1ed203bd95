import Bindery.Expr.Convert
import Bindery.Source.Parser

/-!
# Binding of names

`Source.bind` makes a typed expression out of a syntax tree: identifiers become parameters of the
scope, members of the data context, parameters of function literals or types, and every operation is
checked against the types of its operands.
-/

namespace Bindery.Source

structure Names where
  src : Text
  scope : Scope
  types : Universe
  locals : List Local := []

/-- What the binding of names leaves behind: the constructed types, and the number of the next
variable. -/
structure Session where
  table : TypeTable := {}
  nextLocal : Nat := 0

abbrev Binder := ExceptT Error (StateM Session)

namespace Binder

def construct (build : TypeTable → Ty × TypeTable) : Binder Ty := do
  let s ← get
  let (t, table) := build s.table
  set { s with table }
  return t

def typeNamed (u : Universe) (expression : Text) (namespaces : List Text) : Binder Ty := do
  let s ← get
  let (t, table) := u.parse expression namespaces s.table
  set { s with table }
  match t with
  | .ok t => return t
  | .error e => throw (.plain e.message)

def freshLocal (name : Text) (t : Ty) : Binder Local := do
  let s ← get
  set { s with nextLocal := s.nextLocal + 1 }
  return { id := s.nextLocal, name, type := t }

def attempt {α : Type} (step : Binder α) : Binder (Except Error α) :=
  ExceptT.mk (Except.ok <$> step.run)

end Binder

open Binder

namespace Names

variable (names : Names)

/-- Fails at a place of the syntax tree. The offset does not count the parenthesis in front of the
source. -/
def failAt {α : Type} (offset : Option Nat) (note : Text) : Binder α :=
  throw (.source names.src (offset.map (· - 1)) note)

def fail {α : Type} (t : Tree) (note : Text) : Binder α :=
  names.failAt t.offset? note

/-- The type that a name denotes. The name or its first part may be an alias. -/
def type? (name : Text) : Option Ty :=
  let full := match name.cut? "." with
    | some (first, rest) =>
      if first.isEmpty then name
      else match names.scope.findAlias first with
        | some ns => ns ++ "." ++ rest
        | none => name
    | none => (names.scope.findAlias name).getD name
  names.types.lookup full names.scope.namespaces

/-- The number of levels out that a name of an outer data context says. -/
def levelsOut? (name : Text) : Option Nat := do
  let rest ← name.dropStart? "_parent"
  if rest.isEmpty then some 1
  else
    let n ← Decimal.int64? rest
    if 1 ≤ n.toInt then some n.toInt.toNat else none

def ident (offset : Option Nat) (name : Text) : Binder Expr := do
  let catalog := names.types.catalog
  let declared : Binder Expr :=
    match names.scope.resolve name with
    | some (p, owner) => return .param name owner (some p)
    | none => match names.scope.dataType.field? catalog name with
      | some f => return .member (.dataContext names.scope "_this") f
      | none => match names.type? name with
        | some t => return .typeRef t
        | none => names.failAt offset ("undefined: " ++ name)
  match names.locals.find? fun l => l.name == name with
  | some l => return .var l
  | none =>
    if name = "_this" then return .dataContext names.scope name
    else if name = "_root" then return .dataContext names.scope.root name
    else match levelsOut? name with
      | some n => match names.scope.ancestor? n with
        | some s => return .dataContext s name
        | none =>
          names.failAt offset
            (name ++ ": scope has only " ++ Text.ofNat names.scope.depth ++ " parents")
      | none => declared

end Names

def qualifiedName? : Tree → Option Text
  | .ident _ name => some name
  | .dot x name => (qualifiedName? x).map (· ++ "." ++ name)
  | _ => none

def formName : Tree → Text
  | .object .. => "*ast.ObjectLiteral"
  | .function .. => "*ast.FunctionLiteral"
  | .assign .. => "*ast.AssignExpression"
  | .sequence _ => "*ast.SequenceExpression"
  | .spread _ => "*ast.SpreadElement"
  | .construct .. => "*ast.NewExpression"
  | .other .classLiteral _ => "*ast.ClassLiteral"
  | .other .this _ => "*ast.ThisExpression"
  | .other .super _ => "*ast.SuperExpression"
  | .other .new _ => "*ast.NewExpression"
  | .other .template _ => "*ast.TemplateLiteral"
  | .other .regex _ => "*ast.RegExpLiteral"
  | .other .optionalChain _ => "*ast.OptionalChain"
  | .other .metaProperty _ => "*ast.MetaProperty"
  | .other .privateName _ => "*ast.PrivateIdentifier"
  | .other .privateMember _ => "*ast.PrivateDotExpression"
  | .other .await _ => "*ast.AwaitExpression"
  | .other .yield _ => "*ast.YieldExpression"
  | _ => "<nil>"

def unaryOp? : String → Option UnaryOp
  | "!" => some .not
  | "-" => some .negate
  | "+" => some .plus
  | _ => none

def binaryOp? : String → Option BinaryOp
  | "+" => some .add
  | "-" => some .sub
  | "*" => some .mul
  | "/" => some .div
  | "%" => some .mod
  | "==" => some .equal
  | "===" => some .equal
  | "!=" => some .notEqual
  | "!==" => some .notEqual
  | "<" => some .less
  | "<=" => some .lessEqual
  | ">" => some .greater
  | ">=" => some .greaterEqual
  | "&&" => some .andAlso
  | "||" => some .orElse
  | "??" => some .coalesce
  | _ => none

def unify (x y : Expr) : Binder (Option (Ty × Expr × Expr)) := do
  let s := x.type
  let t := y.type
  if s.identical t then return some (s, x, y)
  match if s.kind == .any then none else y.implicit? s with
  | some y' => return some (s, x, y')
  | none =>
  match if t.kind == .any then none else x.implicit? t with
  | some x' => return some (t, x', y)
  | none =>
    let asNullable (t : Ty) : Binder (Option (Ty × Expr × Expr)) := do
      if !t.kind.isValue then return none
      let n ← construct (·.nullable t)
      match x.implicit? n, y.implicit? n with
      | some x', some y' => return some (n, x', y')
      | _, _ => return none
    match ← asNullable s with
    | some r => return some r
    | none => asNullable t

/-- The common type of list elements, starting from that of the first. Elements come with their
places. -/
def commonType (names : Names) (acc : Expr) : List (Option Nat × Expr) → Binder Ty
  | [] => return acc.type
  | (offset, x) :: rest => do
    match ← unify acc x with
    | none =>
      names.failAt offset
        ("mismatched list element " ++ x.type.name ++ ", want " ++ acc.type.name)
    | some (t, _, _) =>
      if t.identical acc.type then commonType names acc rest
      else commonType names (.var { id := 0, name := "", type := t }) rest

def convertElements (names : Names) (t : Ty) : List (Option Nat × Expr) → Binder (List Expr)
  | [] => return []
  | (offset, x) :: rest => do
    match x.implicit? t with
    | some x' => return x' :: (← convertElements names t rest)
    | none =>
      names.failAt offset
        ("mismatched list element " ++ x.type.name ++ ", want " ++ t.name)

def listOf (names : Names) (elems : List (Option Nat × Expr)) : Binder Expr := do
  match elems with
  | [] => return .list [] (← construct (·.listOf .any))
  | (_, x) :: rest =>
    let t ← commonType names x rest
    let items ← convertElements names t elems
    return .list items (← construct (·.listOf t))

def passAs (names : Names) (a : Tree) (arg : Expr) (t : Ty) : Binder Expr :=
  match arg.implicit? t with
  | some x => return x
  | none => names.fail a ("cannot use " ++ arg.type.name ++ " as " ++ t.name ++ " argument")

/-- The first of the calls that succeeds. If none does, the error is that of the first, and
`missing` if there is no method at all. -/
def firstFit (call : Method → Binder Expr) (missing : Binder Expr) :
    Option Error → List Method → Binder Expr
  | none, [] => missing
  | some e, [] => throw e
  | first, m :: ms => do
    match ← attempt (call m) with
    | .ok x => return x
    | .error e => firstFit call missing (some (first.getD e)) ms

/-- The receiver of a member access or call, which may be a type, given how it is bound as a
value. -/
def receiver (names : Names) (x : Tree) (value : Binder Expr) : Binder Expr := do
  match ← attempt value with
  | .ok x' => return x'
  | .error err => match (qualifiedName? x).bind names.type? with
    | some t => return .typeRef t
    | none => throw err

def memberOf (names : Names) (e : Tree) (name : Text) : Expr → Binder Expr
  | .typeRef t => names.fail e (t.name ++ " has no static field " ++ name)
  | x => match x.type.field? names.types.catalog name with
    | some f => return .member x f
    | none => names.fail e (x.type.name ++ " has no field " ++ name)

/-- A function literal `fn` as an argument of type `t`, given how its body is bound if that is an
expression. -/
def lambda (names : Names) (fn : Tree) (ps : ParamList) (t : Ty)
    (body? : Option (Names → Binder Expr)) : Binder Expr :=
  match t with
  | .func domain result =>
    if ps.params.length != domain.length || ps.hasRest then
      names.fail fn ("lambda has " ++ Text.ofNat ps.params.length ++ " parameters, want "
        ++ Text.ofNat domain.length)
    else match body? with
      | none => names.fail fn "lambda body must be an expression"
      | some body =>
        match ps.params.mapM id with
        | none => names.fail fn "unsupported lambda parameter"
        | some plain => do
          let locals ← (plain.zip domain).mapM fun (name, type) => freshLocal name type
          let x ← body { names with locals := locals.reverse ++ names.locals }
          match x.implicit? result with
          | some x' => return .lambda locals x' t
          | none =>
            names.fail fn
              ("lambda returns " ++ x.type.name ++ ", want " ++ result.name)
  | _ => names.fail fn ("lambda used as " ++ t.name)

def element (names : Names) (e key : Tree) (x k : Expr) : Binder Expr :=
  let t := x.type
  let refuse : Binder Expr := names.fail e ("cannot index " ++ t.name)
  match t.kind, t.elem? with
  | .list, some elem => match k.implicit? .int with
    | some k' => return .index x k' elem
    | none => names.fail key ("list index must be an integer, not " ++ k.type.name)
  | .object, _ => match k with
    | .const (.text name) _ => match t.field? names.types.catalog name with
      | some f => return .member x f
      | none => names.fail key (t.name ++ " has no field " ++ name)
    | _ => refuse
  | _, _ => refuse

mutual

def bind (names : Names) : Tree → Binder Expr
  | .ident n name => names.ident (some n) name
  | .number _ (.int n) => return .const (.int n) .int
  | .number _ (.float x) => return .const (.float x) .float
  | .number n (.big literal) => names.failAt (some n) ("unsupported number " ++ literal)
  | .string _ t => return .const (.text t) .string
  | .bool _ b => return .const (.bool b) .bool
  | .null _ => return .null
  | .dot x name => do
    match ← attempt (receiver names x (bind names x)) with
    | .ok recv => memberOf names (.dot x name) name recv
    | .error err => match (qualifiedName? (.dot x name)).bind names.type? with
      | some t => return .typeRef t
      | none => throw err
  | .index x key => do
    let x' ← bind names x
    let k ← bind names key
    element names (.index x key) key x' k
  | .call (.dot x name) args => do
    let recv ← receiver names x (bind names x)
    let (decl, recv?) := match recv with
      | .typeRef t => (t, none)
      | _ => (recv.type, some recv)
    let isStatic := recv?.isNone
    let methods := (decl.overloads names.types.catalog name args.length).filter fun m =>
      m.isStatic == isStatic
    let call (m : Method) : Binder Expr := do
      let xs ← bindArgs names args m.params
      match recv? with
      | some r => return .call r m xs
      | none => return .callStatic m xs
    let kind : Text := if isStatic then "static method" else "method"
    firstFit call (names.fail (.call (.dot x name) args) (decl.name ++ " has no " ++ kind ++ " "
      ++ name ++ " with " ++ Text.ofNat args.length ++ " arguments")) none methods
  | .call f args => names.fail (.call f args) "call of a non-method"
  | .unary n op x =>
    match unaryOp? op with
    | none => names.failAt (some n) ("unsupported operator " ++ op)
    | some o => do
      let x' ← bind names x
      match Expr.newUnary o x' with
      | .ok e => return e
      | .error err => names.failAt (some n) err.message
  | .postfixOp op x => names.fail x ("unsupported operator " ++ op)
  | .binary op x y =>
    match binaryOp? op with
    | none => names.fail x ("unsupported operator " ++ op)
    | some o => do
      let x' ← bind names x
      let y' ← bind names y
      let y' := if o == .coalesce && x'.type.underlying != x'.type then
          (y'.implicit? x'.type.underlying).getD y'
        else y'
      match Expr.newBinary o x' y' with
      | .ok e => return e
      | .error err => names.fail x err.message
  | .cond c t e => do
    let c' ← bind names c
    if c'.type.kind != .bool || c'.type.isNullable then
      names.fail c ("condition must be bool, not " ++ c'.type.name)
    else
      let t' ← bind names t
      let e' ← bind names e
      match ← unify t' e' with
      | some (ty, t', e') => return .cond c' t' e' ty
      | none =>
        names.fail c
          ("mismatched conditional branches " ++ t'.type.name ++ " and " ++ e'.type.name)
  | .array _ items => do listOf names (← bindItems names items)
  | .arrow n _ _ => names.failAt (some n) "lambda is only allowed as a method argument"
  | e => names.fail e ("unsupported expression " ++ formName e)

def bindArgs (names : Names) : List Tree → List Ty → Binder (List Expr)
  | [], _ => return []
  | .arrow n ps none :: rest, types => do
    let t := types.headD .any
    let fn := Tree.arrow n ps none
    let x ← passAs names fn (← lambda names fn ps t none) t
    return x :: (← bindArgs names rest types.tail)
  | .arrow n ps (some body) :: rest, types => do
    let t := types.headD .any
    let fn := Tree.arrow n ps (some body)
    let x ← passAs names fn (← lambda names fn ps t (some fun inner => bind inner body)) t
    return x :: (← bindArgs names rest types.tail)
  | a :: rest, types => do
    let x ← passAs names a (← bind names a) (types.headD .any)
    return x :: (← bindArgs names rest types.tail)

def bindItems (names : Names) : List (Option Tree) → Binder (List (Option Nat × Expr))
  | [] => return []
  | none :: _ => names.failAt none "unsupported expression <nil>"
  | some x :: rest => do
    let x' ← bind names x
    return (x.offset?, x') :: (← bindItems names rest)

end

/-- The typed expression of a source in a scope. Its variables are numbered from zero. -/
def expression (src : Text) (scope : Scope) (u : Universe) : Binder Expr :=
  match parse src (u.unreadable src) with
  | .error e => throw e
  | .ok t => do
    modify fun s => { s with nextLocal := 0 }
    bind { src, scope, types := u } t

end Bindery.Source
