import Bindery.Universe
import Bindery.Scope

/-!
# Typed expressions

The trees from which bindings are compiled. Every node has a static type (`Expr.type`), and
`Expr.text` is the canonical text of an expression. Variables are told apart by number; their names
are for display and for scripts.
-/

namespace Bindery

inductive UnaryOp where
  | not
  | negate
  | plus
deriving DecidableEq

def UnaryOp.text : UnaryOp → Text
  | .not => "!"
  | .negate => "-"
  | .plus => "+"

inductive BinaryOp where
  | add
  | sub
  | mul
  | div
  | mod
  | equal
  | notEqual
  | less
  | lessEqual
  | greater
  | greaterEqual
  | andAlso
  | orElse
  | coalesce
deriving DecidableEq

namespace BinaryOp

def text : BinaryOp → Text
  | .add => "+"
  | .sub => "-"
  | .mul => "*"
  | .div => "/"
  | .mod => "%"
  | .equal => "=="
  | .notEqual => "!="
  | .less => "<"
  | .lessEqual => "<="
  | .greater => ">"
  | .greaterEqual => ">="
  | .andAlso => "&&"
  | .orElse => "||"
  | .coalesce => "??"

def isComparison : BinaryOp → Bool
  | .less | .lessEqual | .greater | .greaterEqual => true
  | _ => false

def isArithmetic : BinaryOp → Bool
  | .add | .sub | .mul | .div | .mod => true
  | _ => false

end BinaryOp

inductive Conversion where
  /-- To the type of all values; no change. -/
  | box
  /-- To a nullable type; no change. -/
  | lift
  | numeric
  /-- To the text that users see. -/
  | toText
  /-- From the type of all values or a nullable type. -/
  | unbox
deriving DecidableEq

def Conversion.text : Conversion → Text
  | .box => "Box"
  | .lift => "Lift"
  | .numeric => "Numeric"
  | .toText => "ToString"
  | .unbox => "Unbox"

def Conversion.ofText? (t : Text) : Option Conversion :=
  [Conversion.box, .lift, .numeric, .toText, .unbox].find? fun k => k.text == t

structure Local where
  id : Nat
  name : Text
  type : Ty
  nonNull : Bool := false

inductive Expr where
  /-- The data context of a scope, or one of its special parameters. -/
  | param (name : Text) (scope : Scope) (special : Option Param)
  | var (l : Local)
  | const (v : Value) (type : Ty)
  | member (x : Expr) (f : Field)
  | call (x : Expr) (m : Method) (args : List Expr)
  | callStatic (m : Method) (args : List Expr)
  | index (x key : Expr) (type : Ty)
  | unary (op : UnaryOp) (x : Expr)
  | binary (op : BinaryOp) (x y : Expr) (type : Ty)
  | cond (c t e : Expr) (type : Ty)
  | convert (kind : Conversion) (x : Expr) (type : Ty)
  | lambda (params : List Local) (body : Expr) (type : Ty)
  | list (items : List Expr) (type : Ty)
  /-- The default of the type if `x` is null, otherwise `body` with the variable bound to `x`. -/
  | guard (x : Expr) (v : Local) (body : Expr) (type : Ty)
  /-- A type in the place of a value, such as the receiver of a static call. -/
  | typeRef (t : Ty)

namespace Expr

def type : Expr → Ty
  | .param _ s none => s.dataType
  | .param _ _ (some p) => p.type
  | .var l => l.type
  | .const _ t => t
  | .member _ f => f.type
  | .call _ m _ => m.result
  | .callStatic m _ => m.result
  | .index _ _ t => t
  | .unary _ x => x.type
  | .binary _ _ _ t => t
  | .cond _ _ _ t => t
  | .convert _ _ t => t
  | .lambda _ _ t => t
  | .list _ t => t
  | .guard _ _ _ t => t
  | .typeRef t => t

def null : Expr := .const .null .any

def isNullConst : Expr → Bool
  | .const .null _ => true
  | _ => false

def dataContext (s : Scope) (name : Text) : Expr := .param name s none

/-! ## Text -/

/-- A float literal always shows that it is one. -/
def floatText (x : Float) : Text :=
  let t := Value.floatLayout.render x
  if t.chars.any fun c => c == '.' || c == 'e' || c == 'E' || c == 'n' then t else t ++ ".0"

def constText : Value → Text
  | .null => "null"
  | .float x => floatText x
  | .text t => t.quote
  | v => v.display

mutual

def text : Expr → Text
  | .param n _ _ => n
  | .var l => l.name
  | .const v _ => constText v
  | .member x f => text x ++ "." ++ f.name
  | .call x m args => text x ++ "." ++ m.name ++ "(" ++ Text.join ", " (texts args) ++ ")"
  | .callStatic m args =>
    m.owner.name ++ "." ++ m.name ++ "(" ++ Text.join ", " (texts args) ++ ")"
  | .index x k _ => text x ++ "[" ++ text k ++ "]"
  | .unary op x => op.text ++ text x
  | .binary op x y _ => "(" ++ text x ++ " " ++ op.text ++ " " ++ text y ++ ")"
  | .cond c t e _ => "(" ++ text c ++ " ? " ++ text t ++ " : " ++ text e ++ ")"
  | .convert _ x t => "Convert(" ++ text x ++ ", " ++ t.name ++ ")"
  | .lambda ps b _ => "(" ++ Text.join ", " (ps.map (·.name)) ++ ") => " ++ text b
  | .list xs _ => "[" ++ Text.join ", " (texts xs) ++ "]"
  | .guard x v b _ => "(" ++ text x ++ " is \x7b\x7d " ++ v.name ++ " ? " ++ text b ++ " : default)"
  | .typeRef t => t.name

def texts : List Expr → List Text
  | [] => []
  | x :: xs => text x :: texts xs

end

/-! ## Traversal -/

mutual

/-- The nodes of an expression in pre-order. `none` marks the end of a node whose operands were
visited; those of a node that does not satisfy `descend` are not. -/
def walk (descend : Expr → Bool) : Expr → List (Option Expr)
  | .member x f => visit (.member x f) (walk descend x)
  | .call x m args => visit (.call x m args) (walk descend x ++ walkList descend args)
  | .callStatic m args => visit (.callStatic m args) (walkList descend args)
  | .index x k t => visit (.index x k t) (walk descend x ++ walk descend k)
  | .unary op x => visit (.unary op x) (walk descend x)
  | .binary op x y t => visit (.binary op x y t) (walk descend x ++ walk descend y)
  | .cond c t e ty =>
    visit (.cond c t e ty) (walk descend c ++ walk descend t ++ walk descend e)
  | .convert k x t => visit (.convert k x t) (walk descend x)
  | .lambda ps b t => visit (.lambda ps b t) (walk descend b)
  | .list xs t => visit (.list xs t) (walkList descend xs)
  | .guard x v b t => visit (.guard x v b t) (walk descend x ++ walk descend b)
  | e => visit e []
where
  visit (e : Expr) (inside : List (Option Expr)) : List (Option Expr) :=
    if descend e then some e :: inside ++ [none] else [some e]

def walkList (descend : Expr → Bool) : List Expr → List (Option Expr)
  | [] => []
  | x :: xs => walk descend x ++ walkList descend xs

end

def nodes (e : Expr) : List Expr := (e.walk fun _ => true).filterMap id

def fields (e : Expr) : List Field :=
  e.nodes.filterMap fun
    | .member _ f => some f
    | _ => none

def members (e : Expr) : List Expr :=
  e.nodes.filter fun
    | .member .. => true
    | _ => false

/-- The expression without outer conversions that change no representation. -/
def strip : Expr → Expr
  | .convert .box x _ => x.strip
  | .convert .lift x _ => x.strip
  | e => e

mutual

/-- A number greater than that of every variable in the expression. -/
def nextLocal : Expr → Nat
  | .var l => l.id + 1
  | .member x _ => nextLocal x
  | .call x _ args => max (nextLocal x) (nextLocalList args)
  | .callStatic _ args => nextLocalList args
  | .index x k _ => max (nextLocal x) (nextLocal k)
  | .unary _ x => nextLocal x
  | .binary _ x y _ => max (nextLocal x) (nextLocal y)
  | .cond c t e _ => max (nextLocal c) (max (nextLocal t) (nextLocal e))
  | .convert _ x _ => nextLocal x
  | .lambda ps b _ => ps.foldl (fun n l => max n (l.id + 1)) (nextLocal b)
  | .list xs _ => nextLocalList xs
  | .guard x v b _ => max (v.id + 1) (max (nextLocal x) (nextLocal b))
  | _ => 0

def nextLocalList : List Expr → Nat
  | [] => 0
  | x :: xs => max (nextLocal x) (nextLocalList xs)

end

/-! ## Checked construction -/

def ofValue : Value → Except Fault Expr
  | .null => .ok null
  | .bool b => .ok (.const (.bool b) .bool)
  | .int n => .ok (.const (.int n) .int)
  | .float x => .ok (.const (.float x) .float)
  | .text t => .ok (.const (.text t) .string)
  | .loose (.word n) => .ok (.const (.int n) .int)
  | v => .error (.crash (some ("typed.NewConst: unsupported " ++ v.rep)))

def newMember (c : Catalog) (x : Expr) (name : Text) : Except Error Expr :=
  match x.type.field? c name with
  | some f => .ok (.member x f)
  | none => .error (.plain (x.type.name ++ " has no field " ++ name))

def newCall (c : Catalog) (x : Expr) (name : Text) (args : List Expr) : Except Error Expr :=
  match x.type.method? c name args.length with
  | some m => if m.isStatic then .error missing else .ok (.call x m args)
  | none => .error missing
where
  missing : Error :=
    .plain (x.type.name ++ " has no method " ++ name ++ "/" ++ Text.ofNat args.length)

def newStaticCall (c : Catalog) (t : Ty) (name : Text) (args : List Expr) : Except Error Expr :=
  match t.method? c name args.length with
  | some m => if m.isStatic then .ok (.callStatic m args) else .error missing
  | none => .error missing
where
  missing : Error := .plain (t.name ++ " has no method " ++ name ++ "/" ++ Text.ofNat args.length)

def newUnary (op : UnaryOp) (x : Expr) : Except Error Expr :=
  let defined : Bool := match op with
    | .not => x.type.kind == .bool
    | .negate | .plus => x.type.kind.isNumeric
  if defined then .ok (.unary op x)
  else .error (.of .conversion ("operator " ++ op.text ++ " not defined on " ++ x.type.name))

def arithmeticType? (s t : Ty) : Option Ty :=
  if !s.kind.isNumeric || !t.kind.isNumeric then none
  else
    let base : Ty := if s.kind == .float || t.kind == .float then .float else .int
    some (if s.isNullable || t.isNullable then .nullable base else base)

def binaryType? (op : BinaryOp) (x y : Expr) : Option Ty :=
  let s := x.type
  let t := y.type
  match op with
  | .add =>
    if s.kind == .string || t.kind == .string then some .string else arithmeticType? s t
  | .sub | .mul | .div | .mod => arithmeticType? s t
  | .equal | .notEqual => some .bool
  | .less | .lessEqual | .greater | .greaterEqual =>
    if (arithmeticType? s t).isSome || s.kind == .string && t.kind == .string then some .bool
    else none
  | .andAlso | .orElse =>
    if s.kind == .bool && t.kind == .bool then
      some (if s.isNullable || t.isNullable then .nullable .bool else .bool)
    else none
  | .coalesce =>
    if !s.isNullable then none
    else if y.isNullConst then some s
    else if s.underlying.identical t || s.identical t then some t
    else if s.kind == .any then some s
    else none

def newBinary (op : BinaryOp) (x y : Expr) : Except Error Expr :=
  match binaryType? op x y with
  | some t => .ok (.binary op x y t)
  | none =>
    .error (.of .conversion
      ("operator " ++ op.text ++ " not defined on " ++ x.type.name ++ " and " ++ y.type.name))

end Expr

end Bindery
