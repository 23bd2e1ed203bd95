import Bindery.Ty

/-!
# Scripts

Client scripts are expression trees. A node carries `Marks`, which are facts about its value that
later passes use. A symbol is a placeholder whose text is supplied when the script is rendered.

`Script.fold` is the recursion that passes are written with; `Script.fold_eq` unfolds it.
-/

namespace Bindery

inductive Literal where
  | null
  | bool (b : Bool)
  | int (n : Int64)
  | float (x : Float)
  | text (t : Text)

def Literal.ofValue? : Value → Option Literal
  | .null => some .null
  | .bool b => some (.bool b)
  | .int n => some (.int n)
  | .float x => some (.float x)
  | .text t => some (.text t)
  | .loose (.word n) => some (.int n)
  | _ => none

inductive UnOp where
  | plus
  | minus
  | not
  | typeof
  | void
deriving DecidableEq

def UnOp.text : UnOp → Text
  | .plus => "+"
  | .minus => "-"
  | .not => "!"
  | .typeof => "typeof"
  | .void => "void"

inductive BinOp where
  | add
  | sub
  | mul
  | div
  | rem
  | lt
  | le
  | gt
  | ge
  | looseEq
  | looseNe
  | strictEq
  | strictNe
  | coalesce
  | or
  | and
  | assign
deriving DecidableEq

namespace BinOp

def text : BinOp → Text
  | .add => "+"
  | .sub => "-"
  | .mul => "*"
  | .div => "/"
  | .rem => "%"
  | .lt => "<"
  | .le => "<="
  | .gt => ">"
  | .ge => ">="
  | .looseEq => "=="
  | .looseNe => "!="
  | .strictEq => "==="
  | .strictNe => "!=="
  | .coalesce => "??"
  | .or => "||"
  | .and => "&&"
  | .assign => "="

def isShortCircuit : BinOp → Bool
  | .or | .and | .coalesce => true
  | _ => false

end BinOp

inductive CellMark where
  | cell
  | maybe
deriving DecidableEq

structure Marks where
  type : Option Ty := none
  cell : Option CellMark := none
  source : Option Text := none
  notNull : Bool := false
  /-- The node belongs to a temporary. -/
  temp : Bool := false

namespace Marks

/-- The marks of both; where they disagree, the second ones hold. -/
def merge (a b : Marks) : Marks where
  type := b.type.or a.type
  cell := b.cell.or a.cell
  source := b.source.or a.source
  notNull := a.notNull || b.notNull
  temp := a.temp || b.temp

def describe (m : Marks) : Text :=
  let typed : List Text := match m.type with
    | some t => ["type=" ++ t.name]
    | none => []
  let cell : List Text := match m.cell with
    | some .cell => ["cell"]
    | some .maybe => ["cell?"]
    | none => []
  let source : List Text := match m.source with
    | some p => ["from=" ++ p]
    | none => []
  let notNull : List Text := if m.notNull then ["notNull"] else []
  let temp : List Text := if m.temp then ["temp"] else []
  Text.join " " (typed ++ cell ++ source ++ notNull ++ temp)

end Marks

inductive Script where
  | ident (m : Marks) (name : Text)
  | literal (m : Marks) (v : Literal)
  /-- A placeholder, with the script that stands there when no text is supplied. -/
  | symbol (m : Marks) (name : Text) (default : Option Script)
  | member (m : Marks) (x : Script) (name : Text)
  | index (m : Marks) (x key : Script)
  | call (m : Marks) (f : Script) (args : List Script)
  | construct (m : Marks) (f : Script) (args : List Script)
  | unary (m : Marks) (op : UnOp) (x : Script)
  | binary (m : Marks) (op : BinOp) (x y : Script)
  | cond (m : Marks) (c t e : Script)
  | array (m : Marks) (items : List Script)
  | object (m : Marks) (props : List (Text × Script))
  | paren (m : Marks) (x : Script)
  | function (m : Marks) (params : List Text) (body : Script)
  | arrow (m : Marks) (params : List Text) (body : Script)
  | sequence (m : Marks) (items : List Script)

namespace Script

instance : Inhabited Script := ⟨.literal {} .null⟩

/-! ## Marks -/

def marks : Script → Marks
  | .ident m _ => m
  | .literal m _ => m
  | .symbol m _ _ => m
  | .member m _ _ => m
  | .index m _ _ => m
  | .call m _ _ => m
  | .construct m _ _ => m
  | .unary m _ _ => m
  | .binary m _ _ _ => m
  | .cond m _ _ _ => m
  | .array m _ => m
  | .object m _ => m
  | .paren m _ => m
  | .function m _ _ => m
  | .arrow m _ _ => m
  | .sequence m _ => m

def setMarks (m : Marks) : Script → Script
  | .ident _ n => .ident m n
  | .literal _ v => .literal m v
  | .symbol _ n d => .symbol m n d
  | .member _ x n => .member m x n
  | .index _ x k => .index m x k
  | .call _ f as => .call m f as
  | .construct _ f as => .construct m f as
  | .unary _ op x => .unary m op x
  | .binary _ op x y => .binary m op x y
  | .cond _ c t e => .cond m c t e
  | .array _ xs => .array m xs
  | .object _ ps => .object m ps
  | .paren _ x => .paren m x
  | .function _ ps b => .function m ps b
  | .arrow _ ps b => .arrow m ps b
  | .sequence _ xs => .sequence m xs

variable (s : Script)

def mark (m : Marks) : Script := s.setMarks (s.marks.merge m)

def typed (t : Ty) : Script := s.mark { type := some t }

def notNull (s : Script) : Script := s.mark { notNull := true }

def asCell (c : CellMark) : Script := s.mark { cell := some c }

def isCell : Bool := s.marks.cell.isSome

def type? : Option Ty := s.marks.type

/-! ## Short forms -/

def id (name : Text) : Script := .ident {} name

def dot (x : Script) (name : Text) : Script := .member {} x name

def invoke (f : Script) (args : List Script) : Script := .call {} f args

def lit (v : Literal) : Script := .literal {} v

def null : Script := lit .null

def bin (op : BinOp) (x y : Script) : Script := .binary {} op x y

/-! ## Recursion -/

def children : Script → List Script
  | .ident .. => []
  | .literal .. => []
  | .symbol .. => []
  | .member _ x _ => [x]
  | .index _ x k => [x, k]
  | .call _ f as => f :: as
  | .construct _ f as => f :: as
  | .unary _ _ x => [x]
  | .binary _ _ x y => [x, y]
  | .cond _ c t e => [c, t, e]
  | .array _ xs => xs
  | .object _ ps => ps.map (·.2)
  | .paren _ x => [x]
  | .function _ _ b => [b]
  | .arrow _ _ b => [b]
  | .sequence _ xs => xs

def withChildren : Script → List Script → Script
  | .member m _ n, [x] => .member m x n
  | .index m _ _, [x, k] => .index m x k
  | .call m _ _, f :: as => .call m f as
  | .construct m _ _, f :: as => .construct m f as
  | .unary m op _, [x] => .unary m op x
  | .binary m op _ _, [x, y] => .binary m op x y
  | .cond m _ _ _, [c, t, e] => .cond m c t e
  | .array m _, xs => .array m xs
  | .object m ps, xs => .object m ((ps.map (·.1)).zip xs)
  | .paren m _, [x] => .paren m x
  | .function m ps _, [b] => .function m ps b
  | .arrow m ps _, [b] => .arrow m ps b
  | .sequence m _, xs => .sequence m xs
  | s, _ => s

section

variable {α : Type} (f : Script → List α → α)

mutual

/-- The result of `f` at the root, given the results at the operands. -/
def fold : Script → α
  | .ident m n => f (.ident m n) []
  | .literal m v => f (.literal m v) []
  | .symbol m n d => f (.symbol m n d) []
  | .member m x n => f (.member m x n) [fold x]
  | .index m x k => f (.index m x k) [fold x, fold k]
  | .call m g as => f (.call m g as) (fold g :: foldList as)
  | .construct m g as => f (.construct m g as) (fold g :: foldList as)
  | .unary m op x => f (.unary m op x) [fold x]
  | .binary m op x y => f (.binary m op x y) [fold x, fold y]
  | .cond m c t e => f (.cond m c t e) [fold c, fold t, fold e]
  | .array m xs => f (.array m xs) (foldList xs)
  | .object m ps => f (.object m ps) (foldProps ps)
  | .paren m x => f (.paren m x) [fold x]
  | .function m ps b => f (.function m ps b) [fold b]
  | .arrow m ps b => f (.arrow m ps b) [fold b]
  | .sequence m xs => f (.sequence m xs) (foldList xs)

def foldList : List Script → List α
  | [] => []
  | x :: xs => fold x :: foldList xs

def foldProps : Record Script → List α
  | [] => []
  | (_, x) :: ps => fold x :: foldProps ps

end

theorem foldList_eq_map (xs : List Script) :
    foldList f xs = xs.map (fold f) := by
  induction xs with
  | nil => rfl
  | cons x xs ih => simp [foldList, ih]

theorem foldProps_eq_map (ps : Record Script) :
    foldProps f ps = (ps.map (·.2)).map (fold f) := by
  induction ps with
  | nil => rfl
  | cons p ps ih => cases p; simp [foldProps, ih]

theorem fold_eq (s : Script) :
    fold f s = f s (s.children.map (fold f)) := by
  cases s <;> simp [fold, children, foldList_eq_map, foldProps_eq_map]

end

def transform (f : Script → Script) : Script → Script := fold fun s kids => f (s.withChildren kids)

/-- All nodes in pre-order. The scripts that stand in for symbols do not belong to them. -/
def nodes : Script → List Script := fold fun s kids => s :: kids.flatten

def identifiers : List Text :=
  Text.sort (s.nodes.flatMap fun
    | .ident _ n => [n]
    | .function _ ps _ => ps
    | .arrow _ ps _ => ps
    | _ => []).eraseDups

def target? : Script → Option Text
  | .ident _ n => some n
  | .symbol _ _ (some d) => target? d
  | .paren _ x => target? x
  | _ => none

mutual

/-- The names that assignments in the script change, also in the scripts that stand in for
symbols. -/
def assigned : Script → List Text
  | .ident .. => []
  | .literal .. => []
  | .symbol _ _ none => []
  | .symbol _ _ (some d) => assigned d
  | .member _ x _ => assigned x
  | .index _ x k => assigned x ++ assigned k
  | .call _ f as => assigned f ++ assignedList as
  | .construct _ f as => assigned f ++ assignedList as
  | .unary _ _ x => assigned x
  | .binary _ .assign x y => match target? x with
    | some n => n :: assigned y
    | none => assigned x ++ assigned y
  | .binary _ _ x y => assigned x ++ assigned y
  | .cond _ c t e => assigned c ++ (assigned t ++ assigned e)
  | .array _ xs => assignedList xs
  | .object _ ps => assignedProps ps
  | .paren _ x => assigned x
  | .function _ _ b => assigned b
  | .arrow _ _ b => assigned b
  | .sequence _ xs => assignedList xs

def assignedList : List Script → List Text
  | [] => []
  | x :: xs => assigned x ++ assignedList xs

def assignedProps : Record Script → List Text
  | [] => []
  | (_, x) :: ps => assigned x ++ assignedProps ps

end

mutual

def bare : Script → Script
  | .ident _ n => .ident {} n
  | .literal _ v => .literal {} v
  | .symbol _ n none => .symbol {} n none
  | .symbol _ n (some d) => .symbol {} n (some (bare d))
  | .member _ x n => .member {} (bare x) n
  | .index _ x k => .index {} (bare x) (bare k)
  | .call _ f as => .call {} (bare f) (bareList as)
  | .construct _ f as => .construct {} (bare f) (bareList as)
  | .unary _ op x => .unary {} op (bare x)
  | .binary _ op x y => .binary {} op (bare x) (bare y)
  | .cond _ c t e => .cond {} (bare c) (bare t) (bare e)
  | .array _ xs => .array {} (bareList xs)
  | .object _ ps => .object {} (bareProps ps)
  | .paren _ x => .paren {} (bare x)
  | .function _ ps b => .function {} ps (bare b)
  | .arrow _ ps b => .arrow {} ps (bare b)
  | .sequence _ xs => .sequence {} (bareList xs)

def bareList : List Script → List Script
  | [] => []
  | x :: xs => bare x :: bareList xs

def bareProps : Record Script → Record Script
  | [] => []
  | (k, x) :: ps => (k, bare x) :: bareProps ps

end

def describeMarks : List Text := s.nodes.map fun n => n.marks.describe

end Script

end Bindery
