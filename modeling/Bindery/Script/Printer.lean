import Bindery.Code
import Bindery.Script

/-!
# Text of scripts

`Script.format` writes a script as code, either compact or spaced for reading. Parentheses stand
exactly where the precedence of an operand asks for them, and around a script whose text would
begin like a statement. Symbols become slots.
-/

namespace Bindery

namespace Literal

def floatLayout : Decimal.Layout :=
  { Value.floatLayout with nan := "NaN", infinity := "Infinity", negInfinity := "-Infinity" }

def print : Literal → Text
  | .null => "null"
  | .bool b => if b then "true" else "false"
  | .int n => Text.ofInt n.toInt
  | .float x => floatLayout.render x
  | .text t => t.scriptQuote

def isNegative : Literal → Bool
  | .int n => n < 0
  | .float x => x.toBits >>> 63 == 1
  | _ => false

def isNumber : Literal → Bool
  | .int _ => true
  | .float _ => true
  | _ => false

end Literal

/-! ## Precedence -/

namespace Level

def comma : Nat := 1
def assign : Nat := 2
def conditional : Nat := 3
def coalesce : Nat := 4
def or : Nat := 5
def and : Nat := 6
def equals : Nat := 7
def compare : Nat := 8
def add : Nat := 9
def multiply : Nat := 10
def unary : Nat := 11
def construct : Nat := 13
def call : Nat := 14
def member : Nat := 15

end Level

def BinOp.level : BinOp → Nat
  | .add | .sub => Level.add
  | .mul | .div | .rem => Level.multiply
  | .lt | .le | .gt | .ge => Level.compare
  | .looseEq | .looseNe | .strictEq | .strictNe => Level.equals
  | .coalesce => Level.coalesce
  | .or => Level.or
  | .and => Level.and
  | .assign => Level.assign

def UnOp.isWord : UnOp → Bool
  | .typeof => true
  | .void => true
  | _ => false

namespace Script

def level : Script → Nat
  | .literal _ v => if v.isNegative then Level.unary else Level.member
  | .call .. => Level.call
  | .construct .. => Level.construct
  | .unary .. => Level.unary
  | .binary _ op _ _ => op.level
  | .cond .. => Level.conditional
  | .arrow .. => Level.assign
  | .sequence .. => Level.comma
  | _ => Level.member

/-- The text of the script, at the beginning of a statement, would be read as a declaration or
block. -/
def startsLikeStatement : Script → Bool
  | .object .. => true
  | .function .. => true
  | .member _ x _ => x.startsLikeStatement
  | .index _ x _ => x.startsLikeStatement
  | .call _ f _ => f.startsLikeStatement
  | .binary _ _ x _ => x.startsLikeStatement
  | .cond _ c _ _ => c.startsLikeStatement
  | .sequence _ (x :: _) => x.startsLikeStatement
  | _ => false

/-! ## Pieces -/

inductive Piece where
  | text (t : Text)
  | slot (s : Slot)

/-- A piece added to a code. A space keeps two signs apart that would be read as one. -/
def addPiece (c : Code) : Piece → Code
  | .slot s => c.addSlot s
  | .text t =>
    match t.bytes with
    | b :: _ =>
      if (b == 0x2B || b == 0x2D) && c.lastByte? == some b then (c.addText " ").addText t
      else c.addText t
    | [] => c

def codeOf (ps : List Piece) : Code := ps.foldl addPiece {}

def word (t : Text) : List Piece := [.text t]

def gap (nice : Bool) : List Piece := if nice then [.text " "] else []

def commaPieces (nice : Bool) : List Piece := word "," ++ gap nice

def separated (nice : Bool) : List (List Piece) → List Piece
  | [] => []
  | [x] => x
  | x :: y :: rest => x ++ commaPieces nice ++ separated nice (y :: rest)

def inParens (ps : List Piece) : List Piece := word "(" ++ ps ++ word ")"

def guardedBy (x : Script) (least : Nat) (ps : List Piece) : List Piece :=
  if x.level < least then inParens ps else ps

/-- The receiver of an access or call. A number needs parentheses, since a point would belong to
it. -/
def receiverPieces (x : Script) (ps : List Piece) : List Piece :=
  match x with
  | .literal _ v => if v.isNumber then inParens ps else guardedBy x Level.call ps
  | _ => guardedBy x Level.call ps

/-- `??` next to `&&` or `||` needs parentheses. -/
def mixesCoalescing (op : BinOp) : Script → Bool
  | .binary _ inner _ _ =>
    let isLogical (op : BinOp) : Bool := op == .and || op == .or
    op == .coalesce && isLogical inner || isLogical op && inner == .coalesce
  | _ => false

def isPlainName (t : Text) : Bool :=
  let letter (b : UInt8) : Bool :=
    b == 0x5F || b == 0x24 || (0x61 ≤ b && b ≤ 0x7A) || (0x41 ≤ b && b ≤ 0x5A)
  match t.bytes with
  | [] => false
  | b :: bs => letter b && bs.all fun b => letter b || (0x30 ≤ b && b ≤ 0x39)

def keyText (key : Text) : Text := if isPlainName key then key else key.scriptQuote

def paramPieces (nice : Bool) (ps : List Text) : List Piece :=
  inParens (separated nice (ps.map word))

mutual

def pieces (nice : Bool) : Script → List Piece
  | .ident _ n => word n
  | .literal _ v => word v.print
  | .symbol _ n none => [.slot { name := n }]
  | .symbol _ n (some d) =>
    [.slot { name := n, default := some (codeOf (guardedBy d Level.member (pieces nice d))).text }]
  | .member _ x n => receiverPieces x (pieces nice x) ++ word ("." ++ n)
  | .index _ x k => receiverPieces x (pieces nice x) ++ word "[" ++ pieces nice k ++ word "]"
  | .call _ f as =>
    receiverPieces f (pieces nice f) ++ inParens (separated nice (operands nice as))
  | .construct _ f as =>
    word "new " ++ guardedBy f Level.member (pieces nice f)
      ++ inParens (separated nice (operands nice as))
  | .unary _ op x =>
    word op.text ++ (if op.isWord then word " " else [])
      ++ guardedBy x Level.unary (pieces nice x)
  | .binary _ op x y =>
    let (left, right) :=
      if op == .assign then (op.level + 1, op.level) else (op.level, op.level + 1)
    let left := if mixesCoalescing op x then Level.member else left
    let right := if mixesCoalescing op y then Level.member else right
    guardedBy x left (pieces nice x) ++ gap nice ++ word op.text ++ gap nice
      ++ guardedBy y right (pieces nice y)
  | .cond _ c t e =>
    guardedBy c (Level.conditional + 1) (pieces nice c) ++ gap nice ++ word "?" ++ gap nice
      ++ guardedBy t Level.assign (pieces nice t) ++ gap nice ++ word ":" ++ gap nice
      ++ guardedBy e Level.assign (pieces nice e)
  | .array _ xs => word "[" ++ separated nice (operands nice xs) ++ word "]"
  | .object _ ps =>
    if ps.isEmpty then word "\x7b\x7d"
    else word "\x7b" ++ gap nice ++ separated nice (properties nice ps) ++ gap nice ++ word "\x7d"
  | .paren _ x => inParens (pieces nice x)
  | .function _ ps b =>
    word "function" ++ gap nice ++ paramPieces nice ps ++ gap nice ++ word "\x7b" ++ gap nice
      ++ word "return " ++ pieces nice b ++ word ";" ++ gap nice ++ word "\x7d"
  | .arrow _ ps b =>
    paramPieces nice ps ++ gap nice ++ word "=>" ++ gap nice
      ++ if b.startsLikeStatement then inParens (pieces nice b)
        else guardedBy b Level.assign (pieces nice b)
  | .sequence _ xs => separated nice (operands nice xs)

def operands (nice : Bool) : List Script → List (List Piece)
  | [] => []
  | x :: xs => guardedBy x Level.assign (pieces nice x) :: operands nice xs

def properties (nice : Bool) : Record Script → List (List Piece)
  | [] => []
  | (k, v) :: ps =>
    (word (keyText k) ++ word ":" ++ gap nice ++ guardedBy v Level.assign (pieces nice v))
      :: properties nice ps

end

def format (s : Script) (nice : Bool) : Code :=
  let ps := s.pieces nice
  codeOf (if s.startsLikeStatement then inParens ps else ps)

mutual

def symbolsNamed : Script → Bool
  | .symbol _ n none => !n.isEmpty
  | .symbol _ n (some d) => !n.isEmpty && symbolsNamed d
  | .member _ x _ => symbolsNamed x
  | .index _ x k => symbolsNamed x && symbolsNamed k
  | .call _ f as => symbolsNamed f && allNamed as
  | .construct _ f as => symbolsNamed f && allNamed as
  | .unary _ _ x => symbolsNamed x
  | .binary _ _ x y => symbolsNamed x && symbolsNamed y
  | .cond _ c t e => symbolsNamed c && symbolsNamed t && symbolsNamed e
  | .array _ xs => allNamed xs
  | .object _ ps => propsNamed ps
  | .paren _ x => symbolsNamed x
  | .function _ _ b => symbolsNamed b
  | .arrow _ _ b => symbolsNamed b
  | .sequence _ xs => allNamed xs
  | _ => true

def allNamed : List Script → Bool
  | [] => true
  | x :: xs => symbolsNamed x && allNamed xs

def propsNamed : Record Script → Bool
  | [] => true
  | (_, x) :: ps => symbolsNamed x && propsNamed ps

end

/-- `format` for scripts whose symbols are not known to have names. -/
def render (s : Script) (nice : Bool) : Except Fault Code :=
  if s.symbolsNamed then .ok (s.format nice) else .error (.crash (some "script: empty slot name"))

end Script

end Bindery
