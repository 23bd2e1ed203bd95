import Bindery.Source.Token
import Bindery.Decimal.Reader

/-!
# Syntax trees

`Tree` is an expression as written. Parentheses leave no trace. Of expressions that no binding may
use, a tree keeps what is needed to tell them apart and to read patterns out of them.

Offsets count bytes. `Tree.offset?` is the place of a tree's first token.
-/

namespace Bindery

inductive Numeral where
  | int (n : Int64)
  | float (x : Float)
  | big (literal : Text)

namespace Numeral

/-- The float nearest to the hexadecimal digits, rounding after each of them. -/
def hexFloat? (digits : Chars) : Option Float :=
  digits.foldlM (fun x c => (Text.hexDigit? c).map fun d => x * 16 + Float.ofNat d) 0

/-- The value of a number literal. What does not fit a 64-bit integer is a float. -/
def ofLiteral? (literal : Chars) : Option Numeral :=
  if literal.getLast? == some 'n' then
    (Decimal.wholeNumber? literal.dropLast).map fun _ => .big (Text.ofChars literal)
  else match Decimal.wholeNumber? literal with
    | some n =>
      if n < 0x8000000000000000 then some (.int (Int64.ofNat n))
      else match Decimal.magnitude? literal with
        | some x => some (.float x)
        | none => match literal with
          | '0' :: 'x' :: digits => (hexFloat? digits).map .float
          | '0' :: 'X' :: digits => (hexFloat? digits).map .float
          | _ => none
    | none => (Decimal.magnitude? literal).map .float

end Numeral

/-- Expressions that have no meaning in a binding and no operands that matter. -/
inductive Form where
  | classLiteral
  | this
  | super
  | new
  | template
  | regex
  | optionalChain
  | metaProperty
  | privateName
  | privateMember
  | await
  | yield
deriving DecidableEq

/-- The parameters of a function: the names of plain ones, `none` for a pattern or one with an
initial value, and whether a rest parameter follows. -/
structure ParamList where
  params : List (Option Text)
  hasRest : Bool

mutual

inductive Tree where
  | ident (pos : Nat) (name : Text)
  | number (pos : Nat) (n : Numeral)
  | string (pos : Nat) (t : Text)
  | bool (pos : Nat) (b : Bool)
  | null (pos : Nat)
  | dot (x : Tree) (name : Text)
  | index (x key : Tree)
  | call (f : Tree) (args : List Tree)
  | unary (pos : Nat) (op : String) (x : Tree)
  | postfixOp (op : String) (x : Tree)
  | binary (op : String) (x y : Tree)
  | cond (c t e : Tree)
  | array (pos : Nat) (items : List (Option Tree))
  | object (pos : Nat) (items : List ObjectItem)
  /-- An arrow function; the body is missing if it is not a mere expression. -/
  | arrow (pos : Nat) (params : ParamList) (body : Option Tree)
  /-- A function; the body is missing unless it only returns an expression. -/
  | function (pos : Nat) (params : ParamList) (body : Option Tree)
  | assign (op : String) (x y : Tree)
  | sequence (xs : List Tree)
  | spread (x : Tree)
  | construct (pos : Nat) (f : Tree) (args : List Tree)
  /-- Any other expression, with its place if it has one. -/
  | other (form : Form) (pos : Option Nat)

inductive ObjectItem where
  | keyed (key : Option Text) (v : Tree)
  | short (name : Text)
  | method
  | spread (x : Tree)

end

namespace Tree

def offset? : Tree → Option Nat
  | .ident n _ => some n
  | .number n _ => some n
  | .string n _ => some n
  | .bool n _ => some n
  | .null n => some n
  | .dot x _ => x.offset?
  | .index x _ => x.offset?
  | .call f _ => f.offset?
  | .unary n _ _ => some n
  | .postfixOp _ x => x.offset?
  | .binary _ x _ => x.offset?
  | .cond c _ _ => c.offset?
  | .array n _ => some n
  | .object n _ => some n
  | .arrow n _ _ => some n
  | .function n _ _ => some n
  | .assign _ x _ => x.offset?
  | .sequence (x :: _) => x.offset?
  | .sequence [] => none
  | .spread x => x.offset?
  | .construct n _ _ => some n
  | .other _ n => n

/-! ## Patterns -/

def isReference : Tree → Bool
  | .ident .. => true
  | .dot .. => true
  | .index .. => true
  | .other .privateMember _ => true
  | _ => false

mutual

/-- The expression can be read as a pattern whose leaves satisfy `leaf`. -/
def isPattern (leaf : Tree → Bool) : Tree → Bool
  | .array _ items => arePatterns leaf items
  | .object _ items => arePropertyPatterns leaf items
  | e => leaf e

def isElement (leaf : Tree → Bool) : Tree → Bool
  | .assign "=" x _ => isPattern leaf x
  | .array _ items => arePatterns leaf items
  | .object _ items => arePropertyPatterns leaf items
  | e => leaf e

def arePatterns (leaf : Tree → Bool) : List (Option Tree) → Bool
  | [] => true
  | [some (.spread x)] => isPattern leaf x
  | none :: rest => arePatterns leaf rest
  | some x :: rest => isElement leaf x && arePatterns leaf rest

def arePropertyPatterns (leaf : Tree → Bool) : List ObjectItem → Bool
  | [] => true
  | [.spread _] => true
  | .keyed _ v :: rest => isElement leaf v && arePropertyPatterns leaf rest
  | .short _ :: rest => arePropertyPatterns leaf rest
  | .method :: _ => false
  | .spread _ :: _ => false

end

def isIdent : Tree → Bool
  | .ident .. => true
  | _ => false

/-- The parameter that an expression can be read as: its name if it is plain, and nothing else about
it otherwise. -/
def asParam? : Tree → Option (Option Text)
  | .ident _ name => some (some name)
  | e => if isElement isIdent e then some none else none

end Tree

end Bindery
