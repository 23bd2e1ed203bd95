import Bindery.Number
import Bindery.Decimal.Reader
import Bindery.Text.Blank

/-!
# Numbers on the client

A client number is a float. Whole numbers of at most `2 ^ 53` are kept as integers, on which sums,
differences and products are exact, and negative zero is kept apart from them.
-/

namespace Bindery.Client

inductive Number where
  | int (n : Int)
  | negZero
  | float (x : Float)

namespace Number

/-- The greatest magnitude up to which every integer is a float. -/
def limit : Nat := 0x20000000000000

def nan : Number := .float (0.0 / 0.0)

def ofInt (n : Int) : Number := if n.natAbs ≤ limit then .int n else .float (Float.ofInt n)

def ofFloat (x : Float) : Number :=
  match Bindery.Number.whole? x with
  | some n =>
    if n == 0 && Bindery.Number.isNegative x then .negZero
    else if n.natAbs ≤ limit then .int n
    else .float x
  | none => .float x

def toFloat : Number → Float
  | .int n => Float.ofInt n
  | .negZero => -0.0
  | .float x => x

def isTrue : Number → Bool
  | .int n => n != 0
  | .negZero => false
  | .float x => !(x == 0 || x.isNaN)

/-! ## Arithmetic -/

def add : Number → Number → Number
  | .int a, .int b => ofInt (a + b)
  | .int a, .negZero => .int a
  | .negZero, .int b => .int b
  | .negZero, .negZero => .negZero
  | x, y => ofFloat (x.toFloat + y.toFloat)

def sub : Number → Number → Number
  | .int a, .int b => ofInt (a - b)
  | .int a, .negZero => .int a
  | .negZero, .int b => if b == 0 then .negZero else .int (-b)
  | .negZero, .negZero => .int 0
  | x, y => ofFloat (x.toFloat - y.toFloat)

def mul : Number → Number → Number
  | .int a, .int b => if a * b == 0 && (a < 0 || b < 0) then .negZero else ofInt (a * b)
  | .int a, .negZero => if a < 0 then .int 0 else .negZero
  | .negZero, .int b => if b < 0 then .int 0 else .negZero
  | .negZero, .negZero => .int 0
  | x, y => ofFloat (x.toFloat * y.toFloat)

def div (x y : Number) : Number := ofFloat (x.toFloat / y.toFloat)

/-- The remainder of the truncated division, which has the sign of the dividend. -/
def rem : Number → Number → Number
  | .int a, .int b =>
    if b == 0 then nan
    else if a.tmod b == 0 && a < 0 then .negZero
    else .int (a.tmod b)
  | x, y => ofFloat (Bindery.Number.remainder x.toFloat y.toFloat)

def neg : Number → Number
  | .int n => if n == 0 then .negZero else .int (-n)
  | .negZero => .int 0
  | .float x => .float (-x)

def abs : Number → Number
  | .int n => .int n.natAbs
  | .negZero => .int 0
  | .float x => .float x.abs

def trunc : Number → Number
  | .float x => ofFloat (Bindery.Number.truncate x)
  | n => n

/-! ## Comparison -/

/-- The integer that the number equals, unless it is kept as a float. -/
def toInt? : Number → Option Int
  | .int n => some n
  | .negZero => some 0
  | .float _ => none

def compareBy (onInts : Int → Int → Bool) (onFloats : Float → Float → Bool) (x y : Number) : Bool :=
  match x.toInt?, y.toInt? with
  | some a, some b => onInts a b
  | _, _ => onFloats x.toFloat y.toFloat

def eq : Number → Number → Bool := compareBy (· == ·) (· == ·)

def lt : Number → Number → Bool := compareBy (· < ·) (· < ·)

def le : Number → Number → Bool := compareBy (· ≤ ·) (· ≤ ·)

def isNaN : Number → Bool
  | .float x => x.isNaN
  | _ => false

/-- The greater of two numbers; NaN wins, and zero over negative zero. -/
def max : Number → Number → Number
  | .negZero, .int 0 => .int 0
  | x, y => if x.isNaN then x else if y.isNaN then y else if x.lt y then y else x

/-- The lesser of two numbers; NaN wins, and negative zero over zero. -/
def min : Number → Number → Number
  | .int 0, .negZero => .negZero
  | x, y => if x.isNaN then x else if y.isNaN then y else if y.lt x then y else x

/-! ## Texts -/

def layout : Decimal.Layout := ⟨-6, 20, 1, false, "NaN", "Infinity", "-Infinity"⟩

def text : Number → Text
  | .int n => Text.ofInt n
  | .negZero => "0"
  | .float x => layout.render x

def decimal? (cs : Chars) : Option Float :=
  if cs.all fun c => c.isDigit || c == '.' || c == 'e' || c == 'E' || c == '+' || c == '-' then
    Decimal.magnitude? cs
  else if cs == "Infinity".toList then some (1.0 / 0.0)
  else none

/-- The number that a text spells, NaN if it spells none. Blanks around it do not count, and the
empty text is zero. -/
def ofText (t : Text) : Number :=
  let inBase (base : Nat) (ds : Chars) : Number :=
    if ds.isEmpty then nan
    else match Text.digitsValue? base ds with
      | some n => ofInt n
      | none => nan
  let signed (x : Option Float) (f : Float → Float) : Number :=
    match x with
    | some x => ofFloat (f x)
    | none => nan
  match t.trimScript.chars with
  | [] => .int 0
  | '0' :: 'x' :: ds => inBase 16 ds
  | '0' :: 'X' :: ds => inBase 16 ds
  | '0' :: 'o' :: ds => inBase 8 ds
  | '0' :: 'O' :: ds => inBase 8 ds
  | '0' :: 'b' :: ds => inBase 2 ds
  | '0' :: 'B' :: ds => inBase 2 ds
  | '-' :: cs => signed (decimal? cs) fun x => -x
  | '+' :: cs => signed (decimal? cs) fun x => x
  | cs => signed (decimal? cs) fun x => x

end Number

end Bindery.Client
