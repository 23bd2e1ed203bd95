import Bindery.Text

/-!
# Decimal forms of floats

`Decimal.shortest` gives the fewest digits that read back as a given float, and of those the
nearest to it. `Layout` says how such digits are written; `Float.render` writes a float.
-/

namespace Bindery

/-- A positive decimal number: its digits, the most significant first, and the power of ten of the
first digit. -/
structure Decimal where
  digits : List Nat
  exponent : Int
deriving DecidableEq, Inhabited

namespace Decimal

def significant (n : Nat) : List Nat :=
  let ds := (Nat.toDigits 10 n).map fun c => c.toNat - '0'.toNat
  match (ds.reverse.dropWhile (· == 0)).reverse with
  | [] => [0]
  | kept => kept

/-- The least `k` in `[k, k + fuel)` with `den ≤ num * 10 ^ k`. -/
def scaleUp (num den : Nat) : Nat → Nat → Nat
  | 0, k => k
  | fuel + 1, k => if den ≤ num * Nat.pow 10 k then k else scaleUp num den fuel (k + 1)

/-- The power of ten of the first digit of `num / den`, which is positive. -/
def leadingExponent (num den : Nat) : Int :=
  if den ≤ num then (Nat.toDigits 10 (num / den)).length - 1
  else - (scaleUp num den 400 1 : Int)

/-- The decimals with `n` digits next to `v`, tested against the open or closed interval from `lo`
to `hi`; all are multiples of `scale / den`. The nearer one wins, an even one on a tie. -/
def onGrid (lo v hi scale den : Nat) (closed : Bool) (e : Int) (n : Nat) : Option Nat :=
  let shift : Int := e - n + 1
  let wide := Nat.pow 10 shift.toNat
  let narrow := Nat.pow 10 (-shift).toNat
  let unit := wide * den
  let at_ (x : Nat) : Nat := x * scale * narrow
  let inside (c : Nat) : Bool :=
    if closed then at_ lo ≤ c * unit && c * unit ≤ at_ hi
    else at_ lo < c * unit && c * unit < at_ hi
  let below := at_ v / unit
  let above := below + 1
  match inside below, inside above with
  | false, false => none
  | true, false => some below
  | false, true => some above
  | true, true =>
    let twice := 2 * at_ v
    let middle := (below + above) * unit
    if twice < middle then some below
    else if middle < twice then some above
    else if below % 2 == 0 then some below else some above

def firstHit (lo v hi scale den : Nat) (closed : Bool) (e : Int) : Nat → Nat → Decimal
  | 0, n => ⟨significant (Nat.pow 10 (n - 1)), e⟩
  | fuel + 1, n =>
    match onGrid lo v hi scale den closed e n with
    | some c => ⟨significant c, e + ((Nat.toDigits 10 c).length - n : Int)⟩
    | none => firstHit lo v hi scale den closed e fuel (n + 1)

/-- The fewest digits that read back as `m * 2 ^ q`, where `m` has at most `bits` binary digits.
`narrowBelow` says that the float below is only half as far away as the one above. -/
def shortest (m : Nat) (q : Int) (narrowBelow : Bool) : Decimal :=
  let scale := Nat.pow 2 (q - 2).toNat
  let den := Nat.pow 2 (2 - q).toNat
  let v := 4 * m
  let lo := if narrowBelow then v - 1 else v - 2
  firstHit lo v (v + 2) scale den (m % 2 == 0) (leadingExponent (v * scale) den) 17 1

def exponentField (bits : UInt64) : Nat := ((bits >>> 52) &&& 0x7FF).toNat

def fractionField (bits : UInt64) : Nat := (bits &&& 0xFFFFFFFFFFFFF).toNat

def ofFloat (x : Float) : Decimal :=
  let bits := x.toBits
  let e := exponentField bits
  let f := fractionField bits
  if e == 0 then shortest f (-1074) false
  else shortest (f + 0x10000000000000) (e - 1075) (f == 0 && 1 < e)

structure Layout where
  /-- The least and the greatest power of ten of a first digit that is written without exponent. -/
  positionalFrom : Int
  positionalTo : Int
  /-- The least number of digits of a written exponent. -/
  exponentWidth : Nat
  signedZero : Bool
  nan : Text
  infinity : Text
  negInfinity : Text

def digitChar (d : Nat) : Char := Char.ofNat ('0'.toNat + d)

def digitText (ds : List Nat) : Text := Text.ofChars (ds.map digitChar)

def positional (d : Decimal) : Text :=
  if d.exponent < 0 then
    "0." ++ Text.replicate ((-d.exponent).toNat - 1) '0' ++ digitText d.digits
  else
    let whole := d.exponent.toNat + 1
    let n := d.digits.length
    if n ≤ whole then digitText d.digits ++ Text.replicate (whole - n) '0'
    else digitText (d.digits.take whole) ++ "." ++ digitText (d.digits.drop whole)

def scientific (width : Nat) (d : Decimal) : Text :=
  let tail := d.digits.drop 1
  let point : Text := if tail.isEmpty then "" else "."
  let size := Text.ofNat d.exponent.natAbs
  let sign : Text := if d.exponent < 0 then "-" else "+"
  digitText (d.digits.take 1) ++ point ++ digitText tail ++ "e" ++ sign
    ++ Text.replicate (width - size.length) '0' ++ size

def Layout.write (l : Layout) (d : Decimal) : Text :=
  if l.positionalFrom ≤ d.exponent && d.exponent ≤ l.positionalTo then d.positional
  else d.scientific l.exponentWidth

def Layout.render (l : Layout) (x : Float) : Text :=
  let negative := (x.toBits >>> 63) == 1
  if x.isNaN then l.nan
  else if x.isInf then if negative then l.negInfinity else l.infinity
  else if x == 0 then if negative && l.signedZero then "-0" else "0"
  else if negative then "-" ++ l.write (ofFloat x) else l.write (ofFloat x)

end Decimal

end Bindery
