import Bindery.Decimal
import Bindery.Text.Quoted

/-!
# Reading numbers

Whole numbers in a base, with underscores between digits, and floats in decimal or hexadecimal.
-/

namespace Bindery.Decimal

def toFloat (m : Nat) (e : Int) : Float :=
  let size := (Nat.toDigits 10 m).length
  if m == 0 then 0
  else if e + size > 400 then 1.0 / 0.0
  else if e + size < -400 then 0
  else Float.ofScientific m (e < 0) e.natAbs

/-- The float nearest to `m * 2 ^ e`; ties go to an even mantissa. -/
def toFloatBinary (m : Nat) (e : Int) : Float :=
  if m == 0 then 0
  else if e > 2000 then 1.0 / 0.0
  else if e + m.log2 < -1200 then 0
  else if 0 ≤ e then Float.ofScientific (m <<< e.toNat) false 0
  else Float.ofScientific (m * Nat.pow 5 e.natAbs) true e.natAbs

def underscoresSeparate : Bool → Chars → Bool
  | _, [] => true
  | afterDigit, '_' :: rest =>
    match rest with
    | c :: _ => afterDigit && (Text.hexDigit? c).isSome && underscoresSeparate false rest
    | [] => false
  | _, c :: rest => underscoresSeparate (Text.hexDigit? c).isSome rest

/-- The magnitude of a whole number with an optional base mark, read as in a program: `0x`, `0o`
and `0b` mark a base, a leading zero means octal, and underscores may separate digits. -/
def wholeNumber? (cs : Chars) : Option Nat :=
  let body (base : Nat) (afterMark : Bool) (ds : Chars) : Option Nat :=
    let kept := ds.filter (· != '_')
    if kept.isEmpty || !underscoresSeparate afterMark ds then none else Text.digitsValue? base kept
  match cs with
  | '0' :: 'x' :: ds => body 16 true ds
  | '0' :: 'X' :: ds => body 16 true ds
  | '0' :: 'o' :: ds => body 8 true ds
  | '0' :: 'O' :: ds => body 8 true ds
  | '0' :: 'b' :: ds => body 2 true ds
  | '0' :: 'B' :: ds => body 2 true ds
  | '0' :: d :: ds => body 8 true (d :: ds)
  | _ => body 10 false cs

def spanDigits (isDigit : Char → Bool) (cs : Chars) : Chars × Chars :=
  ((cs.takeWhile fun c => isDigit c || c == '_').filter (· != '_'),
    cs.dropWhile fun c => isDigit c || c == '_')

def exponent? (cs : Chars) : Option Int :=
  let digits (ds : Chars) : Option Nat :=
    let kept := ds.filter (· != '_')
    if kept.isEmpty then none else Text.digitsValue? 10 kept
  match cs with
  | '+' :: ds => (digits ds).map Int.ofNat
  | '-' :: ds => (digits ds).map fun n => -Int.ofNat n
  | ds => (digits ds).map Int.ofNat

def mantissa? (base : Nat) (cs : Chars) : Option (Nat × Nat × Chars) :=
  let isDigit (c : Char) : Bool := match Text.hexDigit? c with | some d => d < base | none => false
  let (whole, rest) := spanDigits isDigit cs
  let (fraction, rest) := match rest with
    | '.' :: more => spanDigits isDigit more
    | _ => ([], rest)
  if whole.isEmpty && fraction.isEmpty then none
  else (Text.digitsValue? base (whole ++ fraction)).map fun m => (m, fraction.length, rest)

/-- The magnitude of a float in decimal, or in hexadecimal with a binary exponent. -/
def magnitude? (cs : Chars) : Option Float :=
  let lower := cs.map Char.toLower
  if lower == "inf".toList || lower == "infinity".toList then some (1.0 / 0.0)
  else match lower with
    | '0' :: 'x' :: hex =>
      match mantissa? 16 hex with
      | some (m, places, 'p' :: e) =>
        if underscoresSeparate true (hex.takeWhile (· != 'p')) then
          (exponent? e).map fun n => toFloatBinary m (n - 4 * places)
        else none
      | _ => none
    | _ =>
      if !underscoresSeparate false (lower.map fun c => if c == 'e' then '.' else c) then none
      else match mantissa? 10 lower with
        | some (m, places, []) => some (toFloat m (-places))
        | some (m, places, 'e' :: e) => (exponent? e).map fun n => toFloat m (n - places)
        | _ => none

/-- A float with an optional sign; `nan` and infinities are spelled in any case. -/
def float? (t : Text) : Option Float :=
  let cs := t.chars
  if cs.map Char.toLower == "nan".toList then some (0.0 / 0.0)
  else match cs with
    | '-' :: rest => (magnitude? rest).map fun x => -x
    | '+' :: rest => magnitude? rest
    | rest => magnitude? rest

def int64? (t : Text) : Option Int64 :=
  let number (cs : Chars) : Option Nat := if cs.isEmpty then none else
    if cs.all Char.isDigit then Text.digitsValue? 10 cs else none
  let fit (n : Int) : Option Int64 :=
    if -0x8000000000000000 ≤ n && n < 0x8000000000000000 then some (Int64.ofInt n) else none
  match t.chars with
  | '-' :: ds => (number ds).bind fun n => fit (-n)
  | '+' :: ds => (number ds).bind fun n => fit n
  | ds => (number ds).bind fun n => fit n

end Bindery.Decimal
