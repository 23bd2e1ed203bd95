/-!
# Arithmetic on floats and 64-bit integers

Operations that both sides of a binding need: the remainder of a truncated division, and the passage
from floats to 64-bit integers.
-/

namespace Bindery.Number

variable (x : Float)

def truncate : Float := if x < 0 then x.ceil else x.floor

def isWhole : Bool := x == truncate x

/-- The whole part of a float in 64 bits; what does not fit becomes the least integer. -/
def toInt64 (x : Float) : Int64 :=
  if -9223372036854775808.0 ≤ x && x < 9223372036854775808.0 then x.toInt64 else Int64.minValue

def isNegative : Bool := x.toBits >>> 63 == 1

def parts : Nat × Int :=
  let bits := x.toBits
  let e := ((bits >>> 52) &&& 0x7FF).toNat
  let f := (bits &&& 0xFFFFFFFFFFFFF).toNat
  if e == 0 then (f, -1074) else (f + 0x10000000000000, e - 1075)

def whole? : Option Int :=
  if !x.isFinite then none
  else
    let (m, e) := parts x
    let sign (n : Nat) : Int := if isNegative x then -n else n
    if 0 ≤ e then some (sign (m <<< e.toNat))
    else if m % Nat.pow 2 (-e).toNat == 0 then some (sign (m >>> (-e).toNat))
    else none

/-- The remainder of the truncated division, which has the sign of the dividend. -/
def remainder (x y : Float) : Float :=
  if x.isNaN || y.isNaN || x.isInf || y == 0 then 0.0 / 0.0
  else if y.isInf || x == 0 then x
  else
    let (mx, ex) := parts x
    let (my, ey) := parts y
    let e := min ex ey
    let r := (mx <<< (ex - e).toNat) % (my <<< (ey - e).toNat)
    let magnitude := (Float.ofNat r).scaleB e
    if isNegative x then -magnitude else magnitude

end Bindery.Number
