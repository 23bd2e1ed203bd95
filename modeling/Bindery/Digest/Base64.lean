import Bindery.Text

/-!
# Base64 for addresses

The alphabet has `-` and `_` in the places of `+` and `/`, and there is no padding.
-/

namespace Bindery.Digest

def base64Digits : Chars :=
  "ABCDEFGHIJKLMNOPQRSTUVWXYZabcdefghijklmnopqrstuvwxyz0123456789-_".toList

def base64Digit (n : Nat) : Char := base64Digits.getD (n % 64) 'A'

def base64Chars : List UInt8 → Chars
  | [] => []
  | [a] => let n := a.toNat * 16; [base64Digit (n / 64), base64Digit n]
  | [a, b] =>
    let n := (a.toNat * 256 + b.toNat) * 4
    [base64Digit (n / 4096), base64Digit (n / 64), base64Digit n]
  | a :: b :: c :: rest =>
    let n := (a.toNat * 256 + b.toNat) * 256 + c.toNat
    base64Digit (n / 262144) :: base64Digit (n / 4096) :: base64Digit (n / 64) :: base64Digit n
      :: base64Chars rest

def base64 (bytes : List UInt8) : Text := .ofChars (base64Chars bytes)

end Bindery.Digest
