import Bindery.Text

/-!
# Characters of a text

`Text.glyphs` reads a text from the left as UTF-8. A byte that starts no well-formed sequence is
a glyph of its own, a *stray*; where a character is wanted in its place it counts as U+FFFD.
`Text.utf8` is the inverse on texts without strays.
-/

namespace Bindery

/-- One step of reading a text: a character, or a byte that belongs to none. -/
inductive Glyph where
  | char (c : Char)
  | stray (b : UInt8)
deriving DecidableEq

namespace Glyph

def replacement : Char := Char.ofNat 0xFFFD

def toChar : Glyph → Char
  | .char c => c
  | .stray _ => replacement

def bytes : Glyph → List UInt8
  | .char c => String.utf8EncodeChar c
  | .stray b => [b]

def isChar : Glyph → Bool
  | .char _ => true
  | .stray _ => false

end Glyph

namespace Text

/-- The character that starts at `b`, followed by `rest`, and the number of bytes it takes from
`rest`. -/
def decodeChar (b : UInt8) (rest : List UInt8) : Option (Char × Nat) :=
  ((b :: rest.take 3).toByteArray.utf8DecodeChar? 0).map fun c => (c, c.utf8Size - 1)

/-- The glyphs of a byte string, of which the first `skip` bytes have been read already. -/
def glyphsFrom : Nat → List UInt8 → List Glyph
  | _, [] => []
  | skip + 1, _ :: bs => glyphsFrom skip bs
  | 0, b :: bs =>
    match decodeChar b bs with
    | some (c, more) => .char c :: glyphsFrom more bs
    | none => .stray b :: glyphsFrom 0 bs

variable (t : Text)

def glyphs : List Glyph := glyphsFrom 0 t.bytes

def chars : Chars := t.glyphs.map Glyph.toChar

/-- Every byte of the text belongs to a character. -/
def isUtf8 : Bool := t.glyphs.all Glyph.isChar

def toString? : Option String :=
  if t.isUtf8 then some (String.ofList t.chars) else none

def ofGlyphs (gs : List Glyph) : Text := ⟨gs.flatMap Glyph.bytes⟩

/-! ## UTF-16 -/

def units16Char (c : Char) : List Nat :=
  let n := c.toNat
  if n < 0x10000 then [n]
  else [0xD800 + (n - 0x10000) / 0x400, 0xDC00 + (n - 0x10000) % 0x400]

def units16 : List Nat := t.chars.flatMap units16Char

/-- The first list of units comes strictly before the second: by the first unit in which they
differ, or because it is a proper beginning. -/
def unitsLt : List Nat → List Nat → Bool
  | _, [] => false
  | [], _ :: _ => true
  | a :: as, b :: bs => a < b || (a == b && unitsLt as bs)

/-- The characters of a list of UTF-16 code units, with U+FFFD for every unpaired surrogate. -/
def chars16 : List Nat → Chars
  | [] => []
  | [u] => [if 0xD800 ≤ u && u < 0xE000 then Glyph.replacement else Char.ofNat u]
  | u :: v :: rest =>
    if 0xD800 ≤ u && u < 0xDC00 then
      if 0xDC00 ≤ v && v < 0xE000 then
        Char.ofNat (0x10000 + (u - 0xD800) * 0x400 + (v - 0xDC00)) :: chars16 rest
      else Glyph.replacement :: chars16 (v :: rest)
    else if 0xDC00 ≤ u && u < 0xE000 then Glyph.replacement :: chars16 (v :: rest)
    else Char.ofNat u :: chars16 (v :: rest)

def bytes16 (units : List Nat) : List UInt8 :=
  units.flatMap fun u => [UInt8.ofNat (u % 256), UInt8.ofNat (u / 256)]

end Text

end Bindery
