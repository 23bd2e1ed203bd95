import Bindery.Text.Utf8

/-!
# White space

`isBlank` is Unicode's white space. Scripts use a set of their own, `isScriptBlank`: it lacks the
next-line control and has the byte-order mark.
-/

namespace Bindery.Text

def isBlank (c : Char) : Bool :=
  let n := c.toNat
  (0x09 ≤ n && n ≤ 0x0D) || n == 0x20 || n == 0x85 || n == 0xA0 || n == 0x1680
    || (0x2000 ≤ n && n ≤ 0x200A) || n == 0x2028 || n == 0x2029 || n == 0x202F || n == 0x205F
    || n == 0x3000

def isScriptBlank (c : Char) : Bool := (isBlank c && c.toNat != 0x85) || c.toNat == 0xFEFF

/-- The glyphs that are left when those that satisfy `p` are taken from both ends. -/
def trimGlyphs (p : Char → Bool) (gs : List Glyph) : List Glyph :=
  let blank (g : Glyph) : Bool := match g with | .char c => p c | .stray _ => false
  ((gs.dropWhile blank).reverse.dropWhile blank).reverse

def trim (t : Text) : Text := ofGlyphs (trimGlyphs isBlank t.glyphs)

def trimScript (t : Text) : Text := ofGlyphs (trimGlyphs isScriptBlank t.glyphs)

end Bindery.Text
