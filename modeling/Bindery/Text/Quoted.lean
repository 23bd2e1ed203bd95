import Bindery.Text.Printable

/-!
# Quoted texts

`Text.quote` writes a text between double quotes with everything that is not printable escaped;
`Text.unquote?` reads a double-quoted, back-quoted or single-quoted form. `Text.scriptQuote`
writes the string literal of a script, which is safe inside markup.
-/

namespace Bindery.Text

def escapeLetter? (n : Nat) : Option Char :=
  match n with
  | 0x07 => some 'a'
  | 0x08 => some 'b'
  | 0x0C => some 'f'
  | 0x0A => some 'n'
  | 0x0D => some 'r'
  | 0x09 => some 't'
  | 0x0B => some 'v'
  | _ => none

def quoteGlyph : Glyph → Text
  | .stray b => "\\x" ++ hex 2 b.toNat
  | .char c =>
    if c == '"' || c == '\\' then ofChars ['\\', c]
    else if isPrintable c then ofChars [c]
    else match escapeLetter? c.toNat with
      | some l => ofChars ['\\', l]
      | none =>
        let n := c.toNat
        if n < 0x20 || n == 0x7F then "\\x" ++ hex 2 n
        else if n < 0x10000 then "\\u" ++ hex 4 n
        else "\\U" ++ hex 8 n

def quote (t : Text) : Text := "\"" ++ concat (t.glyphs.map quoteGlyph) ++ "\""

/-! ## Reading quoted forms -/

def hexDigit? (c : Char) : Option Nat :=
  if '0' ≤ c && c ≤ '9' then some (c.toNat - '0'.toNat)
  else if 'a' ≤ c && c ≤ 'f' then some (c.toNat - 'a'.toNat + 10)
  else if 'A' ≤ c && c ≤ 'F' then some (c.toNat - 'A'.toNat + 10)
  else none

def digitsValue? (base : Nat) (cs : Chars) : Option Nat :=
  let step (n : Nat) (c : Char) : Option Nat :=
    match hexDigit? c with
    | some d => if d < base then some (n * base + d) else none
    | none => none
  cs.foldlM step 0

def isScalar (n : Nat) : Bool := n < 0xD800 || (0xE000 ≤ n && n < 0x110000)

/-- The control character that a backslash and the letter stand for. -/
def control? (c : Char) : Option Char :=
  [('b', '\x08'), ('f', '\x0c'), ('n', '\n'), ('r', '\r'), ('t', '\t')].lookup c

def hexNumber? (count : Nat) (cs : Chars) : Option (Nat × Chars) := do
  if cs.length < count then none
  let n ← digitsValue? 16 (cs.take count)
  some (n, cs.drop count)

/-- The character of an escape by its code, which may be given by a pair of surrogates. -/
def coded? (count : Nat) (cs : Chars) : Option (Char × Chars) := do
  let (n, rest) ← hexNumber? count cs
  if 0x10FFFF < n then none
  else if 0xD800 ≤ n && n < 0xE000 then
    match rest with
    | '\\' :: 'u' :: rest =>
      let (m, rest) ← hexNumber? 4 rest
      match chars16 [n, m] with
      | [c] => some (c, rest)
      | _ => none
    | _ => none
  else some (Char.ofNat n, rest)

/-- What an escape stands for and the number of glyphs after the backslash that it takes. -/
def unescape? (quoteMark : Char) (rest : List Glyph) : Option (List UInt8 × Nat) :=
  let digits (count base : Nat) : Option Nat :=
    let cs := (rest.drop 1).take count
    if cs.length = count then digitsValue? base (cs.map Glyph.toChar) else none
  let char (count : Nat) : Option (List UInt8 × Nat) := do
    let n ← digits count 16
    if isScalar n then some (String.utf8EncodeChar (Char.ofNat n), count + 1) else none
  match rest with
  | .char c :: _ =>
    match c with
    | 'a' => some ([0x07], 1)
    | 'b' => some ([0x08], 1)
    | 'f' => some ([0x0C], 1)
    | 'n' => some ([0x0A], 1)
    | 'r' => some ([0x0D], 1)
    | 't' => some ([0x09], 1)
    | 'v' => some ([0x0B], 1)
    | '\\' => some ([0x5C], 1)
    | 'x' => (digits 2 16).map fun n => ([UInt8.ofNat n], 3)
    | 'u' => char 4
    | 'U' => char 8
    | _ =>
      if c == quoteMark then some ([c.toUInt8], 1)
      else if '0' ≤ c && c ≤ '7' then do
        let cs := rest.take 3
        if cs.length ≠ 3 then none
        let n ← digitsValue? 8 (cs.map Glyph.toChar)
        if n < 256 then some ([UInt8.ofNat n], 3) else none
      else none
  | _ => none

/-- The text of the glyphs between two quotation marks, the first `skip` of which are done with. -/
def unescapeFrom (quoteMark : Char) : Nat → List Glyph → Option (List UInt8)
  | _, [] => some []
  | skip + 1, _ :: gs => unescapeFrom quoteMark skip gs
  | 0, .char '\\' :: gs => do
    let (image, taken) ← unescape? quoteMark gs
    let rest ← unescapeFrom quoteMark taken gs
    some (image ++ rest)
  | 0, g :: gs =>
    if g == .char quoteMark || g == .char '\n' then none
    else do
      let rest ← unescapeFrom quoteMark 0 gs
      some (String.utf8EncodeChar g.toChar ++ rest)

/-- The text denoted by a quoted form: between double quotes or, for one character, single quotes
with escapes; between back quotes without. -/
def unquote? (t : Text) : Option Text :=
  match t.glyphs with
  | .char q :: rest =>
    match rest.reverse with
    | .char q' :: inner =>
      if q ≠ q' then none
      else
        let body := inner.reverse
        if q == '\x60' then
          if body.contains (.char '\x60') then none
          else some (ofGlyphs (body.filter (· != .char '\r')))
        else if q == '"' then (unescapeFrom q 0 body).map Text.mk
        else if q == '\x27' then do
          let bs ← unescapeFrom q 0 body
          let single : Bool := match body with
            | .char '\\' :: rest => match unescape? q rest with
              | some (_, taken) => taken == rest.length
              | none => false
            | _ => body.length == 1
          if single then some ⟨bs⟩ else none
        else none
    | _ => none
  | _ => none

/-! ## Script string literals -/

/-- One glyph of a script string literal. Characters that could end a script element are escaped. -/
def scriptQuoteGlyph : Glyph → Text
  | .stray _ => "\uFFFD"
  | .char c =>
    let n := c.toNat
    if c == '"' || c == '\\' then ofChars ['\\', c]
    else if n == 0x08 then "\\b"
    else if n == 0x0C then "\\f"
    else if n == 0x0A then "\\n"
    else if n == 0x0D then "\\r"
    else if n == 0x09 then "\\t"
    else if n < 0x20 || c == '<' || c == '>' || c == '&' || n == 0x2028 || n == 0x2029 then
      "\\u" ++ hex 4 n
    else ofChars [c]

def scriptQuote (t : Text) : Text := "\"" ++ concat (t.glyphs.map scriptQuoteGlyph) ++ "\""

end Bindery.Text
