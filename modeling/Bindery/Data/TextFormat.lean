import Bindery.Data
import Bindery.Decimal.Reader

/-!
# Data in the text format

A message is a sequence of named fields, one on a line. Values and records are messages with the
field names of `kindField` and `fields`. Reading allows comments, single quotation marks, angle
brackets and separators between fields.
-/

namespace Bindery.Data.TextFormat

/-! ## Writing -/

def quoteGlyph : Glyph → Text
  | .stray b => "\\x" ++ Text.hex 2 b.toNat
  | .char c =>
    let n := c.toNat
    if c == '"' || c == '\\' then Text.ofChars ['\\', c]
    else if c == '\n' then "\\n"
    else if c == '\r' then "\\r"
    else if c == '\t' then "\\t"
    else if n < 0x20 || n == 0x7F then "\\x" ++ Text.hex 2 n
    else if 0x80 ≤ n && n < 0xA0 then "\\u" ++ Text.hex 4 n
    else Text.ofChars [c]

def quote (t : Text) : Text := "\"" ++ Text.concat (t.glyphs.map quoteGlyph) ++ "\""

def message (name : Text) (lines : List Text) : List Text :=
  if lines.isEmpty then [name ++ ": \x7b\x7d"]
  else
    let indent (line : Text) : Text := "\t" ++ line
    let closing : Text := "\x7d"
    [name ++ ": \x7b"] ++ lines.map indent ++ [closing]

mutual

def encode : Data → List Text
  | .unset => []
  | .null => ["null_value: NULL_VALUE"]
  | .number x =>
    ["number_value: " ++ Decimal.Layout.render ⟨-4, 20, 2, true, "nan", "inf", "-inf"⟩ x]
  | .text t => ["string_value: " ++ quote t]
  | .bool b => ["bool_value: " ++ if b then "true" else "false"]
  | .record fs => message "struct_value" (encodeFields fs)
  | .list xs => message "list_value" (encodeItems xs)

def encodeFields (fs : Record Data) : List Text :=
  (sorted (encodePairs fs)).flatMap fun (k, lines) =>
    message "fields" (("key: " ++ quote k) :: message "value" lines)

def encodePairs : Record Data → List (Text × List Text)
  | [] => []
  | (k, v) :: fs => (k, encode v) :: encodePairs fs

def encodeItems : List Data → List Text
  | [] => []
  | x :: xs => message "values" (encode x) ++ encodeItems xs

end

def write (d : Data) : Text :=
  match d with
  | .record fs => Text.concat ((encodeFields fs).map (· ++ "\n"))
  | _ => ∅

/-! ## Tokens -/

/-- What follows blanks and comments. `inComment` holds inside a comment. -/
def skipFrom (inComment : Bool) : Chars → Chars
  | [] => []
  | c :: cs =>
    if inComment then skipFrom (c != '\n') cs
    else if isSpace c then skipFrom false cs
    else if c == '#' then skipFrom true cs
    else c :: cs

variable (cs : Chars)

def skip : Chars := skipFrom false cs

def ident? : Option (Chars × Chars) :=
  match cs with
  | c :: _ =>
    if c.isAlpha || c == '_' then
      let part (c : Char) : Bool := c.isAlphanum || c == '_'
      let rest := cs.dropWhile part
      if ends rest then some (cs.takeWhile part, skip rest) else none
    else none
  | [] => none

inductive Scalar where
  | text (t : Text)
  | word (w : Chars)
  | number (literal : Chars)

def isHex (c : Char) : Bool := (Text.hexDigit? c).isSome

def isOctal (c : Char) : Bool := '0' ≤ c && c ≤ '7'

def escape? : Option (List UInt8 × Chars) :=
  let byte (base : Nat) (ds rest : Chars) : Option (List UInt8 × Chars) := do
    if ds.isEmpty then none
    let n ← Text.digitsValue? base ds
    if n < 256 then some ([UInt8.ofNat n], rest) else none
  let unicode (count : Nat) (rest : Chars) : Option (List UInt8 × Chars) :=
    (Text.coded? count rest).map fun (c, rest) => (String.utf8EncodeChar c, rest)
  match cs with
  | c :: rest =>
    match c with
    | 'a' => some ([0x07], rest)
    | 'v' => some ([0x0B], rest)
    | 'x' =>
      let ds := (rest.takeWhile isHex).take 2
      byte 16 ds (rest.drop ds.length)
    | 'u' => unicode 4 rest
    | 'U' => unicode 8 rest
    | _ =>
      if c == '"' || c == '\x27' || c == '\\' || c == '?' then some ([c.toUInt8], rest)
      else match Text.control? c with
        | some d => some ([d.toUInt8], rest)
        | none =>
          let ds := (cs.takeWhile isOctal).take 3
          byte 8 ds (cs.drop ds.length)
  | [] => none

def stringWithin (mark : Char) : Nat → Chars → Option (List UInt8 × Chars)
  | 0, _ => none
  | _, [] => none
  | fuel + 1, c :: cs =>
    if c == mark then some ([], cs)
    else if c.toNat == 0 || c == '\n' then none
    else if c == '\\' then do
      let (bytes, rest) ← escape? cs
      let (more, rest) ← stringWithin mark fuel rest
      some (bytes ++ more, rest)
    else do
      let (more, rest) ← stringWithin mark fuel cs
      some (String.utf8EncodeChar c ++ more, rest)

def strings : Nat → Chars → Option (List UInt8 × Chars)
  | 0, _ => none
  | fuel + 1, cs =>
    match cs with
    | c :: rest =>
      if c == '"' || c == '\x27' then do
        let (bytes, rest) ← stringWithin c (rest.length + 1) rest
        let (more, rest) ← strings fuel (skip rest)
        some (bytes ++ more, rest)
      else some ([], cs)
    | [] => some ([], [])

def unsignedNumber? : Option (Chars × Chars) :=
  let finish (literal rest : Chars) : Option (Chars × Chars) :=
    if ends rest then some (literal, rest) else none
  let decimal (whole rest : Chars) : Option (Chars × Chars) := do
    let (fraction, rest) := match rest with
      | '.' :: more => ('.' :: more.takeWhile Char.isDigit, more.dropWhile Char.isDigit)
      | _ => ([], rest)
    let (exponent, rest) ← match rest with
      | e :: s :: more =>
        if e == 'e' || e == 'E' then
          if s == '+' || s == '-' then
            if more.isEmpty then none
            else some (e :: s :: more.takeWhile Char.isDigit, more.dropWhile Char.isDigit)
          else
            let digits := s :: more
            some (e :: digits.takeWhile Char.isDigit, digits.dropWhile Char.isDigit)
        else some ([], rest)
      | _ => some ([], rest)
    let rest := match rest with
      | 'f' :: more => more
      | 'F' :: more => more
      | _ => rest
    finish (whole ++ fraction ++ exponent) rest
  match cs with
  | '0' :: d :: more =>
    if d == 'x' || d == 'X' then
      let ds := more.takeWhile isHex
      if ds.isEmpty then none else finish ('0' :: d :: ds) (more.dropWhile isHex)
    else if isOctal d then
      finish ('0' :: (d :: more).takeWhile isOctal) ((d :: more).dropWhile isOctal)
    else decimal ['0'] (d :: more)
  | c :: _ =>
    if c.isDigit then decimal (cs.takeWhile Char.isDigit) (cs.dropWhile Char.isDigit)
    else if c == '.' then decimal [] cs
    else none
  | [] => none

def scalar? : Option (Scalar × Chars) :=
  match cs with
  | c :: rest =>
    if c == '"' || c == '\x27' then
      (strings (cs.length + 1) cs).map fun (bytes, rest) => (.text ⟨bytes⟩, rest)
    else match ident? cs with
      | some (w, rest) => some (.word w, rest)
      | none =>
        if c == '-' then
          match ident? rest with
          | some (w, rest) => some (.word ('-' :: w), rest)
          | none =>
            (unsignedNumber? (skip rest)).map fun (n, rest) => (.number ('-' :: n), skip rest)
        else (unsignedNumber? cs).map fun (n, rest) => (.number n, skip rest)
  | [] => none

/-! ## Reading -/

def Scalar.text? : Scalar → Option Text
  | .text t => if t.isUtf8 then some t else none
  | _ => none

def Scalar.bool? : Scalar → Option Bool
  | .word w =>
    if w == "t".toList || w == "true".toList || w == "True".toList then some true
    else if w == "f".toList || w == "false".toList || w == "False".toList then some false
    else none
  | .number n => match Decimal.wholeNumber? n with
    | some 0 => some false
    | some 1 => some true
    | _ => none
  | .text _ => none

def Scalar.float? : Scalar → Option Float
  | .word w =>
    let w := w.map Char.toLower
    if w == "nan".toList then some (0.0 / 0.0)
    else if w == "inf".toList || w == "infinity".toList then some (1.0 / 0.0)
    else if w == "-inf".toList || w == "-infinity".toList then some (-1.0 / 0.0)
    else none
  | .number n => Decimal.float? (Text.ofChars n)
  | .text _ => none

/-- The scalar denotes the null value: by its name, or by a number of 32 bits. -/
def Scalar.isNull : Scalar → Bool
  | .word w => w == "NULL_VALUE".toList
  | .number ('-' :: n) => match Decimal.wholeNumber? n with
    | some m => m ≤ 0x80000000
    | none => false
  | .number n => match Decimal.wholeNumber? n with
    | some m => m < 0x80000000
    | none => false
  | .text _ => false

def closing? (c : Char) : Option Char :=
  if c == '\x7b' then some '\x7d' else if c == '<' then some '>' else none

/-- Reads the fields of a message up to its end, which is the end of the text if `close` is missing.
`separable` holds after a field, where a separator may stand. -/
def body {α : Type} (close : Option Char) (field : Chars → Bool → Chars → α → Option (α × Chars)) :
    Nat → Bool → α → Chars → Option (α × Chars)
  | 0, _, _, _ => none
  | fuel + 1, separable, acc, cs =>
    match cs with
    | [] => if close.isNone then some (acc, []) else none
    | c :: rest =>
      if close == some c then some (acc, skip rest)
      else if separable && (c == ',' || c == ';') then body close field fuel false acc (skip rest)
      else do
        let (name, rest) ← ident? cs
        let (separated, rest) := match rest with
          | ':' :: more => (true, skip more)
          | _ => (false, rest)
        let (acc, rest) ← field name separated rest acc
        body close field fuel true acc rest

def messageOf {α : Type} (field : Chars → Bool → Chars → α → Option (α × Chars))
    (start : α) (cs : Chars) : Option (α × Chars) :=
  match cs with
  | c :: rest => do
    let close ← closing? c
    body (some close) field (cs.length + 1) false start (skip rest)
  | [] => none

/-- Reads the messages of a list after its first one, up to its end. -/
def listRest {α : Type} (item : Chars → α → Option (α × Chars)) :
    Nat → α → Chars → Option (α × Chars)
  | 0, _, _ => none
  | fuel + 1, acc, cs =>
    match cs with
    | ',' :: rest => do
      let (acc, rest) ← item (skip rest) acc
      listRest item fuel acc rest
    | ']' :: rest => some (acc, skip rest)
    | _ => none

def repeated {α : Type} (item : Chars → α → Option (α × Chars)) (acc : α)
    (cs : Chars) : Option (α × Chars) :=
  match cs with
  | '[' :: rest =>
    match skip rest with
    | ']' :: rest => some (acc, skip rest)
    | rest => do
      let (acc, rest) ← item rest acc
      listRest item (cs.length + 1) acc rest
  | _ => item cs acc

mutual

/-- Reads a field of a value. Only one may be there. -/
def valueField : Nat → Chars → Bool → Chars → Option Data → Option (Option Data × Chars)
  | 0, _, _, _, _ => none
  | _, _, _, _, some _ => none
  | depth + 1, name, separated, cs, none =>
    let scalar (read : Scalar → Option Data) : Option (Option Data × Chars) := do
      if !separated then none
      let (s, rest) ← scalar? cs
      let d ← read s
      some (some d, rest)
    if name == "null_value".toList then scalar fun s => if s.isNull then some .null else none
    else if name == "number_value".toList then scalar fun s => s.float?.map .number
    else if name == "string_value".toList then scalar fun s => s.text?.map .text
    else if name == "bool_value".toList then scalar fun s => s.bool?.map .bool
    else if name == "struct_value".toList then do
      let (fs, rest) ← messageOf (recordField depth) [] cs
      some (some (.record fs), rest)
    else if name == "list_value".toList then do
      let (xs, rest) ← messageOf (listField depth) [] cs
      some (some (.list xs), rest)
    else none

def recordField : Nat → Chars → Bool → Chars → Record Data →
    Option (Record Data × Chars)
  | 0, _, _, _, _ => none
  | depth + 1, name, _, cs, fs =>
    if name != "fields".toList then none
    else repeated (fun cs fs => do
      let ((k, v), rest) ← messageOf (pairField depth) (none, none) cs
      some (Record.assign (k.getD ∅) (v.getD .unset) fs, rest)) fs cs

def pairField : Nat → Chars → Bool → Chars → Option Text × Option Data →
    Option ((Option Text × Option Data) × Chars)
  | 0, _, _, _, _ => none
  | depth + 1, name, separated, cs, (k, v) =>
    if name == "key".toList then
      if !separated || k.isSome then none
      else do
        let (s, rest) ← scalar? cs
        let t ← s.text?
        some ((some t, v), rest)
    else if name == "value".toList then
      if v.isSome then none
      else do
        let (d, rest) ← messageOf (valueField depth) none cs
        some ((k, some (d.getD .unset)), rest)
    else none

def listField : Nat → Chars → Bool → Chars → List Data → Option (List Data × Chars)
  | 0, _, _, _, _ => none
  | depth + 1, name, _, cs, xs =>
    if name != "values".toList then none
    else repeated (fun cs xs => do
      let (d, rest) ← messageOf (valueField depth) none cs
      some (xs ++ [d.getD .unset], rest)) xs cs

end

/-- Reads a record. Bytes that belong to no character may only stand in comments. -/
def read? (t : Text) : Option Data := do
  let cs := t.glyphs.map fun
    | .char c => c
    | .stray _ => Char.ofNat 0
  let (fs, _) ← body none (recordField (cs.length + 1)) (cs.length + 1) false [] (skip cs)
  some (.record fs)

end Bindery.Data.TextFormat
