import Bindery.Data
import Bindery.Decimal.Reader

/-!
# Data as JSON

Records are written over several lines with their fields in the order of their names. Reading takes
JSON as it is defined and nothing more: a record may not have a name twice, and a number has to be
in the range of floats.
-/

namespace Bindery.Data.Json

/-! ## Writing -/

def quoteChar (c : Char) : Text :=
  if c == '"' || c == '\\' then Text.ofChars ['\\', c]
  else if c.toNat == 0x08 then "\\b"
  else if c.toNat == 0x0C then "\\f"
  else if c == '\n' then "\\n"
  else if c == '\r' then "\\r"
  else if c == '\t' then "\\t"
  else if c.toNat < 0x20 then "\\u" ++ Text.hex 4 c.toNat
  else Text.ofChars [c]

def quote (t : Text) : Text := "\"" ++ Text.concat (t.chars.map quoteChar) ++ "\""

def block (depth : Nat) (opening closing : Text) (parts : List Text) : Text :=
  let line (n : Nat) : Text := "\n" ++ Text.replicate n '\t'
  if parts.isEmpty then opening ++ closing
  else opening ++ line (depth + 1) ++ Text.join ("," ++ line (depth + 1)) parts ++ line depth
    ++ closing

mutual

def encode (depth : Nat) : Data → Text
  | .unset => "null"
  | .null => "null"
  | .number x => Decimal.Layout.render ⟨-7, 20, 2, true, "NaN", "Infinity", "-Infinity"⟩ x
  | .text t => quote t
  | .bool b => if b then "true" else "false"
  | .list xs => block depth "[" "]" (encodeItems (depth + 1) xs)
  | .record fs =>
    block depth "\x7b" "\x7d" ((sorted (encodePairs (depth + 1) fs)).map fun (k, v) =>
      quote k ++ ": " ++ v)

def encodeItems (depth : Nat) : List Data → List Text
  | [] => []
  | x :: xs => encode depth x :: encodeItems depth xs

def encodePairs (depth : Nat) : Record Data → Record Text
  | [] => []
  | (k, v) :: fs => (k, encode depth v) :: encodePairs depth fs

end

def write (d : Data) : Text := encode 0 d

/-! ## Reading -/

variable (cs : Chars)

def skip : Chars := cs.dropWhile isSpace

def word? (w : Chars) (cs : Chars) : Option Chars :=
  if w.isPrefixOf cs && ends (cs.drop w.length) then some (cs.drop w.length) else none

/-- The characters of a string literal after its first quotation mark, and what follows it. -/
def stringWithin : Nat → Chars → Option (Chars × Chars)
  | 0, _ => none
  | _, [] => none
  | _, '"' :: rest => some ([], rest)
  | fuel + 1, '\\' :: rest => do
    let simple (c : Char) (rest : Chars) : Option (Chars × Chars) :=
      (stringWithin fuel rest).map fun (cs, rest) => (c :: cs, rest)
    match rest with
    | 'u' :: rest =>
      let (c, rest) ← Text.coded? 4 rest
      simple c rest
    | c :: rest =>
      if c == '"' || c == '\\' || c == '/' then simple c rest
      else simple (← Text.control? c) rest
    | [] => none
  | fuel + 1, c :: rest =>
    if c.toNat < 0x20 then none
    else (stringWithin fuel rest).map fun (cs, rest) => (c :: cs, rest)

def string? : Option (Text × Chars) :=
  (stringWithin (cs.length + 1) cs).map fun (s, rest) => (Text.ofChars s, rest)

def digits? : Option (Chars × Chars) :=
  let ds := cs.takeWhile Char.isDigit
  if ds.isEmpty then none else some (ds, cs.dropWhile Char.isDigit)

def numberRun? : Option (Chars × Chars) := do
  let (sign, cs) := match cs with
    | '-' :: rest => (['-'], rest)
    | _ => ([], cs)
  let (whole, cs) ← match cs with
    | '0' :: rest => some (['0'], rest)
    | _ => digits? cs
  let (fraction, cs) ← match cs with
    | '.' :: rest => (digits? rest).map fun (ds, rest) => ('.' :: ds, rest)
    | _ => some ([], cs)
  let (exponent, cs) ← match cs with
    | e :: rest =>
      if e == 'e' || e == 'E' then
        match rest with
        | '+' :: more => (digits? more).map fun (ds, rest) => ('e' :: '+' :: ds, rest)
        | '-' :: more => (digits? more).map fun (ds, rest) => ('e' :: '-' :: ds, rest)
        | _ => (digits? rest).map fun (ds, rest) => ('e' :: ds, rest)
      else some ([], cs)
    | [] => some ([], cs)
  if ends cs then some (sign ++ whole ++ fraction ++ exponent, cs) else none

mutual

def value : Nat → Chars → Option (Data × Chars)
  | 0, _ => none
  | fuel + 1, cs =>
    match skip cs with
    | '\x7b' :: rest => do
      match skip rest with
      | '\x7d' :: rest => some (.record [], rest)
      | rest =>
        let (fs, rest) ← fields fuel [] rest
        some (.record fs, rest)
    | '[' :: rest => do
      match skip rest with
      | ']' :: rest => some (.list [], rest)
      | rest =>
        let (xs, rest) ← items fuel rest
        some (.list xs, rest)
    | '"' :: rest => (string? rest).map fun (t, rest) => (.text t, rest)
    | cs =>
      match word? "null".toList cs, word? "true".toList cs, word? "false".toList cs with
      | some rest, _, _ => some (.null, rest)
      | _, some rest, _ => some (.bool true, rest)
      | _, _, some rest => some (.bool false, rest)
      | _, _, _ => do
        let (digits, rest) ← numberRun? cs
        let x ← Decimal.float? (Text.ofChars digits)
        if x.isInf then none else some (.number x, rest)

def items : Nat → Chars → Option (List Data × Chars)
  | 0, _ => none
  | fuel + 1, cs => do
    let (x, rest) ← value fuel cs
    match skip rest with
    | ',' :: rest =>
      let (xs, rest) ← items fuel rest
      some (x :: xs, rest)
    | ']' :: rest => some ([x], rest)
    | _ => none

def fields : Nat → Record Data → Chars → Option (Record Data × Chars)
  | 0, _, _ => none
  | fuel + 1, known, cs =>
    match skip cs with
    | '"' :: rest => do
      let (k, rest) ← string? rest
      match skip rest with
      | ':' :: rest =>
        if (known.get? k).isSome then none
        else
          let (v, rest) ← value fuel rest
          let known := known ++ [(k, v)]
          match skip rest with
          | ',' :: rest => fields fuel known rest
          | '\x7d' :: rest => some (known, rest)
          | _ => none
      | _ => none
    | _ => none

end

def read? (t : Text) : Option Data :=
  if !t.isUtf8 then none
  else match value (t.length + 1) t.chars with
    | some (.record fs, rest) => if (skip rest).isEmpty then some (.record fs) else none
    | _ => none

end Bindery.Data.Json
