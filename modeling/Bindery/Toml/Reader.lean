import Bindery.Decimal.Reader
import Bindery.Toml

/-!
# Reading TOML

`Toml.read?` reads a document. A line is a key with its value, or the header of a table, `[path]`,
or of a further table of an array, `[[path]]`. The reader of a part gives back the rest.
-/

namespace Bindery.Toml

def isSpace (c : Char) : Bool := c == ' ' || c == '\t'

def isLineEnd (c : Char) : Bool := c == '\n' || c == '\r'

def isBare (c : Char) : Bool := c.isAlphanum || c == '_' || c == '-'

def dropComment : Chars → Chars
  | '\r' :: '\n' :: rest => '\r' :: '\n' :: rest
  | '\n' :: rest => '\n' :: rest
  | _ :: rest => dropComment rest
  | [] => []

variable (cs : Chars)

theorem length_dropComment_le : (dropComment cs).length ≤ cs.length := by
  fun_induction dropComment cs <;> grind

def skip (lines : Bool) (cs : Chars) : Chars :=
  match cs with
  | '#' :: rest =>
    have : (dropComment rest).length < rest.length + 1 :=
      Nat.lt_succ_of_le (length_dropComment_le rest)
    skip lines (dropComment rest)
  | c :: rest => if isSpace c || (lines && isLineEnd c) then skip lines rest else c :: rest
  | [] => []
termination_by cs.length

/-! ## Strings -/

def dropLineEnd : Chars → Chars
  | '\r' :: '\n' :: rest => rest
  | '\n' :: rest => rest
  | cs => cs

def after? : Chars → Chars → Option Chars
  | [], cs => some cs
  | _ :: _, [] => none
  | l :: lead, c :: cs => if l == c then after? lead cs else none

def literal (mark : Chars) (cs : Chars) : Option (Chars × Chars) :=
  match after? mark cs with
  | some rest => some ([], rest)
  | none => match cs with
    | [] => none
    | c :: rest => (literal mark rest).map fun (s, rest) => (c :: s, rest)

def charOf (n : Nat) : Char :=
  if Text.isScalar n then Char.ofNat n else Glyph.replacement

def hexChar (n : Nat) (cs : Chars) : Option (Chars × Chars) :=
  (Text.hexNumber? n cs).map fun (v, rest) => ([charOf v], rest)

/-- What an escape stands for, without its backslash. White space is skipped. -/
def escape : Chars → Option (Chars × Chars)
  | 'u' :: rest => hexChar 4 rest
  | 'U' :: rest => hexChar 8 rest
  | c :: rest =>
    if c == '"' || c == '/' || c == '\\' then some ([c], rest)
    else if isSpace c || isLineEnd c then
      some ([], rest.dropWhile fun c => isSpace c || isLineEnd c)
    else (Text.control? c).map fun d => ([d], rest)
  | [] => none

/-- A string with escapes, up to the mark that ends it. Control characters other than tabs are
refused, and so are ends of lines unless `lines`. -/
def basic (mark : Chars) (lines : Bool) : Nat → Chars → Option (Chars × Chars)
  | 0, _ => none
  | n + 1, cs =>
    match after? mark cs with
    | some rest => some ([], rest)
    | none => match cs with
      | [] => none
      | '\\' :: rest => do
        let (s, rest) ← escape rest
        let (more, rest) ← basic mark lines n rest
        return (s ++ more, rest)
      | c :: rest =>
        if c.toNat < 0x20 && c != '\t' && !(lines && isLineEnd c) then none
        else do
          let (s, rest) ← basic mark lines n rest
          return (c :: s, rest)

def marks (n : Nat) (c : Char) : Chars := List.replicate n c

/-- A string value, which begins with one of the two marks. Three marks begin a string of several
lines. -/
def string : Option (Toml × Chars) :=
  let found (p : Option (Chars × Chars)) : Option (Toml × Chars) :=
    p.map fun (s, rest) => (.text (.ofChars s), rest)
  match cs with
  | '"' :: '"' :: '"' :: rest =>
    found (basic (marks 3 '"') true (rest.length + 1) (dropLineEnd rest))
  | '"' :: rest => found (basic (marks 1 '"') false (rest.length + 1) rest)
  | '\x27' :: '\x27' :: '\x27' :: rest => found (literal (marks 3 '\x27') (dropLineEnd rest))
  | '\x27' :: rest => found (literal (marks 1 '\x27') rest)
  | _ => none

/-! ## Numbers, dates and times -/

def underscoresFit (isDigit : Char → Bool) : Bool → Chars → Bool
  | _, [] => true
  | before, '_' :: rest =>
    before && ((rest.head?.map isDigit).getD false) && underscoresFit isDigit false rest
  | _, c :: rest => underscoresFit isDigit (isDigit c) rest

def based (base : Nat) (isDigit : Char → Bool) (cs : Chars) : Option (Toml × Chars) :=
  let ds := cs.takeWhile fun c => isDigit c || c == '_'
  if !underscoresFit isDigit false ds then none
  else do
    let n ← if ds.isEmpty then none else Text.digitsValue? base (ds.filter (· != '_'))
    let v ← ofNat? n
    return (v, cs.dropWhile fun c => isDigit c || c == '_')
where
  ofNat? (n : Nat) : Option Toml :=
    if n < 0x8000000000000000 then some (.int (.ofNat n))
    else if n < 0x10000000000000000 then some (.other (Text.ofNat n))
    else none

structure Numeral where
  chars : Chars
  isFloat : Bool

/-- A decimal number after its sign. A point stands between digits; an exponent may have a sign. -/
def numeral : Nat → (digits point exponent : Bool) → Chars → Option (Numeral × Chars)
  | 0, _, _, _, _ => none
  | n + 1, digits, point, exponent, cs =>
    let more (digits point exponent : Bool) (taken rest : Chars) := do
      let (m, rest) ← numeral n digits point exponent rest
      return ({ m with chars := taken ++ m.chars }, rest)
    match cs with
    | '.' :: rest =>
      if point || !digits || !((rest.head?.map Char.isDigit).getD false) then none
      else more digits true exponent ['.'] rest
    | c :: rest =>
      if c == 'e' || c == 'E' then
        match rest with
        | '+' :: rest => more digits point true [c, '+'] rest
        | '-' :: rest => more digits point true [c, '-'] rest
        | _ => more digits point true [c] rest
      else if c.isDigit then more true point exponent [c] rest
      else if c == '_' then more digits point exponent [c] rest
      else finish digits point exponent cs
    | [] => finish digits point exponent cs
where
  finish (digits point exponent : Bool) (cs : Chars) : Option (Numeral × Chars) :=
    if digits then some (⟨[], point || exponent⟩, cs) else none

/-- A whole number in decimal. One without a sign does not begin with zero, if it has more than two
digits. -/
def whole (sign ds : Chars) : Option Toml :=
  if sign.isEmpty && ds.length ≥ 3 && ds.head? == some '0' then none
  else match Decimal.int64? (.ofChars (sign ++ ds)) with
    | some n => some (.int n)
    | none => if sign.isEmpty then (Text.digitsValue? 10 ds).bind based.ofNat? else none

def decimal (sign : Chars) (cs : Chars) : Option (Toml × Chars) := do
  let (m, rest) ← numeral (cs.length + 1) false false false cs
  if !underscoresFit Char.isDigit false m.chars then none
  else
    let plain := m.chars.filter (· != '_')
    if m.isFloat then
      let x ← Decimal.float? (.ofChars (sign ++ plain))
      if x.isFinite then some (.float x, rest) else none
    else
      let v ← whole sign plain
      some (v, rest)

def special (negative : Bool) (cs : Chars) : Option (Toml × Chars) :=
  match cs with
  | 'i' :: 'n' :: 'f' :: rest => some (.float (if negative then -1.0 / 0.0 else 1.0 / 0.0), rest)
  | 'n' :: 'a' :: 'n' :: rest => some (.float (0.0 / 0.0), rest)
  | _ => none

def number : Option (Toml × Chars) :=
  match cs with
  | '0' :: 'x' :: rest => based 16 (fun c => (Text.hexDigit? c).isSome) rest
  | '0' :: 'o' :: rest => based 8 (fun c => '0' ≤ c && c ≤ '7') rest
  | '0' :: 'b' :: rest => based 2 (fun c => c == '0' || c == '1') rest
  | '0' :: c :: _ => if c.isAlpha then none else decimal [] cs
  | '+' :: rest => (special false rest).orElse fun _ => decimal ['+'] rest
  | '-' :: rest => (special true rest).orElse fun _ => decimal ['-'] rest
  | _ => decimal [] cs

/-- The characters that a shape admits: `0` stands for any digit. -/
def shaped : Chars → Chars → Option (Chars × Chars)
  | [], cs => some ([], cs)
  | _ :: _, [] => none
  | s :: shape, c :: cs =>
    if (s == '0' && c.isDigit) || (s != '0' && s == c) then
      (shaped shape cs).map fun (ds, rest) => (c :: ds, rest)
    else none

def time : Option (Chars × Chars) := do
  let (ds, rest) ← shaped "00:00:00".toList cs
  match rest with
  | '.' :: fraction =>
    let fs := fraction.takeWhile Char.isDigit
    if fs.isEmpty then none else some (ds ++ '.' :: fs, fraction.dropWhile Char.isDigit)
  | _ => some (ds, rest)

def offset : Chars → Option (Chars × Chars)
  | 'Z' :: rest => some (['Z'], rest)
  | '+' :: rest => (shaped "00:00".toList rest).map fun (ds, rest) => ('+' :: ds, rest)
  | '-' :: rest => (shaped "00:00".toList rest).map fun (ds, rest) => ('-' :: ds, rest)
  | rest => some ([], rest)

def date : Option (Chars × Chars) := do
  let (day, rest) ← shaped "0000-00-00".toList cs
  match rest with
  | c :: d :: _ =>
    if c == 'T' || (c == ' ' && d.isDigit) then
      let (clock, rest) ← time (rest.drop 1)
      let (zone, rest) ← offset rest
      some (day ++ c :: clock ++ zone, rest)
    else some (day, rest)
  | _ => some (day, rest)

def numeric : Option (Toml × Chars) :=
  if (shaped "0000-".toList cs).isSome then
    (date cs).map fun (s, rest) => (.other (.ofChars s), rest)
  else if (shaped "00:".toList cs).isSome then
    (time cs).map fun (s, rest) => (.other (.ofChars s), rest)
  else number cs

/-! ## Keys -/

/-- The text of a key, up to the sign or the white space that follows it, with its quoted parts as
they read. -/
def keyText : Nat → Chars → Option (Chars × Chars)
  | 0, _ => none
  | n + 1, cs =>
    let more (taken rest : Chars) : Option (Chars × Chars) :=
      (keyText n rest).map fun (s, rest) => (taken ++ s, rest)
    match cs with
    | [] => some ([], cs)
    | '=' :: _ => some ([], cs)
    | '"' :: rest => do
      let (s, rest) ← basic ['"'] true (rest.length + 1) rest
      more ('"' :: s ++ ['"']) rest
    | '\x27' :: rest => do
      let (s, rest) ← literal ['\x27'] rest
      more ('\x27' :: s ++ ['\x27']) rest
    | c :: rest =>
      if isSpace c then
        match rest.dropWhile isSpace with
        | '.' :: rest => more ['.'] (rest.dropWhile isSpace)
        | rest => some ([], rest)
      else if c == '.' || isBare c then more [c] rest
      else none

def quotedPart (mark : Char) (cs : Chars) : Option (Text × Chars) :=
  match cs.dropWhile (· != mark) with
  | _ :: rest => some (.ofChars (cs.takeWhile (· != mark)), rest)
  | [] => none

def keyParts : Nat → Chars → Option (List Text)
  | 0, _ => none
  | n + 1, cs =>
    match cs.dropWhile isSpace with
    | [] => some []
    | '"' :: rest => do
      let (p, rest) ← quotedPart '"' rest
      return p :: (← keyParts n rest)
    | '\x27' :: rest => do
      let (p, rest) ← quotedPart '\x27' rest
      return p :: (← keyParts n rest)
    | '.' :: rest =>
      match rest with
      | c :: _ => if isBare c || c == '"' || c == '\x27' || c == ' ' then keyParts n rest else none
      | [] => none
    | c :: cs =>
      if !isBare c then none
      else
        let word := Text.ofChars (c :: cs.takeWhile isBare)
        let rest := cs.dropWhile isBare
        match rest, rest.dropWhile isSpace with
        | [], _ => some [word]
        | '.' :: _, _ => return word :: (← keyParts n rest)
        | s :: _, rest =>
          if !isSpace s then none
          else match rest with
            | [] => some [word]
            | '.' :: _ => return word :: (← keyParts n rest)
            | _ => none

def key? : Option (List Text × Text) := do
  let parts ← keyParts (cs.length + 1) cs
  let last ← parts.getLast?
  return (parts.dropLast, last)

def assignment : Option ((List Text × Text) × Chars) := do
  let (k, rest) ← keyText (cs.length + 1) cs
  let k ← key? k
  match skip true rest with
  | '=' :: rest => some (k, rest.dropWhile isSpace)
  | _ => none

/-! ## Values -/

mutual

def value : Nat → Chars → Option (Toml × Chars)
  | 0, _ => none
  | n + 1, cs =>
    match cs with
    | '[' :: rest => (items n rest).map fun (vs, rest) => (ofItems vs, rest)
    | '\x7b' :: rest => (fields n false [] rest).map fun (fs, rest) => (.table true fs, rest)
    | 't' :: 'r' :: 'u' :: 'e' :: rest => some (.bool true, rest)
    | 'f' :: 'a' :: 'l' :: 's' :: 'e' :: rest => some (.bool false, rest)
    | 'i' :: _ => special false cs
    | 'n' :: _ => special false cs
    | c :: _ =>
      if c == '"' || c == '\x27' then string cs
      else if c == '+' || c == '-' then number cs
      else if c.isDigit then numeric cs
      else none
    | [] => none

def items : Nat → Chars → Option (List Toml × Chars)
  | 0, _ => none
  | n + 1, cs =>
    match skip true cs with
    | ']' :: rest => some ([], rest)
    | cs => do
      let (v, rest) ← value n cs
      match skip true rest with
      | ',' :: rest => do
        let (vs, rest) ← items n rest
        return (v :: vs, rest)
      | ']' :: rest => some ([v], rest)
      | _ => none

/-- The fields of a table, up to the brace that closes it. No comma follows the last. -/
def fields : Nat → Bool → Fields → Chars → Option (Fields × Chars)
  | 0, _, _, _ => none
  | n + 1, afterComma, fs, cs =>
    match skip true cs with
    | '\x7d' :: rest => if afterComma then none else some (fs, rest)
    | cs => do
      let ((path, k), rest) ← assignment cs
      let (v, rest) ← value n rest
      let fs ← modifyAt (fun _ sub => some (sub.assign k v)) path false fs
      match skip false rest with
      | ',' :: rest => fields n true fs rest
      | rest => match skip true rest with
        | '\x7d' :: rest => some (fs, rest)
        | _ => none

end

/-! ## Documents -/

structure Reading where
  root : Fields := []
  current : List Text := []
  /-- The headers of tables that may not be given again. -/
  seen : List Chars := []

namespace Reading

def assign (r : Reading) (path : List Text) (key : Text) (v : Toml) : Option Reading := do
  let root ← modifyAt (fun closed fs =>
    if closed || (fs.lookup key).isSome then none else some (fs.assign key v))
    (r.current ++ path) false r.root
  return { r with root }

def enter? (r : Reading) (header : Chars) : Option Reading := do
  if r.seen.contains header then none
  let (path, k) ← key? header
  let current := path ++ [k]
  let root ← modifyAt (fun closed fs => if closed then none else some fs) current false r.root
  return { root, current, seen := header :: r.seen }

/-- The document after the header of a further table of an array. The headers of tables within the
one before may be given again. -/
def extend? (r : Reading) (header : Chars) : Option Reading := do
  let (path, k) ← key? header
  let new := Toml.table false []
  let root ← modifyAt (fun _ fs => match fs.lookup k with
    | none => some (fs.assign k (.tables [new]))
    | some (.tables ts) => some (fs.assign k (.tables (ts ++ [new])))
    | some _ => none) path false r.root
  let seen := r.seen.filter fun h => !(header ++ ['.']).isPrefixOf h
  let seen := if seen.contains header then seen else header :: seen
  return { root, current := path ++ [k], seen }

end Reading

def header : Option (Chars × Chars) :=
  let inside (c : Char) : Bool := c != ']' && c != '['
  match cs.takeWhile inside, cs.dropWhile inside with
  | [], _ => none
  | h, ']' :: rest => some (h, rest)
  | _, _ => none

def document : Nat → Reading → Chars → Option Reading
  | 0, _, _ => none
  | n + 1, r, cs =>
    match skip true cs with
    | [] => some r
    | '[' :: '[' :: rest =>
      match header rest with
      | some (h, ']' :: rest) => do document n (← r.extend? h) rest
      | _ => none
    | '[' :: rest => do
      let (h, rest) ← header rest
      document n (← r.enter? h) rest
    | cs => do
      let ((path, k), rest) ← assignment cs
      let (v, rest) ← value (2 * rest.length + 2) rest
      let r ← r.assign path k v
      match skip false rest with
      | [] => some r
      | c :: rest => if isLineEnd c then document n r rest else none

def dropMark : List UInt8 → List UInt8
  | 0x00 :: 0x00 :: 0xFE :: 0xFF :: rest => rest
  | 0xFF :: 0xFE :: 0x00 :: 0x00 :: rest => rest
  | 0xEF :: 0xBB :: 0xBF :: rest => rest
  | 0xFE :: 0xFF :: rest => rest
  | 0xFF :: 0xFE :: rest => rest
  | bs => bs

def read? (t : Text) : Option Fields :=
  let cs := Text.chars ⟨dropMark t.bytes⟩
  (document (cs.length + 1) {} cs).map Reading.root

end Bindery.Toml
