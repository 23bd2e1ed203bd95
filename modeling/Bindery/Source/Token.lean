import Bindery.Text.Blank
import Bindery.Text.Quoted

/-!
# Tokens of the expression grammar

Bindings are written in the expression grammar of ECMAScript. `Token.scan` reads one token. Whether
a slash begins a regular expression depends on the place, so the parser reads those itself, and so
it does with the characters of template literals.

A literal or identifier with characters beyond ASCII has as its value its UTF-16 code units behind a
byte-order mark (`Text.ofUnits`).
-/

namespace Bindery

/-- The text of UTF-16 code units: ASCII as it is, and otherwise all units, low byte first, behind a
byte-order mark. -/
def Text.ofUnits (units : List Nat) : Text :=
  if units.all (· < 0x80) then ⟨units.map UInt8.ofNat⟩ else ⟨0xFF :: 0xFE :: Text.bytes16 units⟩

def Text.unitsOf (t : Text) : List Nat :=
  match t.bytes with
  | 0xFF :: 0xFE :: rest => pairs rest
  | bytes => bytes.map UInt8.toNat
where
  pairs : List UInt8 → List Nat
    | low :: high :: rest => (low.toNat + 256 * high.toNat) :: pairs rest
    | _ => []

inductive Token where
  | ident (name : Text) (escaped : Bool)
  | word (name : String)
  /-- A reserved word written with an escape, which can only name a property. -/
  | escapedWord (name : Text)
  | privateName (name : Text)
  | number (literal : Chars)
  | string (value : Text)
  | sym (s : String)
  | backtick
  | eof
  | illegal
deriving DecidableEq

namespace Token

def isName : Token → Bool
  | .ident .. => true
  | .word _ => true
  | .escapedWord _ => true
  | _ => false

def words : List String := [
  "if", "in", "do", "var", "for", "new", "try", "this", "else", "case", "void", "with", "async",
  "while", "break", "catch", "throw", "return", "typeof", "delete", "switch", "static", "default",
  "finally", "function", "continue", "debugger", "instanceof", "const", "class", "enum", "export",
  "extends", "import", "super", "let", "yield", "await", "true", "false", "null"]

/-- Words that are identifiers wherever they have no special meaning. -/
def contextual : List String := ["let", "static", "async"]

/-- Words after which the end of the line can end a statement. -/
def endsStatement : List String :=
  ["true", "false", "null", "this", "break", "throw", "yield", "return", "continue", "debugger"]

def isLineEnd (c : Char) : Bool :=
  c == '\n' || c == '\r' || c.toNat == 0x2028 || c.toNat == 0x2029

def isSpace (c : Char) : Bool := Text.isBlank c || c.toNat == 0xFEFF

inductive Gap where
  | code
  | lineComment
  | blockComment
  /-- In a block comment, after a star. -/
  | star

def width (c : Char) : Nat := c.utf8Size

/-- Skips white space and comments. The result tells whether a line end was seen that can end a
statement: any line end if `ends` holds, and otherwise only one in a comment. There is no result if
a comment does not end. -/
def skip (ends : Bool) : Gap → Bool → Nat → Chars → Option (Bool × Nat × Chars)
  | .code, seen, pos, [] => some (seen, pos, [])
  | .lineComment, seen, pos, [] => some (seen, pos, [])
  | _, _, _, [] => none
  | .code, seen, pos, '/' :: '/' :: cs => skip ends .lineComment seen (pos + 2) cs
  | .code, seen, pos, '/' :: '*' :: cs => skip ends .blockComment seen (pos + 2) cs
  | .code, seen, pos, c :: cs =>
    if isSpace c then skip ends .code (seen || ends && isLineEnd c) (pos + width c) cs
    else some (seen, pos, c :: cs)
  | .lineComment, seen, pos, c :: cs =>
    if isLineEnd c then skip ends .code (seen || ends) (pos + width c) cs
    else skip ends .lineComment seen (pos + width c) cs
  | .star, seen, pos, '/' :: cs => skip ends .code seen (pos + 1) cs
  | _, seen, pos, c :: cs =>
    skip ends (if c == '*' then .star else .blockComment) (seen || isLineEnd c) (pos + width c) cs

/-! ## Escapes -/

def hexDigits : Nat → Nat → Chars → Option (Nat × Chars)
  | 0, value, cs => some (value, cs)
  | n + 1, value, c :: cs => (Text.hexDigit? c).bind fun d => hexDigits n (value * 16 + d) cs
  | _, _, [] => none

/-- The value of hexadecimal digits up to a closing brace, at most the last code point. `none` as
the value means that no digit was seen yet. -/
def bracedDigits : Option Nat → Chars → Option (Nat × Chars)
  | _, [] => none
  | value, '\x7d' :: cs => value.map (·, cs)
  | value, c :: cs =>
    (Text.hexDigit? c).bind fun d =>
      let next := value.getD 0 * 16 + d
      if next ≤ 0x10FFFF then bracedDigits (some next) cs else none

def unicodeEscape : Chars → Option (Nat × Chars)
  | '\x7b' :: cs => bracedDigits none cs
  | cs => hexDigits 4 0 cs

def unitsOfCode (n : Nat) : List Nat :=
  if n < 0x10000 then [n] else [0xD800 + (n - 0x10000) / 0x400, 0xDC00 + (n - 0x10000) % 0x400]

def octalDigit? (c : Char) : Option Nat := (Text.hexDigit? c).filter (· < 8)

/-- The value of an octal escape, given its first digit: at most two more digits follow. -/
def octalEscape (first : Nat) (cs : Chars) : Nat × Chars :=
  match cs with
  | c :: rest => match octalDigit? c with
    | none => (first, cs)
    | some d => match rest with
      | c' :: rest' => match octalDigit? c' with
        | some d' => ((first * 8 + d) * 8 + d', rest')
        | none => (first * 8 + d, rest)
      | [] => (first * 8 + d, rest)
  | [] => (first, cs)

/-- The code units of an escape, after its backslash, and the rest. Octal escapes other than for the
null character are refused if `strict` holds. -/
def escape (strict : Bool) : Chars → Option (List Nat × Chars)
  | [] => none
  | 'b' :: cs => some ([0x08], cs)
  | 'f' :: cs => some ([0x0C], cs)
  | 'n' :: cs => some ([0x0A], cs)
  | 'r' :: cs => some ([0x0D], cs)
  | 't' :: cs => some ([0x09], cs)
  | 'v' :: cs => some ([0x0B], cs)
  | 'x' :: cs => (hexDigits 2 0 cs).map fun (n, rest) => ([n], rest)
  | 'u' :: cs => (unicodeEscape cs).map fun (n, rest) => (unitsOfCode n, rest)
  | '\r' :: '\n' :: cs => some ([], cs)
  | c :: cs =>
    if isLineEnd c then some ([], cs)
    else match octalDigit? c with
      | none => some (Text.units16Char c, cs)
      | some d =>
        let (n, rest) := octalEscape d cs
        if strict && !(d == 0 && rest.length == cs.length) then none else some ([n], rest)

/-! ## Literals -/

def stringBody (quote : Char) : Nat → Chars → Option (List Nat × Chars)
  | 0, _ => none
  | _, [] => none
  | n + 1, '\\' :: cs => do
    let (units, rest) ← escape false cs
    let (more, rest) ← stringBody quote n rest
    return (units ++ more, rest)
  | n + 1, c :: cs =>
    if c == quote then some ([], cs)
    else if c == '\n' || c == '\r' then none
    else (stringBody quote n cs).map fun (more, rest) => (Text.units16Char c ++ more, rest)

/-- A run of characters of a template literal: whether the literal ends after it, and what follows.
Escapes must be well-formed unless the literal is tagged. -/
def templateRun (tagged : Bool) : Nat → Chars → Option (Bool × Chars)
  | 0, _ => none
  | _, [] => none
  | n + 1, '\\' :: cs =>
    match escape true cs with
    | some (_, rest) =>
      if !tagged && (cs.head? == some '8' || cs.head? == some '9') then none
      else templateRun tagged n rest
    | none => if tagged then templateRun tagged n (cs.drop 1) else none
  | _ + 1, '$' :: '\x7b' :: cs => some (false, cs)
  | n + 1, c :: cs => if c == '\x60' then some (true, cs) else templateRun tagged n cs

/-- The rest of a regular expression after its closing slash. A slash in a class does not close it;
a line end in a class does. -/
def regexBody : Bool → Chars → Option Chars
  | inClass, [] => if inClass then some [] else none
  | inClass, '\\' :: c :: cs => if isLineEnd c then none else regexBody inClass cs
  | inClass, c :: cs =>
    if inClass then
      if c == '\n' || c == '\r' then some cs else regexBody (c != ']') cs
    else if isLineEnd c then none
    else if c == '/' then some cs
    else regexBody (c == '[') cs

def isDigitOf (base : Nat) (c : Char) : Bool :=
  match Text.hexDigit? c with
  | some d => d < base
  | none => false

/-- Digits, with single underscores between them if these are allowed, and the rest. -/
def digitRun (base : Nat) (separators : Bool) : Chars → Option (Chars × Chars)
  | [] => some ([], [])
  | c :: cs =>
    if isDigitOf base c then (digitRun base separators cs).map fun (ds, rest) => (c :: ds, rest)
    else if separators && c == '_' then
      match cs with
      | d :: _ =>
        if isDigitOf base d then
          (digitRun base separators cs).map fun (ds, rest) => (c :: ds, rest)
        else none
      | [] => none
    else some ([], c :: cs)

def fractionRun (afterPoint : Bool) (cs : Chars) : Option (Chars × Chars) := do
  let (fraction, cs) ← if afterPoint then digitRun 10 true cs else
    match cs with
    | '.' :: rest => (digitRun 10 true rest).map fun (ds, rest) => ('.' :: ds, rest)
    | _ => some ([], cs)
  match cs with
  | e :: rest =>
    if e == 'e' || e == 'E' then do
      let (sign, rest) := match rest with
        | '-' :: more => (['-'], more)
        | '+' :: more => (['+'], more)
        | _ => ([], rest)
      let (ds, rest) ← digitRun 10 true rest
      if (ds.head?.map Char.isDigit).getD false then some (fraction ++ e :: sign ++ ds, rest)
      else none
    else some (fraction, cs)
  | [] => some (fraction, [])

def numberRun (cs : Chars) : Option (Chars × Chars) := do
  let (literal, rest) ← match cs with
    | '.' :: ds => (fractionRun true ds).map fun (more, rest) => ('.' :: more, rest)
    | '0' :: m :: ds =>
      let base := if m == 'x' || m == 'X' then 16 else if m == 'o' || m == 'O' then 8
        else if m == 'b' || m == 'B' then 2 else 0
      if base != 0 then do
        let (digits, rest) ← digitRun base true ds
        if (digits.head?.map (isDigitOf base)).getD false then some ('0' :: m :: digits, rest)
        else none
      else if m == '.' || m == 'e' || m == 'E' then
        (fractionRun false (m :: ds)).map fun (more, rest) => ('0' :: more, rest)
      else (digitRun 8 false (m :: ds)).map fun (digits, rest) => ('0' :: digits, rest)
    | _ => do
      let (whole, rest) ← digitRun 10 true cs
      let (more, rest) ← fractionRun false rest
      pure (whole ++ more, rest)
  let (literal, rest) := match rest with
    | 'n' :: more => (literal ++ ['n'], more)
    | _ => (literal, rest)
  match rest with
  | c :: _ => if Text.isIdentStart c || c == '\\' || c.isDigit then none else some (literal, rest)
  | [] => some (literal, rest)

/-- The code points of an identifier, whether it has escapes, and the rest. `first` holds at the
first character. -/
def identRun : Nat → Bool → Chars → Option (List Nat × Bool × Chars)
  | 0, _, _ => none
  | _, _, [] => some ([], false, [])
  | n + 1, first, '\\' :: cs =>
    match cs with
    | 'u' :: digits => do
      let (code, rest) ← unicodeEscape digits
      let c := Char.ofNat code
      let fits := if first then Text.isIdentStart c else Text.isIdentPart c
      if !fits || c.toNat != code then none
      else (identRun n false rest).map fun (more, _, rest) => (code :: more, true, rest)
    | _ => none
  | n + 1, _, c :: cs =>
    if Text.isIdentPart c then
      (identRun n false cs).map fun (more, escaped, rest) => (c.toNat :: more, escaped, rest)
    else some ([], false, c :: cs)

/-! ## Scanning -/

/-- The punctuators, longest first among those that share a beginning. -/
def punctuators : List String := [
  "...", ">>>=", ">>>", ">>=", "<<=", "===", "!==", "**=", "=>", "==", "!=", "<=", ">=", "&&", "||",
  "??", "++", "--", "+=", "-=", "*=", "/=", "%=", "&=", "|=", "^=", "<<", ">>", "**",
  "\x7b", "\x7d", "(",
  ")", "[", "]", ";", ",", "<", ">", "+", "-", "*", "/", "%", "&", "|", "^", "!", "~",
  "?", ":", "=", "."]

def dropLead : Chars → Chars → Option Chars
  | [], cs => some cs
  | p :: ps, c :: cs => if p == c then dropLead ps cs else none
  | _ :: _, [] => none

def punctuator? (cs : Chars) : Option (String × Chars) :=
  match cs with
  | '?' :: '.' :: rest =>
    if (rest.head?.map Char.isDigit).getD false then some ("?", '.' :: rest) else some ("?.", rest)
  | '.' :: '.' :: rest => match rest with
    | '.' :: more => some ("...", more)
    | _ => none
  | _ => punctuators.findSome? fun p => (dropLead p.toList cs).map (p, ·)

/-- Punctuators after which the end of the line can end a statement. -/
def endsOperand : List String := [")", "]", "\x7d", "++", "--", "/", "/="]

/-- A token with its place: the byte offset of its first character, what follows it, whether a line
end in front of it can end a statement, and whether one behind it can. -/
structure Lexeme where
  token : Token
  start : Nat
  rest : Chars
  pos : Nat
  newline : Bool
  ends : Bool

def span (cs rest : Chars) : Nat :=
  (cs.take (cs.length - rest.length)).foldl (fun n c => n + width c) 0

def ofName (bindable : String → Bool) (codes : List Nat) (escaped : Bool) : Token :=
  let name := Text.ofUnits (codes.flatMap unitsOfCode)
  match words.find? fun (w : String) => name == Text.ofString w with
  | none => .ident name escaped
  | some w =>
    if escaped then if bindable w then .ident name true else .escapedWord name else .word w

/-- Reads one token. `ends` tells whether a line end in front can end a statement, and `bindable`
which words are identifiers here. -/
def scan (bindable : String → Bool) (ends : Bool) (pos : Nat) (cs : Chars) : Lexeme :=
  match skip ends .code false pos cs with
  | none => ⟨.illegal, pos, [], pos, false, false⟩
  | some (newline, start, cs) =>
    let ends := ends && !newline
    let bad : Lexeme := ⟨.illegal, start, [], start, newline, false⟩
    let found (t : Token) (rest : Chars) (ends : Bool) : Lexeme :=
      ⟨t, start, rest, start + span cs rest, newline, ends⟩
    match cs with
    | [] => ⟨.eof, start, [], start, newline || ends, false⟩
    | c :: tail =>
      if Text.isIdentStart c || c == '\\' then
        match identRun (cs.length + 1) true cs with
        | none => bad
        | some (codes, escaped, rest) =>
          match ofName bindable codes escaped with
          | .word "async" =>
            let lineFollows := match rest.dropWhile (fun c => isSpace c && !isLineEnd c) with
              | c :: _ => isLineEnd c
              | [] => false
            if lineFollows then found (.ident "async" false) rest true
            else found (.word "async") rest ends
          | .word w => found (.word w) rest (endsStatement.contains w || ends)
          | t => found t rest true
      else if c.isDigit || c == '.' && (tail.head?.map Char.isDigit).getD false then
        match numberRun cs with
        | some (literal, rest) => found (.number literal) rest true
        | none => bad
      else if c == '"' || c == '\x27' then
        match stringBody c (tail.length + 1) tail with
        | some (units, rest) => found (.string (Text.ofUnits units)) rest true
        | none => bad
      else if c == '\x60' then found .backtick tail false
      else if c == '#' then
        match identRun (tail.length + 1) true tail with
        | some (code :: codes, _, rest) =>
          found (.privateName (Text.ofUnits ((code :: codes).flatMap unitsOfCode))) rest true
        | _ => bad
      else match punctuator? cs with
        | some (p, rest) =>
          if p == "=>" && newline then bad else found (.sym p) rest (endsOperand.contains p)
        | none => bad

end Token

end Bindery
