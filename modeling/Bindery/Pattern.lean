import Bindery.Text.Utf8

/-!
# Patterns

Regular expressions: characters, classes, groups, alternatives, repetition, and the two ends of a
text. `Pattern.parse?` reads the usual notation. `Pattern.ends` gives all places where a match that
starts at a given place can end, and a text matches if some match starts somewhere in it.
-/

namespace Bindery

/-- A set of characters: those in one of the ranges, or all others. -/
structure CharClass where
  ranges : List (Char × Char)
  negated : Bool := false

namespace CharClass

def has (k : CharClass) (c : Char) : Bool :=
  (k.ranges.any fun (lo, hi) => lo ≤ c && c ≤ hi) != k.negated

def single (c : Char) : CharClass := ⟨[(c, c)], false⟩

def dot : CharClass := ⟨[('\n', '\n')], true⟩

def digits : List (Char × Char) := [('0', '9')]
def wordChars : List (Char × Char) := [('0', '9'), ('A', 'Z'), ('_', '_'), ('a', 'z')]
def spaces : List (Char × Char) := [('\t', '\n'), ('\x0c', '\r'), (' ', ' ')]

def ofLetter? : Char → Option CharClass
  | 'd' => some ⟨digits, false⟩
  | 'D' => some ⟨digits, true⟩
  | 'w' => some ⟨wordChars, false⟩
  | 'W' => some ⟨wordChars, true⟩
  | 's' => some ⟨spaces, false⟩
  | 'S' => some ⟨spaces, true⟩
  | _ => none

end CharClass

inductive Pattern where
  | empty
  | one (k : CharClass)
  | start
  | finish
  | seq (a b : Pattern)
  | alt (a b : Pattern)
  | star (a : Pattern)

namespace Pattern

/-! ## Matching -/

def reach (step : Nat → List Nat) : Nat → List Nat → List Nat
  | 0, seen => seen
  | n + 1, seen => reach step n (seen ++ seen.flatMap step).eraseDups

/-- The places in `s` where a match that starts at a place can end. -/
def ends (s : Array Char) : Pattern → Nat → List Nat
  | .empty, i => [i]
  | .one k, i => match s[i]? with
    | some c => if k.has c then [i + 1] else []
    | none => []
  | .start, i => if i = 0 then [i] else []
  | .finish, i => if i = s.size then [i] else []
  | .seq a b, i => ((a.ends s i).flatMap (b.ends s)).eraseDups
  | .alt a b, i => (a.ends s i ++ b.ends s i).eraseDups
  | .star a, i => reach (a.ends s) s.size [i]

def occursIn (p : Pattern) (t : Text) : Bool :=
  let s := t.chars.toArray
  (List.range (s.size + 1)).any fun i => !(p.ends s i).isEmpty

/-! ## Notation -/

def plus (a : Pattern) : Pattern := .seq a (.star a)

def optional (a : Pattern) : Pattern := .alt a .empty

def times (a : Pattern) : Nat → Pattern → Pattern
  | 0, rest => rest
  | n + 1, rest => .seq a (times a n rest)

def upTo (a : Pattern) : Nat → Pattern
  | 0 => .empty
  | n + 1 => optional (.seq a (upTo a n))

def control? : Char → Option Char
  | 'a' => some '\x07'
  | 'f' => some '\x0c'
  | 'n' => some '\n'
  | 'r' => some '\r'
  | 't' => some '\t'
  | 'v' => some '\x0b'
  | _ => none

def escaped? (c : Char) : Option Char :=
  if c.toNat < 0x80 && !c.isAlphanum then some c else control? c

def classChar? : Chars → Option (Char × Chars)
  | '\\' :: c :: rest => (escaped? c).map fun c => (c, rest)
  | '\\' :: [] => none
  | c :: rest => some (c, rest)
  | [] => none

/-- The ranges of a class, up to the bracket that closes it. A bracket in the first place is a
character of the class. -/
def ranges : Nat → Bool → Chars → Option (List (Char × Char) × Chars)
  | 0, _, _ => none
  | n + 1, first, cs =>
    match cs with
    | [] => none
    | ']' :: rest => if first then range n cs else some ([], rest)
    | '\\' :: c :: rest =>
      match CharClass.ofLetter? c with
      | some ⟨rs, false⟩ => do
        let (more, rest) ← ranges n false rest
        return (rs ++ more, rest)
      | some ⟨_, true⟩ => none
      | none => range n cs
    | _ => range n cs
where
  range (n : Nat) (cs : Chars) : Option (List (Char × Char) × Chars) := do
    let (lo, rest) ← classChar? cs
    let (hi, rest) ← match rest with
      | '-' :: ']' :: _ => some (lo, rest)
      | '-' :: rest => classChar? rest
      | _ => some (lo, rest)
    if hi < lo then none
    else do
      let (more, rest) ← ranges n false rest
      return ((lo, hi) :: more, rest)

def charClass? (cs : Chars) : Option (CharClass × Chars) :=
  let (negated, body) := match cs with
    | '^' :: rest => (true, rest)
    | _ => (false, cs)
  (ranges (body.length + 1) true body).map fun (rs, rest) => (⟨rs, negated⟩, rest)

def maxCount : Nat := 1000

def count? (cs : Chars) : Option (Nat × Chars) :=
  let ds := cs.takeWhile Char.isDigit
  if ds.isEmpty then none
  else some (ds.foldl (fun n d => n * 10 + (d.toNat - '0'.toNat)) 0, cs.dropWhile Char.isDigit)

/-- The least and the greatest count of `{n}`, `{n,}` or `{n,m}`, without the brace that opens
it. -/
def counts? (cs : Chars) : Option ((Nat × Option Nat) × Chars) := do
  let (lo, rest) ← count? cs
  match rest with
  | '\x7d' :: rest => some ((lo, some lo), rest)
  | ',' :: '\x7d' :: rest => some ((lo, none), rest)
  | ',' :: rest =>
    let (hi, rest) ← count? rest
    match rest with
    | '\x7d' :: rest => some ((lo, some hi), rest)
    | _ => none
  | _ => none

/-- How often the pattern before is repeated, if a repetition follows: at least so often, and at
most so often if there is a bound. -/
def repetition? : Chars → Option ((Nat × Option Nat) × Chars)
  | '*' :: rest => some ((0, none), rest)
  | '+' :: rest => some ((1, none), rest)
  | '?' :: rest => some ((0, some 1), rest)
  | '\x7b' :: rest => counts? rest
  | _ => none

/-- The pattern with the repetition that follows it. A mark of reluctance changes nothing. A second
repetition is an error. -/
def repeated (a : Pattern) (cs : Chars) : Option (Pattern × Chars) :=
  match repetition? cs with
  | none => some (a, cs)
  | some ((lo, hi), rest) =>
    let rest := match rest with
      | '?' :: rest => rest
      | _ => rest
    if (repetition? rest).isSome || lo > maxCount then none
    else match hi with
      | none => some (a.times lo (.star a), rest)
      | some hi => if hi < lo || hi > maxCount then none
        else some (a.times lo (a.upTo (hi - lo)), rest)

mutual

def alternatives : Nat → Chars → Option (Pattern × Chars)
  | 0, _ => none
  | n + 1, cs => do
    let (a, rest) ← sequence n cs
    match rest with
    | '|' :: rest =>
      let (b, rest) ← alternatives n rest
      return (.alt a b, rest)
    | _ => return (a, rest)

def sequence : Nat → Chars → Option (Pattern × Chars)
  | 0, _ => none
  | n + 1, cs =>
    match cs with
    | [] => some (.empty, cs)
    | '|' :: _ => some (.empty, cs)
    | ')' :: _ => some (.empty, cs)
    | _ => do
      let (a, rest) ← atom n cs
      let (a, rest) ← a.repeated rest
      let (b, rest) ← sequence n rest
      return (.seq a b, rest)

def atom : Nat → Chars → Option (Pattern × Chars)
  | 0, _ => none
  | n + 1, cs =>
    match cs with
    | '(' :: '?' :: ':' :: rest => group n rest
    | '(' :: '?' :: _ => none
    | '(' :: rest => group n rest
    | '[' :: rest => (charClass? rest).map fun (k, rest) => (.one k, rest)
    | '.' :: rest => some (.one .dot, rest)
    | '^' :: rest => some (.start, rest)
    | '$' :: rest => some (.finish, rest)
    | '\\' :: 'A' :: rest => some (.start, rest)
    | '\\' :: 'z' :: rest => some (.finish, rest)
    | '\\' :: c :: rest => match CharClass.ofLetter? c, escaped? c with
      | some k, _ => some (.one k, rest)
      | none, some c => some (.one (.single c), rest)
      | none, none => none
    | '\\' :: [] => none
    | '*' :: _ => none
    | '+' :: _ => none
    | '?' :: _ => none
    | '\x7b' :: rest => if (counts? rest).isSome then none else some (.one (.single '\x7b'), rest)
    | c :: rest => some (.one (.single c), rest)
    | [] => none

def group : Nat → Chars → Option (Pattern × Chars)
  | 0, _ => none
  | n + 1, cs => do
    let (a, rest) ← alternatives n cs
    match rest with
    | ')' :: rest => return (a, rest)
    | _ => none

end

def parse? (t : Text) : Option Pattern :=
  if !t.isUtf8 then none
  else
    let cs := t.chars
    match alternatives (4 * cs.length + 4) cs with
    | some (p, []) => some p
    | _ => none

end Pattern

end Bindery
