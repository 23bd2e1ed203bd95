import Bindery.Source.Tree

/-!
# Reading expressions: the machinery

A `Parser` looks at one token at a time and fails on the first fault. The grammar is recursive
through the productions of a `Grammar`; it is tied by a bound on the nesting depth, so a production
takes the grammar one level below as an argument.
-/

namespace Bindery.Source

structure Context where
  allowIn : Bool := true
  allowAwait : Bool := false
  allowYield : Bool := false
  inAsync : Bool := false
  inFunction : Bool := false
  inLoop : Bool := false
  inSwitch : Bool := false
  /-- A declaration is allowed as a statement. -/
  allowLet : Bool := true
  labels : List Text := []

namespace Context

/-- The word is an identifier here. -/
def isBindable (c : Context) (w : String) : Bool :=
  if w == "await" then !c.allowAwait
  else if w == "yield" then !c.allowYield
  else Token.contextual.contains w

def bound? (c : Context) : Token → Option Text
  | .ident name _ => some name
  | .word w => if c.isBindable w then some w else none
  | _ => none

def function (c : Context) (isAsync isGenerator : Bool) : Context :=
  { c with
    allowIn := true, allowAwait := isAsync, allowYield := isGenerator, inAsync := isAsync
    inFunction := true, inLoop := false, inSwitch := false, labels := [], allowLet := true }

end Context

abbrev Parser := StateT Token.Lexeme Option

namespace Parser

def token : Parser Token := return (← get).token

def pos : Parser Nat := return (← get).start

def newline : Parser Bool := return (← get).newline

variable (c : Context)

def advance : Parser Unit :=
  modify fun l => Token.scan c.isBindable l.ends l.pos l.rest

def peek : Parser Token := do
  let l ← get
  return (Token.scan c.isBindable l.ends l.pos l.rest).token

def at? (s : String) : Parser Bool := return (← token) == .sym s

def atWord? (w : String) : Parser Bool := return (← token) == .word w

def expect (t : Token) : Parser Unit := do
  if (← token) == t then advance c else failure

def expectSym (s : String) : Parser Unit := expect c (.sym s)

def expectWord (w : String) : Parser Unit := expect c (.word w)

def accept (s : String) : Parser Bool := do
  if ← at? s then
    advance c
    return true
  else return false

def acceptWord (w : String) : Parser Bool := do
  if ← atWord? w then
    advance c
    return true
  else return false

def iterate {α β : Type} (step : α → Parser (α ⊕ β)) : Nat → α → Parser β
  | 0, _ => failure
  | n + 1, a => do
    match ← step a with
    | .inl a' => iterate step n a'
    | .inr b => return b

/-- Repeats a step until it gives a result. Every step but the last reads a token. -/
def repeatUntil {α β : Type} (step : α → Parser (α ⊕ β)) (a : α) : Parser β := do
  iterate step ((← get).rest.length + 2) a

def endStatement : Parser Unit := do
  if ← accept c ";" then return
  if ← newline then return
  match ← token with
  | .eof => return
  | .sym "\x7d" => return
  | _ => failure

def bindingName : Parser Text := do
  match c.bound? (← token) with
  | some name =>
    advance c
    return name
  | none => failure

end Parser

inductive Statement where
  | expression (t : Tree)
  | returned (t : Option Tree)
  | other

structure Grammar where
  assignment : Context → Parser Tree
  unary : Context → Parser Tree
  power : Context → Parser Tree
  relational : Context → Parser Tree
  leftHand : Context → Parser Tree
  construction : Context → Parser Tree
  statement : Context → Parser Statement

def Grammar.empty : Grammar :=
  ⟨fun _ => failure, fun _ => failure, fun _ => failure, fun _ => failure, fun _ => failure,
    fun _ => failure, fun _ => failure⟩

namespace Grammar

open Bindery.Source.Parser

def expression (g : Grammar) (c : Context) : Parser Tree := do
  let x ← g.assignment c
  if ← at? "," then
    let rest ← repeatUntil (fun xs => do
      if ← accept c "," then return .inl (xs ++ [← g.assignment c]) else return .inr xs) []
    return .sequence (x :: rest)
  else return x

/-- Items with commas between them, up to a closing punctuator, which is read too. A comma may stand
after the last item. -/
def commaList {α : Type} (item : Parser α) (c : Context) (close : String) : Parser (List α) :=
  repeatUntil (fun xs => do
    if ← accept c close then return .inr xs
    let x ← item
    if ← accept c close then return .inr (xs ++ [x])
    expectSym c ","
    return .inl (xs ++ [x])) []

end Grammar

end Bindery.Source
