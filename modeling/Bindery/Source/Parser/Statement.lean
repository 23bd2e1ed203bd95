import Bindery.Source.Parser.Operator

/-!
# Reading statements

Statements occur in the bodies of functions, and in sources that close the parenthesis around a
binding.
-/

namespace Bindery.Source.Grammar

open Bindery.Source.Parser

variable (g : Grammar) (c : Context)

def bindingList : Parser Unit := do
  discard (g.binding g.objectItems c)
  repeatUntil (fun _ => do
    if ← accept c "," then
      discard (g.binding g.objectItems c)
      return .inl ()
    else return .inr ()) ()

def nested : Parser Unit :=
  discard (g.statement { c with allowLet := false })

def loopBody : Parser Unit := g.nested { c with inLoop := true }

def condition : Parser Unit := do
  expectSym c "("
  discard (g.expression c)
  expectSym c ")"

def forRest : Parser Unit := do
  if ← acceptWord c "in" then
    discard (g.expression c)
    expectSym c ")"
  else if (← token) == .ident "of" false then
    advance c
    discard (g.assignment c)
    expectSym c ")"
  else
    expectSym c ";"
    if !(← at? ";") then discard (g.expression c)
    expectSym c ";"
    if !(← at? ")") then discard (g.expression c)
    expectSym c ")"

def forStatement : Parser Unit := do
  advance c
  expectSym c "("
  let head := { c with allowIn := false }
  if !(← at? ";") then
    if (← atWord? "var") || (← atWord? "const") || (← atWord? "let") then
      advance head
      g.bindingList head
    else discard (g.expression head)
  g.forRest c
  g.loopBody c

def switchStatement : Parser Unit := do
  advance c
  g.condition c
  expectSym c "\x7b"
  let c := { c with inSwitch := true, allowLet := true }
  repeatUntil (fun seenDefault => do
    if ← accept c "\x7d" then return .inr ()
    let isDefault ← acceptWord c "default"
    if isDefault && seenDefault then failure
    if !isDefault then
      expectWord c "case"
      discard (g.expression c)
    expectSym c ":"
    repeatUntil (fun _ => do
      if (← at? "\x7d") || (← atWord? "case") || (← atWord? "default") then return .inr ()
      discard (g.statement c)
      return .inl ()) ()
    return .inl (seenDefault || isDefault)) false

def tryStatement : Parser Unit := do
  advance c
  discard (g.block c)
  let caught ← acceptWord c "catch"
  if caught then
    if ← accept c "(" then
      discard (g.bindingTarget g.objectItems c)
      expectSym c ")"
    discard (g.block c)
  let finished ← acceptWord c "finally"
  if finished then discard (g.block c)
  if !caught && !finished then failure

def jump (c : Context) (isAllowed : Bool) : Parser Unit := do
  advance c
  if !(← newline) then
    match c.bound? (← token) with
    | some label =>
      if !c.labels.contains label then failure
      advance c
      endStatement c
      return
    | none => pure ()
  if !isAllowed then failure
  endStatement c

def returnStatement : Parser Statement := do
  if !c.inFunction then failure
  advance c
  let bare ← if ← newline then pure true else
    match ← token with
    | .sym s => pure (s == ";" || s == "\x7d")
    | .eof => pure true
    | _ => pure false
  let value ← if bare then pure none else some <$> g.expression c
  endStatement c
  return .returned value

def expressionStatement : Parser Statement := do
  let x ← g.expression c
  match x, ← at? ":" with
  | .ident _ label, true =>
    if c.labels.contains label then failure
    advance c
    discard (g.statement { c with labels := label :: c.labels, allowLet := false })
    return .other
  | _, _ =>
    endStatement c
    return .expression x

def anyStatement : Parser Statement := do
  let done (p : Parser Unit) : Parser Statement := do
    p
    return .other
  match ← token with
  | .eof => failure
  | .sym ";" => done (advance c)
  | .sym "\x7b" => done (discard (g.block c))
  | .word "if" => done do
    advance c
    g.condition c
    g.nested c
    if ← acceptWord c "else" then g.nested c
  | .word "do" => done do
    advance c
    g.loopBody c
    expectWord c "while"
    g.condition c
    discard (accept c ";")
  | .word "while" => done do
    advance c
    g.condition c
    g.loopBody c
  | .word "for" => done (g.forStatement c)
  | .word "break" => done (jump c (c.inLoop || c.inSwitch))
  | .word "continue" => done (jump c c.inLoop)
  | .word "debugger" => done do
    advance c
    endStatement c
  | .word "with" => done do
    advance c
    g.condition c
    g.nested c
  | .word "var" => done do
    advance c
    g.bindingList c
    endStatement c
  | .word "const" => done do
    if !c.allowLet then failure
    advance c
    g.bindingList c
    endStatement c
  | .word "let" =>
    let next ← peek c
    if next == .sym "[" || c.allowLet && (next.isName || next == .sym "\x7b") then done do
      if !c.allowLet then failure
      advance c
      g.bindingList c
      endStatement c
    else g.expressionStatement c
  | .word "function" => done (discard (g.functionLiteral c (← pos) true false))
  | .word "class" => done (discard (g.classLiteral c true))
  | .word "switch" => done (g.switchStatement c)
  | .word "return" => g.returnStatement c
  | .word "throw" => done do
    advance c
    if ← newline then failure
    discard (g.expression c)
    endStatement c
  | .word "try" => done (g.tryStatement c)
  | .word "async" =>
    match ← g.asyncFunction? c true with
    | some _ => return .other
    | none => g.expressionStatement c
  | _ => g.expressionStatement c

/-- The grammar with its productions nested at most `n` deep. -/
def within : Nat → Grammar
  | 0 => .empty
  | n + 1 =>
    let g := within n
    ⟨g.assignmentExpression, g.unaryExpression, g.powerExpression, g.relationalExpression,
      g.leftHandExpression, g.newExpression, g.anyStatement⟩

end Grammar

def program? (cs : Chars) : Option (List Statement) := do
  let c : Context := {}
  let g := Grammar.within (4 * cs.length + 16)
  let statements : Parser (List Statement) := Parser.repeatUntil (fun ss => do
    if (← Parser.token) == .eof then return .inr ss
    return .inl (ss ++ [← g.statement c])) []
  statements.run' (Token.scan c.isBindable false 0 cs)

end Bindery.Source
