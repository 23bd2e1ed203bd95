import Bindery.Source.Parser.Core

/-!
# Reading functions and classes
-/

namespace Bindery.Source.Grammar

open Bindery.Source.Parser

variable (g : Grammar) (items : Context → Parser (List ObjectItem)) (c : Context)

def arrayItems : Parser (List (Option Tree)) := do
  expectSym c "["
  repeatUntil (fun xs => do
    if ← accept c "]" then return .inr xs
    if ← accept c "," then return .inl (xs ++ [none])
    let x ← if ← accept c "..." then Tree.spread <$> g.assignment c else g.assignment c
    if !(← at? "]") then expectSym c ","
    return .inl (xs ++ [some x])) []

def block : Parser (List Statement) := do
  expectSym c "\x7b"
  let c := { c with allowLet := true }
  repeatUntil (fun ss => do
    if ← accept c "\x7d" then return .inr ss
    return .inl (ss ++ [← g.statement c])) []

/-- The expression that a function body returns, if that is all it does. -/
def returned? : List Statement → Option Tree
  | [.returned t] => t
  | _ => none

def functionBody (isAsync isGenerator : Bool) : Parser (Option Tree) := do
  return returned? (← g.block (c.function isAsync isGenerator))

/-- A key of a property: the token it begins with, and its text unless it is computed. -/
def propertyKey : Parser (Token × Option Text) := do
  if ← accept c "[" then
    discard (g.assignment c)
    expectSym c "]"
    return (.illegal, none)
  let t ← token
  match t with
  | .ident name _ => advance c; return (t, some name)
  | .word w => advance c; return (t, some w)
  | .escapedWord name => advance c; return (t, some name)
  | .string s => advance c; return (t, some s)
  | .privateName name => advance c; return (t, some name)
  | .number literal =>
    if (Numeral.ofLiteral? literal).isNone then failure
    advance c
    return (t, some (Text.ofChars literal))
  | _ => failure

inductive MethodKind where
  | method
  | getter
  | setter
deriving DecidableEq

/-- A pattern or name that is declared. The result is the name of a plain one. Object patterns are
read as object literals by `items`. -/
def bindingTarget : Parser (Option Text) := do
  match ← token with
  | .sym "[" =>
    if Tree.arePatterns Tree.isIdent (← g.arrayItems c) then return none else failure
  | .sym "\x7b" =>
    if Tree.arePropertyPatterns Tree.isIdent (← items c) then return none else failure
  | _ => some <$> bindingName c

/-- A declared pattern or name with an optional initial value. The result is the name of a plain one
without. -/
def binding : Parser (Option Text) := do
  let name ← g.bindingTarget items c
  if ← accept c "=" then
    discard (g.assignment c)
    return none
  else return name

def paramList : Parser ParamList := do
  expectSym c "("
  repeatUntil (fun ps => do
    if ← accept c ")" then return .inr ⟨ps, false⟩
    if ← accept c "..." then
      let rest ← g.assignment c
      if !rest.isPattern Tree.isIdent then failure
      expectSym c ")"
      return .inr ⟨ps, true⟩
    let p ← g.binding items c
    if !(← at? ")") then expectSym c ","
    return .inl (ps ++ [p])) []

def methodDefinition (kind : MethodKind) (isAsync isGenerator : Bool) : Parser Unit := do
  let inside := { c with allowYield := isGenerator, allowAwait := isAsync }
  let params ← g.paramList items inside
  match kind with
  | .method => pure ()
  | .getter => if !params.params.isEmpty || params.hasRest then failure
  | .setter => if params.params.length != 1 || params.hasRest then failure
  discard (g.functionBody c isAsync isGenerator)

def objectItem : Parser ObjectItem := do
  if ← accept c "..." then return .spread (← g.assignment c)
  let isGenerator ← accept c "*"
  let (first, key) ← g.propertyKey c
  let isPrivate := match first with | .privateName _ => true | _ => false
  if !isPrivate then
    if isGenerator then
      g.methodDefinition items c .method false true
      return .method
    match ← token with
    | .sym "(" =>
      g.methodDefinition items c .method false false
      return .method
    | .sym s =>
      if s == "," || s == "\x7d" || s == "=" then
        match c.bound? first with
        | some name =>
          if ← accept c "=" then discard (g.assignment c)
          return .short name
        | none => if s != "=" then failure
    | _ => pure ()
    if !(← at? ":") then
      let kind? := match first with
        | .ident "get" false => some (MethodKind.getter, false)
        | .ident "set" false => some (MethodKind.setter, false)
        | .word "async" => some (MethodKind.method, true)
        | _ => none
      match kind? with
      | some (kind, isAsync) =>
        discard (g.propertyKey c)
        g.methodDefinition items c kind isAsync false
        return .method
      | none => pure ()
  expectSym c ":"
  return .keyed key (← g.assignment c)

/-- The parts of an object literal, with its braces. Object patterns nest at most `n` deep. -/
def objectItemsWithin (g : Grammar) : Nat → Context → Parser (List ObjectItem)
  | 0, _ => failure
  | n + 1, c => do
    expectSym c "\x7b"
    commaList (g.objectItem (g.objectItemsWithin n) c) c "\x7d"

def objectItems : Parser (List ObjectItem) := do
  g.objectItemsWithin ((← get).rest.length + 2) c

def functionLiteral (start : Nat) (isDeclaration isAsync : Bool) : Parser Tree := do
  expectWord c "function"
  let isGenerator ← accept c "*"
  let inside := { c with allowAwait := isAsync, allowYield := isGenerator }
  let named := if isDeclaration then c else inside
  if (named.bound? (← token)).isSome then advance inside
  else if isDeclaration then failure
  let params ← g.paramList g.objectItems inside
  return .function start params (← g.functionBody c isAsync isGenerator)

def asyncFunction? (isDeclaration : Bool) : Parser (Option Tree) := do
  if (← peek c) == .word "function" then
    let start ← pos
    advance c
    return some (← g.functionLiteral c start isDeclaration true)
  else return none

def classMember : Parser Unit := do
  let next ← peek c
  let closes (ss : List String) (t : Token) : Bool :=
    match t with | .sym s => ss.contains s | _ => false
  let isStatic := (← atWord? "static") && !closes ["=", ";", "\x7d", "("] next
  if isStatic then advance c
  if isStatic && (← at? "\x7b") then
    discard (g.block { c.function false false with allowAwait := true })
    return
  let first ← token
  let opensMember := !closes [";", "("] (← peek c)
  let (kind, isAsync) := match first with
    | .ident "get" false => (if opensMember then some MethodKind.getter else none, false)
    | .ident "set" false => (if opensMember then some MethodKind.setter else none, false)
    | .word "async" => (if opensMember then some MethodKind.method else none, opensMember)
    | _ => (none, false)
  if kind.isSome then advance c
  let isGenerator ← if kind == none || kind == some .method then accept c "*" else pure false
  let kind := if isGenerator then some .method else kind
  let (keyToken, key) ← g.propertyKey c
  let isPrivate := match keyToken with | .privateName _ => true | _ => false
  if isStatic && !isPrivate && key == some "prototype" then failure
  let kind := if kind == none && (← at? "(") then some .method else kind
  let isConstructor := key == some "constructor"
  match kind with
  | some kind =>
    if isConstructor then
      if !isStatic then
        if kind != .method || isAsync || isGenerator then failure
      else if isPrivate then failure
    g.methodDefinition g.objectItems c kind isAsync isGenerator
  | none =>
    if isConstructor then failure
    if ← accept c "=" then discard (g.expression c)
    if !(← newline) && !(← at? ";") && !(← at? "\x7d") then failure

def classLiteral (isDeclaration : Bool) : Parser Tree := do
  if !c.allowLet then failure
  let start ← pos
  expectWord c "class"
  if (c.bound? (← token)).isSome then advance c
  else if isDeclaration then failure
  if !(← at? "\x7b") then
    expectWord c "extends"
    discard (g.leftHand c)
  expectSym c "\x7b"
  repeatUntil (fun _ => do
    if ← accept c "\x7d" then return .inr ()
    if ← accept c ";" then return .inl ()
    g.classMember c
    return .inl ()) ()
  return .other .classLiteral (some start)

def arrowBody (isAsync : Bool) : Parser (Option Tree) := do
  if ← at? "\x7b" then
    discard (g.block (c.function isAsync false))
    return none
  let inside :=
    if isAsync != c.inAsync || isAsync != c.allowAwait then
      { c with inAsync := isAsync, allowAwait := isAsync, allowYield := false }
    else c
  return some (← g.assignment inside)

def arrowFunction (start : Nat) (params : ParamList) (isAsync : Bool) : Parser Tree := do
  expectSym c "=>"
  return .arrow start params (← g.arrowBody c isAsync)

end Bindery.Source.Grammar
