import Bindery.Source.Parser.Function

/-!
# Reading operators and operands

Two rules depend on whether an operand begins with a parenthesis rather than on its being in
parentheses: an operand of `??` may be a conjunction only if it does, and so may the base of a power
be a unary operation.
-/

namespace Bindery.Source.Grammar

open Bindery.Source.Parser

variable (g : Grammar) (c : Context)

def template (tagged : Bool) : Parser Tree := do
  let start ← pos
  repeatUntil (fun _ => do
    let l ← get
    match Token.templateRun tagged (l.rest.length + 1) l.rest with
    | none => failure
    | some (finished, rest) =>
      set { l with rest, pos := l.pos + Token.span l.rest rest, ends := finished }
      advance c
      if finished then return .inr ()
      discard (g.expression c)
      if !(← at? "\x7d") then failure
      return .inl ()) ()
  return .other .template (some start)

def regex (c : Context) : Parser Tree := do
  let l ← get
  match Token.regexBody false l.rest with
  | none => failure
  | some rest =>
    set { l with rest, pos := l.pos + Token.span l.rest rest, ends := true }
    let flagsFollow := match rest with
      | x :: _ => !Token.isSpace x
      | [] => true
    advance c
    if flagsFollow then
      match ← token with
      | .ident .. => advance c
      | _ => pure ()
    return .other .regex (some l.start)

def arguments : Parser (List Tree) := do
  expectSym c "("
  commaList (do if ← accept c "..." then Tree.spread <$> g.assignment c else g.assignment c) c ")"

def dotMember (c : Context) (x : Tree) : Parser Tree := do
  advance c
  match ← token with
  | .privateName _ =>
    advance c
    return .other .privateMember x.offset?
  | .ident name _ => advance c; return .dot x name
  | .word w => advance c; return .dot x w
  | .escapedWord name => advance c; return .dot x name
  | _ => failure

def bracketMember (x : Tree) : Parser Tree := do
  expectSym c "["
  let key ← g.expression c
  expectSym c "]"
  return .index x key

def parenthesized : Parser Tree := do
  expectSym c "("
  let x ← g.expression c
  expectSym c ")"
  return x

def superMember : Parser Tree := do
  let x := Tree.other .super (some (← pos))
  advance c
  match ← token with
  | .sym "." =>
    advance c
    match ← token with
    | .ident name _ => advance c; return .dot x name
    | .word w => advance c; return .dot x w
    | .escapedWord name => advance c; return .dot x name
    | _ => failure
  | .sym "[" => g.bracketMember c x
  | .sym "(" => return .call x (← g.arguments c)
  | _ => failure

def primary : Parser Tree := do
  let start ← pos
  match ← token with
  | .ident name _ => advance c; return .ident start name
  | .string t => advance c; return .string start t
  | .number literal =>
    match Numeral.ofLiteral? literal with
    | some n => advance c; return .number start n
    | none => failure
  | .backtick => g.template c false
  | .sym "/" => regex c
  | .sym "/=" => regex c
  | .sym "\x7b" => return .object start (← g.objectItems c)
  | .sym "[" => return .array start (← g.arrayItems c)
  | .sym "(" => g.parenthesized c
  | .word "null" => advance c; return .null start
  | .word "true" => advance c; return .bool start true
  | .word "false" => advance c; return .bool start false
  | .word "this" => advance c; return .other .this (some start)
  | .word "super" => g.superMember c
  | .word "function" => g.functionLiteral c start false false
  | .word "class" => g.classLiteral c false
  | .word w =>
    let async? ← if w == "async" then g.asyncFunction? c false else pure none
    match async? with
    | some f => return f
    | none =>
      if c.isBindable w then
        advance c
        return .ident start w
      else failure
  | _ => failure

def newExpression : Parser Tree := do
  let start ← pos
  expectWord c "new"
  if ← accept c "." then
    match ← token with
    | .ident "target" false =>
      advance c
      return .other .metaProperty none
    | _ => failure
  let callee ← if ← atWord? "new" then g.construction c else g.primary c
  let callee ← repeatUntil (fun x => do
    match ← token with
    | .sym "." => return .inl (← dotMember c x)
    | .sym "[" => return .inl (← g.bracketMember c x)
    | .backtick => return .inl (← g.template c true)
    | _ => return .inr x) callee
  let args ← if ← at? "(" then g.arguments c else pure []
  return .construct start callee args

def leftHandExpression : Parser Tree := do
  let c := { c with allowIn := true }
  let x ← if ← atWord? "new" then g.newExpression c else g.primary c
  let (x, isChain) ← repeatUntil (fun (x, isChain) => do
    match ← token with
    | .sym "." => return .inl (← dotMember c x, isChain)
    | .sym "[" => return .inl (← g.bracketMember c x, isChain)
    | .sym "(" => return .inl (.call x (← g.arguments c), isChain)
    | .backtick => if isChain then failure else return .inl (← g.template c true, false)
    | .sym "?." =>
      let next ← peek c
      if next == .sym "[" || next == .sym "(" || next == .backtick then
        advance c
        return .inl (x, true)
      else return .inl (← dotMember c x, true)
    | _ => return .inr (x, isChain)) (x, false)
  return if isChain then .other .optionalChain x.offset? else x

def postfixExpression : Parser Tree := do
  let x ← g.leftHandExpression c
  match ← token with
  | .sym op =>
    if (op == "++" || op == "--") && !(← newline) then
      if !x.isReference then failure
      advance c
      return .postfixOp op x
    else return x
  | _ => return x

def unaryExpression : Parser Tree := do
  let start ← pos
  let operation (op : String) : Parser Tree := do
    advance c
    return .unary start op (← g.unary c)
  match ← token with
  | .sym op =>
    if op == "+" || op == "-" || op == "!" || op == "~" then operation op
    else if op == "++" || op == "--" then
      advance c
      let x ← g.unary c
      if x.isReference then return .unary start op x else failure
    else g.postfixExpression c
  | .word w =>
    if w == "delete" || w == "void" || w == "typeof" then operation w
    else if w == "await" && c.allowAwait then
      advance c
      if !c.inAsync then failure
      discard (g.unary c)
      return .other .await (some start)
    else g.postfixExpression c
  | _ => g.postfixExpression c

def powerExpression : Parser Tree := do
  let opens ← at? "("
  let x ← g.unaryExpression c
  if ← at? "**" then
    match x with
    | .unary _ op _ => if !opens && op != "++" && op != "--" then failure
    | _ => pure ()
    repeatUntil (fun x => do
      if ← accept c "**" then return .inl (.binary "**" x (← g.power c)) else return .inr x) x
  else return x

def leftGrouped (operand : Parser Tree) (c : Context) (ops : List String) : Parser Tree := do
  let x ← operand
  repeatUntil (fun x => do
    match ← token with
    | .sym op =>
      if ops.contains op then
        advance c
        return .inl (.binary op x (← operand))
      else return .inr x
    | _ => return .inr x) x

def productExpression : Parser Tree :=
  leftGrouped (g.powerExpression c) c ["*", "/", "%"]

def sumExpression : Parser Tree :=
  leftGrouped (g.productExpression c) c ["+", "-"]

def shiftExpression : Parser Tree :=
  leftGrouped (g.sumExpression c) c ["<<", ">>", ">>>"]

def relationalExpression : Parser Tree := do
  let start ← pos
  match c.allowIn, ← token with
  | true, .privateName _ =>
    advance c
    let x := Tree.other .privateName (some start)
    if ← acceptWord c "in" then return .binary "in" x (← g.shiftExpression c) else return x
  | _, _ =>
    let x ← g.shiftExpression c
    let inside := { c with allowIn := true }
    match ← token with
    | .sym op =>
      if op == "<" || op == "<=" || op == ">" || op == ">=" then
        advance inside
        return .binary op x (← g.relational inside)
      else return x
    | .word op =>
      if op == "instanceof" || op == "in" && c.allowIn then
        advance inside
        return .binary op x (← g.relational inside)
      else return x
    | _ => return x

def equalityExpression : Parser Tree :=
  leftGrouped (g.relationalExpression c) c ["==", "!=", "===", "!=="]

def bitExpression : Parser Tree :=
  leftGrouped (leftGrouped (leftGrouped (g.equalityExpression c) c ["&"]) c ["^"]) c ["|"]

def conjunction : Parser Tree :=
  leftGrouped (g.bitExpression c) c ["&&"]

def isConjunction : Tree → Bool
  | .binary "&&" _ _ => true
  | _ => false

/-- Disjunctions, or `??` between operands, which do not mix. -/
def disjunction : Parser Tree := do
  let opens ← at? "("
  let x ← g.conjunction c
  if (← at? "||") || !opens && isConjunction x then
    let x ← repeatUntil (fun x => do
      if ← accept c "||" then return .inl (.binary "||" x (← g.conjunction c))
      else return .inr x) x
    if ← at? "??" then failure else return x
  else
    let x ← repeatUntil (fun x => do
      if ← accept c "??" then
        let opens ← at? "("
        let y ← g.conjunction c
        if !opens && isConjunction y then failure
        return .inl (.binary "??" x y)
      else return .inr x) x
    if ← at? "||" then failure else return x

def conditional : Parser Tree := do
  let x ← g.disjunction c
  if ← accept c "?" then
    let t ← g.assignment { c with allowIn := true }
    expectSym c ":"
    return .cond x t (← g.assignment c)
  else return x

def assignmentOperators : List String :=
  ["=", "+=", "-=", "*=", "**=", "/=", "%=", "&=", "|=", "^=", "<<=", ">>=", ">>>="]

/-- The parameters that the left side of an arrow stands for without being read again. -/
def arrowParams? : Tree → Option ParamList
  | .ident _ name => some ⟨[some name], false⟩
  | .sequence xs => (xs.mapM Tree.asParam?).map (⟨·, false⟩)
  | _ => none

def parenthesizedArrow (start : Nat) (isAsync : Bool) : Parser Tree := do
  if isAsync then advance c
  let params ← g.paramList g.objectItems
    (if isAsync then { c with allowAwait := true } else c)
  g.arrowFunction c start params isAsync

def plainArrow (start : Nat) (isAsync : Bool) : Parser Tree := do
  let name ← bindingName (if isAsync then { c with allowAwait := true } else c)
  g.arrowFunction c start ⟨[some name], false⟩ isAsync

def assignmentRest (opens : Bool) (x : Tree) : Parser Tree := do
  match ← token with
  | .sym op =>
    if assignmentOperators.contains op then
      let fits := x.isReference || match x with
        | .array .. => !opens && op == "=" && x.isPattern Tree.isReference
        | .object .. => !opens && op == "=" && x.isPattern Tree.isReference
        | _ => false
      if !fits then failure
      advance c
      return .assign op x (← g.assignment c)
    else return x
  | _ => return x

def yieldExpression : Parser Tree := do
  let start ← pos
  advance c
  let ends := match ← token with
    | .sym s => [")", "]", "\x7d", ",", ";", ":"].contains s
    | .eof => true
    | _ => false
  if !(← newline) then
    if ← accept c "*" then discard (g.assignment c)
    else if !ends then discard (g.assignment c)
  return .other .yield (some start)

def assignmentExpression : Parser Tree := do
  let start ← pos
  let first ← token
  let before ← get
  let next ← peek c
  let bindsNext := (c.bound? next).isSome
  if first == .word "async" && bindsNext then
    advance c
    g.plainArrow c start true
  else if first == .word "yield" && c.allowYield then g.yieldExpression c
  else if (c.bound? first).isSome && next == .sym "=>" then g.plainArrow c start false
  else
    let opens := first == .sym "("
    let opensAsync := first == .word "async" && next == .sym "("
    let direct : Parser (Option Tree) := do
      let x ← g.conditional c
      if ← at? "=>" then
        match arrowParams? x with
        | some params =>
          match x with
          | .sequence _ => if !opens then failure
          | _ => pure ()
          return some (← g.arrowFunction c start params false)
        | none => return none
      else return some (← g.assignmentRest c opens x)
    match direct.run before with
    | some (some x, after) =>
      set after
      return x
    | _ =>
      if opens || opensAsync then g.parenthesizedArrow c start opensAsync else failure

end Bindery.Source.Grammar
