import Bindery.Binding.Derived
import Bindery.Binding.Workspace
import Bindery.Script.Lowering
import Bindery.Script.NullChecks
import Bindery.Script.Printer
import Bindery.Script.Temporaries
import Bindery.Script.Tidy

/-!
# How properties are computed

`Compiler.standard` has a resolver for every property that is not only an input.
-/

namespace Bindery

namespace Options

def finish (o : Options) (s : Script) : Script :=
  (if o.nullChecks then s.checkNulls else s).hoist.tidy

def format (o : Options) (s : Script) : Code := (o.finish s).format o.debug

end Options

namespace Resolver

open Resolving

def pure (deps : List Property) (f : List Artifact → Except Fault Artifact) : Resolver where
  deps
  run := some fun _ _ args => liftExcept (f args)
where
  liftExcept (r : Except Fault Artifact) : Resolving Artifact :=
    match r with
    | .ok v => return v
    | .error e => throw e

def orThrow {α : Type} (r : Except Error α) : Resolving α :=
  match r with
  | .ok a => return a
  | .error e => throw (.error e)

def outcome {α : Type} (f : α → Artifact) : Except Error α → Except Fault Artifact
  | .ok a => .ok (f a)
  | .error e => .error (.error e)

def parsedExpression (u : Universe) : Resolver where
  deps := [.originalString, .dataContext]
  run := some fun _ _ args => do
    match args with
    | .text src :: .scope s :: _ =>
      match ← naming (Source.expression src s u) with
      | .typeRef t => throw (.error (Expr.typeNotValue t))
      | e => return .expr e
    | _ => throw .misfit

def expectedType : Resolver := pure [] fun _ => .ok (.type .any)

def asText : Artifact → Text
  | .text t => t
  | _ => ∅

def locationInfo : Resolver where
  optional := [.treeRoot, .declaringProperty]
  run := some fun _ _ args => do
    let root := asText (args.getD 0 .absent)
    let property := asText (args.getD 1 .absent)
    return .location { file := root, line := -1, related := property }

def resultType : Resolver := pure [.parsedExpression] fun
  | .expr e :: _ => .ok (.type e.type)
  | _ => .error .misfit

def castedExpression : Resolver := pure [.parsedExpression, .expectedType] fun
  | .expr e :: .type t :: _ => outcome .expr (e.convertTo t true)
  | _ => .error .misfit

def readDelegate : Resolver := pure [.castedExpression, .dataContext] fun
  | .expr e :: .scope s :: _ => outcome .reader (Reader.compile e s)
  | _ => .error .misfit

def writeDelegate : Resolver := pure [.parsedExpression, .dataContext] fun
  | .expr e :: .scope s :: _ => outcome .writer (Writer.compile e s)
  | _ => .error .misfit

def scriptAST (o : Options) : Resolver := pure [.castedExpression, .dataContext] fun
  | .expr e :: .scope s :: _ => .script <$> e.lower o.registry s
  | _ => .error .misfit

def resolvedScript : Resolver := pure [.scriptAST] fun
  | .script s :: _ => .ok (.resolved s.resolveCells)
  | _ => .error .misfit

def ofResolved (f : Resolved → Code) : Resolver := pure [.resolvedScript] fun
  | .resolved r :: _ => .ok (.code (f r))
  | _ => .error .misfit

/-- A function that takes the binding context and data context from an options object. -/
def optionsLambda (o : Options) (r : Resolved) : Code :=
  let body := o.finish (r.variant false)
  let code := (Script.arrow {} ["options"] body).format o.debug
  (code.assign Script.contextSlot "options.knockoutContext").assign Script.dataSlot
    "options.viewModel"

def simplePath : Resolver := pure [.scriptAST] fun
  | .script s :: _ => .ok (.code (s.format false))
  | _ => .error .misfit

def siblingIndex : Resolver where
  deps := [.dataContext]
  optional := [.treeRoot]
  run := some fun _ _ args => do
    let root := asText (args.getD 1 .absent)
    if root.isEmpty then return .int (-1)
    match args with
    | .scope s :: _ =>
      let w ← get
      let (n, siblings) := w.siblings.next root s
      set { w with siblings }
      return .int n
    | _ => throw .misfit

def identity : List Artifact → Except Fault Artifact
  | [.scope s, .int n, source, expr, location, property] => do
    let index := if 0 ≤ n then some n else none
    let code ← match source, expr with
      | .text t, _ => Except.ok t
      | _, .expr e => Except.ok e.text
      | _, _ => Except.error (Fault.error
        (.of .unresolved "binding has neither source text nor expression"))
    let related := match location with
      | .location l => l.related
      | _ => ∅
    let property := if related.isEmpty then asText property else related
    return .id ({ index, code, scope := some s, property } : Identity).compute
  | _ => .error .misfit

def id : Resolver :=
  { pure [.dataContext, .siblingIndex] identity with
    optional := [.originalString, .parsedExpression, .locationInfo, .declaringProperty] }

def contextOf (ask : Resolving Artifact) : Resolving (Option Scope) := do
  match ← attempt ask with
  | .ok (.scope s) => return some s
  | _ => return none

def derived (f : Expr → Except Error Expr) : Resolver where
  deps := [.parsedExpression]
  run := some fun b ask args => do
    match args with
    | .expr e :: _ =>
      let e' ← orThrow (f e)
      return .binding (← derive b e' (← contextOf ask))
    | _ => throw .misfit

def dataSourceAccess : Resolver where
  deps := [.parsedExpression]
  run := some fun b _ args => do
    match args with
    | .expr e :: _ =>
      if e.type.kind != .list then
        throw (.error (.of .shape
          ("cannot make a data source of " ++ e.text ++ " of type " ++ e.type.name)))
      return .binding b
    | _ => throw .misfit

def collectionElementScope : Resolver := pure [.dataContext, .resultType] fun
  | .scope s :: .type t :: _ =>
    if t.kind != .list then .error (Error.of .shape (t.name ++ " is not a collection"))
    else .ok (.scope (s.element t))
  | _ => .error .misfit

def dataSourceCurrentElement : Resolver where
  deps := [.parsedExpression, .collectionElementScope]
  run := some fun b _ args => do
    match args with
    | .expr e :: .scope s :: _ =>
      match s.findKind .index with
      | none => throw (.error (.of .shape ("no collection index in " ++ s.dataType.name)))
      | some (p, owner) =>
        let element := Expr.index e (.param p.name owner (some p)) s.dataType
        return .binding (← derive b element (some s))
    | _ => throw .misfit

def thisBinding : Resolver where
  deps := [.dataContext]
  run := some fun b _ args => do
    match args with
    | .scope s :: _ => return .binding (← derive b (.dataContext s "_this") (some s))
    | _ => throw .misfit

def referencedProperties : Resolver where
  deps := [.parsedExpression]
  run := some fun b ask args => do
    match args with
    | .expr e :: _ =>
      let some inner := e.unwrap? | throw .misfit
      let main := match inner with
        | .member _ f => some f
        | _ => none
      let unwrapped ← derive b inner (← contextOf ask)
      return .references { main, all := e.fields, unwrapped }
    | _ => throw .misfit

end Resolver

namespace Compiler

open Resolver

def standard (u : Universe) (o : Options) : Compiler where
  options := o
  types := u
  resolvers := [
    (.parsedExpression, parsedExpression u),
    (.expectedType, expectedType),
    (.locationInfo, locationInfo),
    (.resultType, resultType),
    (.castedExpression, castedExpression),
    (.readDelegate, readDelegate),
    (.writeDelegate, writeDelegate),
    (.scriptAST, scriptAST o),
    (.resolvedScript, resolvedScript),
    (.cellScript, ofResolved fun r => o.format (r.variant true)),
    (.valueScript, ofResolved fun r => o.format (r.variant false)),
    (.cellWrappedScript, ofResolved fun r => o.format r.wrapped),
    (.optionsLambdaScript, ofResolved (optionsLambda o)),
    (.simplePath, simplePath),
    (.siblingIndex, siblingIndex),
    (.id, Resolver.id),
    (.negatedBinding, derived Expr.negation),
    (.isNullBinding, derived Expr.nullTest),
    (.isNullOrEmptyBinding, derived (Expr.textTest "IsNullOrEmpty" u.catalog)),
    (.isNullOrWhitespaceBinding, derived (Expr.textTest "IsNullOrWhiteSpace" u.catalog)),
    (.isMoreThanZeroBinding, derived Expr.positiveTest),
    (.dataSourceAccess, dataSourceAccess),
    (.dataSourceLength, derived (Expr.lengthOf u.catalog)),
    (.dataSourceCurrentElement, dataSourceCurrentElement),
    (.collectionElementScope, collectionElementScope),
    (.thisBinding, thisBinding),
    (.referencedProperties, referencedProperties)]

end Compiler

end Bindery
