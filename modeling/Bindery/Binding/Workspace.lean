import Bindery.Binding.Artifact
import Bindery.Identity
import Bindery.Script.Registry
import Bindery.Source.Binder

/-!
# Bindings and how their properties are computed

A `Workspace` holds bindings; each is the memory of the properties that are known of it. What is not
known is computed by the resolver of the property from other properties, once: value or error stay.
Only a failure for lack of an order to compute properties in does not stay.

`Compiler.get` is the computation. It stops, since properties that wait for each other are distinct.
-/

namespace Bindery

structure Options where
  nullChecks : Bool := false
  /-- Scripts are spaced for reading. -/
  debug : Bool := false
  failFast : Bool := false
  trace : Bool := false
  registry : Registry := .standard

abbrev Memo := List (Property × Except Error Artifact)

structure Workspace where
  memos : Array Memo := #[]
  siblings : Siblings := {}
  names : Source.Session := {}
  trace : List Text := []

/-- A step on bindings. What it leaves behind stays when it fails. -/
abbrev Resolving := ExceptT Fault (StateM Workspace)

/-- How a property is computed: from other properties that are needed, and from others that may be
missing. A resolver without a function computes nothing. -/
structure Resolver where
  deps : List Property := []
  optional : List Property := []
  /-- The function gets the binding, a way to ask for its data context, and the properties. -/
  run : Option (Binding → Resolving Artifact → List Artifact → Resolving Artifact) := none

structure Compiler where
  options : Options := {}
  types : Universe
  resolvers : List (Property × Resolver)

namespace Compiler

def resolver? (c : Compiler) (p : Property) : Option Resolver := c.resolvers.lookup p

def setResolver (c : Compiler) (p : Property) (r : Option Resolver) : Compiler :=
  let others := c.resolvers.filter fun e => e.1 != p
  { c with resolvers := match r with
      | some r => (p, r) :: others
      | none => others }

end Compiler

namespace Workspace

variable (w : Workspace)

variable (b : Binding)

def memo : Memo := w.memos.getD b.number []

def known? (p : Property) : Option (Except Error Artifact) :=
  (w.memo b).lookup p

def value? (p : Property) : Option Artifact :=
  match w.known? b p with
  | some (.ok v) => some v
  | _ => none

def record (p : Property) (v : Except Error Artifact) : Workspace :=
  { w with memos := w.memos.modify b.number fun m => (p, v) :: m }

def add (m : Memo) : Binding × Workspace :=
  (⟨w.memos.size⟩, { w with memos := w.memos.push m })

/-- How trace lines name a binding: by its source, else by its expression. -/
def describe : Text :=
  match w.value? b .originalString with
  | some src => " of " ++ src.quoted
  | none => match w.value? b .parsedExpression with
    | some (.expr e) => " of " ++ e.text
    | some .absent => " of %!s(<nil>)"
    | some a => " of " ++ a.quoted
    | none => ∅

def annotate (e : Error) : Fault :=
  let source := match w.value? b .originalString with
    | some (.text t) => t
    | _ => ∅
  let attach (source : Text) : Fault :=
    if e.diagnosis?.isSome then .error (e.withSource source (.other 0))
    else if source.isEmpty then .error e
    else .error (.noted source e)
  if !source.isEmpty then attach source
  else match w.value? b .parsedExpression with
    | some (.expr x) => attach x.text
    | some _ => .misfit
    | none => attach ∅

end Workspace

namespace Resolving

def known? (b : Binding) (p : Property) : Resolving (Option (Except Error Artifact)) :=
  return (← get).known? b p

def attempt {α : Type} (step : Resolving α) : Resolving (Except Error α) :=
  tryCatch (Except.ok <$> step) fun
    | .error e => return .error e
    | crash => throw crash

def naming {α : Type} (step : Source.Binder α) : Resolving α := do
  let w ← get
  let (result, names) := step.run.run w.names
  set { w with names }
  match result with
  | .ok a => return a
  | .error e => throw (.error e)

def traceLine (line : Text) : Resolving Unit :=
  modify fun w => { w with trace := line :: w.trace }

/-- Records the outcome of a property unless it is known by now. A failure for lack of an order is
not recorded. -/
def settle (b : Binding) (p : Property) (outcome : Except Error Artifact) : Resolving Artifact := do
  let w ← get
  let result ← match w.known? b p with
    | some known => pure known
    | none =>
      match outcome with
      | .error e => if !e.isProblem .cycle then set (w.record b p outcome)
      | .ok _ => set (w.record b p outcome)
      pure outcome
  match result with
  | .ok v => return v
  | .error e => throw (.error e)

end Resolving

namespace Compiler

open Resolving

/-- The error of a property that waits for itself. `chain` holds the properties that wait, latest
first. -/
def cycleError (chain : List Property) (p : Property) : Error :=
  let cycle := (chain.takeWhile (· != p)).reverse
  .of .cycle (Text.join " -> " ((p :: cycle ++ [p]).map Property.name))

def required (ask : Property → Resolving Artifact) : List Property → Resolving (List Artifact)
  | [] => return []
  | p :: ps => do
    let v ← ask p
    return v :: (← required ask ps)

def optional (ask : Property → Resolving Artifact) : List Property → Resolving (List Artifact)
  | [] => return []
  | p :: ps => do
    let v ← match ← attempt (ask p) with
      | .ok v => pure v
      | .error e => if e.isProblem .cycle then throw (.error e) else pure .absent
    return v :: (← optional ask ps)

/-- A property of a binding, computed with at most `n` properties that wait for each other. -/
def getWithin (c : Compiler) (b : Binding) : Nat → List Property → Property → Resolving Artifact
  | 0, _, _ => throw .misfit
  | n + 1, chain, p => do
    match ← known? b p with
    | some (.ok v) => return v
    | some (.error e) => throw (.error e)
    | none =>
      if chain.contains p then throw (.error (cycleError chain p))
      let some r := c.resolver? p | throw (.error (unresolved p))
      let some run := r.run | throw (.error (unresolved p))
      if c.options.trace then traceLine ("resolving " ++ p.name ++ (← get).describe b)
      let ask := c.getWithin b n (p :: chain)
      let outcome ← attempt do
        let needed ← required ask r.deps
        let others ← optional ask r.optional
        run b (c.getWithin b n [] .dataContext) (needed ++ others)
      settle b p outcome
where
  unresolved (p : Property) : Error := .of .unresolved ("no resolver for " ++ p.name)

def get (c : Compiler) (b : Binding) (p : Property) : Resolving Artifact := do
  match ← attempt (c.getWithin b (Property.all.length + 1) [] p) with
  | .ok v => return v
  | .error e => throw ((← getThe Workspace).annotate b e)

/-- A property of a binding as a value of the expected kind. An absent one is of every kind. -/
def getAs {α : Type} (c : Compiler) (b : Binding) (p : Property) (kind : Expected α) :
    Resolving (Option α) := do
  match ← c.get b p with
  | .absent => return none
  | v => match kind.match? v with
    | some a => return some a
    | none => throw (.error (.plain (p.name ++ " is " ++ v.formName ++ ", not " ++ kind.name)))

def has (b : Binding) (p : Property) : Resolving Bool := return (← known? b p).isSome

end Compiler

structure Input where
  code : Text := ∅
  expr : Option Expr := none
  scope : Option Scope := none
  expectedType : Option Ty := none
  /-- The full name of the property that declares the binding. -/
  property : Text := ∅
  treeRoot : Text := ∅
  location : Option Location := none

def Memo.text (p : Property) (t : Text) : Memo := if t.isEmpty then [] else [(p, .ok (.text t))]

def Memo.seed {α : Type} (p : Property) (f : α → Artifact) : Option α → Memo
  | some a => [(p, .ok (f a))]
  | none => []

namespace Input

open Memo in
def memo (i : Input) : Memo :=
  seed .dataContext .scope i.scope ++ text .originalString i.code
    ++ seed .parsedExpression .expr i.expr ++ seed .expectedType .type i.expectedType
    ++ text .declaringProperty i.property ++ text .treeRoot i.treeRoot
    ++ seed .locationInfo .location i.location

end Input

namespace Resolving

def create (i : Input) : Resolving Binding := do
  let (b, w) := (← get).add i.memo
  set w
  return b

def derive (b : Binding) (e : Expr) (scope : Option Scope) : Resolving Binding := do
  let w ← get
  let kept := [Property.declaringProperty, .treeRoot, .locationInfo].filterMap fun p =>
    (w.value? b p).map fun v => (p, Except.ok v)
  let context : Memo := match scope with
    | some s => [(.dataContext, .ok (.scope s))]
    | none => []
  let (d, w) := w.add ((.parsedExpression, .ok (.expr e)) :: context ++ kept)
  set w
  return d

end Resolving

end Bindery
