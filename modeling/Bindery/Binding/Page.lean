import Bindery.Binding.Resolvers

/-!
# Pages

A page is a list of bindings that are compiled together. Their indexes among siblings are given out
in the order of the page before anything else is done, so the identities of bindings do not depend
on the order in which they are compiled. A binding that fails leaves the others as they are.
-/

namespace Bindery

structure Compiled where
  binding : Binding
  id : Text := ∅
  reader : Option Reader := none
  writer : Option Writer := none
  value : Option Code := none
  cell : Option Code := none
  error : Option Error := none

structure Task where
  result : Compiled
  steps : List (Compiled → Resolving Compiled)

structure Page where
  results : List Compiled

namespace Page

def locate (i : Nat) (e : Error) : Error := .noted ("binding " ++ Text.ofNat i) e

def errorsFrom : Nat → List Compiled → List Error
  | _, [] => []
  | i, r :: rs => match r.error with
    | some e => locate i e :: errorsFrom (i + 1) rs
    | none => errorsFrom (i + 1) rs

def errors (p : Page) : List Error := errorsFrom 0 p.results

def isOk (p : Page) : Bool := p.errors.isEmpty

end Page

namespace Compiler

open Resolving

variable (c : Compiler)

def stages : List (Compiled → Resolving Compiled) := [
  fun r => do return { r with id := (← c.getAs r.binding .id .id).getD ∅ },
  fun r => do return { r with reader := ← c.getAs r.binding .readDelegate .reader },
  fun r => do return { r with writer := (← c.getAs r.binding .writeDelegate .writer).getD none },
  fun r => do return { r with value := ← c.getAs r.binding .valueScript .code },
  fun r => do return { r with cell := ← c.getAs r.binding .cellScript .code }]

/-- A new binding of a page. If it is in a syntax tree, it gets its index among siblings. -/
def enter (i : Input) : Resolving Compiled := do
  let b ← create i
  if i.treeRoot.isEmpty then return { binding := b }
  match ← attempt (c.get b .siblingIndex) with
  | .ok _ => return { binding := b }
  | .error e => return { binding := b, error := some e }

def prepare (c : Compiler) : List Input → Resolving (List Compiled)
  | [] => return []
  | i :: is => do
    let r ← c.enter i
    return r :: (← c.prepare is)

def start (r : Compiled) : Task := ⟨r, if r.error.isSome then [] else c.stages⟩

/-- Takes one step of the binding at each of the given places, in turn. A step that fails ends the
work on its binding; what was compiled before stays. -/
def work (c : Compiler) : List Nat → List Task → Resolving (List Task)
  | [], ts => return ts
  | i :: turns, ts =>
    match ts[i]? with
    | some ⟨r, f :: fs⟩ => do
      match ← attempt (f r) with
      | .ok r => c.work turns (ts.set i ⟨r, fs⟩)
      | .error e =>
        if c.options.failFast then throw (.error (Page.locate i e))
        else c.work turns (ts.set i ⟨{ r with error := some e }, []⟩)
    | _ => c.work turns ts

def compileIn (turns : List Nat) (inputs : List Input) : Resolving Page := do
  let rs ← c.prepare inputs
  let ts ← c.work turns (rs.map c.start)
  return ⟨ts.map (·.result)⟩

def inOrder (inputs : List Input) : List Nat :=
  (List.range inputs.length).flatMap fun i => List.replicate c.stages.length i

def compilePage (cancelled : Bool) (inputs : List Input) : Resolving Page := do
  if cancelled then throw (.error (.plain "context canceled"))
  c.compileIn (c.inOrder inputs) inputs

end Compiler

end Bindery
