import Bindery.Binding.Page

/-!
# The console

A console compiles one line at a time as a binding of its scope. `Console.eval` prints the value
that the binding has in the view model and its value script, or, for a line of the form
`:Property binding`, that property.
-/

namespace Bindery

structure Console where
  compiler : Compiler
  scope : Option Scope
  viewModel : Value
  control : Option Control := none

/-- The message of an error. The source that an error was found in stands on a line of its own. -/
def Error.report (e : Error) : Text :=
  match e.diagnosis? with
  | some (p, src, note, cause) =>
    if src.isEmpty then e.message ++ "\n"
    else src ++ "\n\t" ++ (Error.diagnosis p ∅ note cause).message ++ "\n"
  | none => e.message ++ "\n"

def Location.text (l : Location) : Text :=
  let ranges := l.ranges.map fun (a, b) => "[" ++ Text.ofInt a ++ " " ++ Text.ofInt b ++ "]"
  "\x7b" ++ l.file ++ " " ++ Text.ofInt l.line ++ " [" ++ Text.join " " ranges ++ "] " ++ l.related
    ++ "\x7d"

namespace Console

def lines (ts : List Text) : Text := Text.concat (ts.map (· ++ "\n"))

def printed (v : Value) : Text := if v.isNull then "null" else v.format

def command (line : Text) : Except Error (Property × Text) :=
  match line.dropStart? ":" with
  | none => .ok (.readDelegate, line)
  | some rest =>
    let (name, source) := (rest.cut? " ").getD (rest, ∅)
    match Property.ofName? name with
    | some p => .ok (p, source.trim)
    | none => .error (.plain ("unknown property " ++ name))

def showValue (s : Console) (r : Compiled) : Resolving Text := do
  if let some e := r.error then throw (.error e)
  let some reader := r.reader | throw .misfit
  match reader.read [s.viewModel] s.control with
  | .error f => throw f
  | .ok v => return lines [printed v.toValue, (r.value.map Code.text).getD "<nil>"]

def showProperty (s : Console) (r : Compiled) (p : Property) : Resolving Text := do
  match ← s.compiler.get r.binding p with
  | .binding b =>
    let some e ← s.compiler.getAs b .parsedExpression .expr | throw .misfit
    let some code ← s.compiler.getAs b .valueScript .code | throw .misfit
    return lines [e.text, code.text]
  | .references r =>
    let main : Text := "main: " ++ (r.main.map Field.fullName).getD "<none>"
    return lines (main :: r.all.map Field.fullName)
  | .text t => return lines [t]
  | .int n => return lines [Text.ofInt n]
  | .id t => return lines [t]
  | .expr e => return lines [e.text]
  | .scope c => return lines [c.describe]
  | .type t => return lines [t.name]
  | .location l => return lines [l.text]
  | .code c => return lines [c.text]
  | a =>
    return lines [match a with | .absent => "<nil>" | .writer none => "<nil>" | _ => a.formName]

def eval (s : Console) (cancelled : Bool) (line : Text) : Resolving Text := do
  let line := line.trim
  if line.isEmpty then return ∅
  match command line with
  | .error e => throw (.error e)
  | .ok (p, source) =>
    let page ← s.compiler.compilePage cancelled [{ code := source, scope := s.scope }]
    let some r := page.results.head? | throw .misfit
    if p == .readDelegate then s.showValue r else s.showProperty r p

end Console

end Bindery
