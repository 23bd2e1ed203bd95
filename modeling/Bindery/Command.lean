import Bindery.Command.Flags
import Bindery.Command.Report
import Bindery.Console
import Bindery.Manifest.Format
import Bindery.PageFile

/-!
# The command

The command compiles the bindings of a page, reads each in the view model of the page, and prints a
table of identities, values and value scripts. If the page file has no bindings, each line of the
standard input is one. The compiled bindings can be written to a manifest.

`Command.run` is the command as a function of what it can see; `Outcome` is all that it does.
-/

namespace Bindery.Command

structure Surroundings where
  args : List Text
  input : Text := ∅
  file? : Text → Option Text
  /-- A file can be written at a path. -/
  writable : Text → Bool := fun _ => true

structure Written where
  path : Text
  format : Text
  data : Text

structure Outcome where
  exit : UInt8 := 0
  output : Text := ∅
  errors : Text := ∅
  written : Option Written := none

def logLine (message : Text) : Text :=
  "bindc: " ++ (if message.endsWith "\n" then message else message ++ "\n")

def noFile (path : Text) : Text := "open " ++ path ++ ": no such file or directory"

variable (s : Surroundings)

variable (f : Flags)

def page : Except Text PageFile :=
  if f.config.isEmpty then .ok {}
  else match s.file? f.config with
    | none => .error (noFile f.config)
    | some data => match PageFile.read data with
      | .ok p => .ok (p.inFile f.config)
      | .error .malformed => .error (f.config ++ ": malformed document")
      | .error (.invalid e) => .error (f.config ++ ": " ++ e.message)

variable (p : PageFile)

def options : Options :=
  let debug := f.debug.getD p.debug
  { nullChecks := f.nullChecks.getD p.nullChecks, debug, trace := debug, failFast := f.failFast }

/-- The length from which on a line of the input is too long. -/
def maxLine : Nat := 65536

def lineBindings (t : Text) : Except Text (List BindingDecl) :=
  let lines := t.splitOn '\n'
  if lines.any fun l => maxLine ≤ l.length then .error "bufio.Scanner: token too long"
  else .ok (lines.map Text.trim |>.filter (!·.isEmpty) |>.map fun code => { code })

def withInput : Except Text PageFile :=
  if p.bindings.isEmpty then (lineBindings s.input).map fun bindings => { p with bindings }
  else .ok p

def configPath (args : List Text) : Text :=
  match ({} : Flags).parse args with
  | .ok (f, []) => f.config
  | _ => ∅

def needsInput : Bool :=
  match ({} : Flags).parse s.args with
  | .ok (f, []) => match page s f with
    | .ok p => p.bindings.isEmpty
    | .error _ => false
  | _ => false

/-! ## Values -/

/-- What special parameters stand for in the first element of a collection, or outside of any. -/
def control (collection : Option (List Value)) : Control := fun p levels =>
  match p.kind with
  | .index => if levels = 0 && collection.isSome then some (.int 0) else none
  | .collection => collection.map (.list none)
  | _ => none

def readIn (vms : List Value) (c : Option (List Value)) (r : Reader) : Except Fault Text :=
  match r.read vms (some (control c)) with
  | .ok v => .ok (Console.printed v.toValue)
  | .error (.error e) => .ok ("error: " ++ e.message)
  | .error crash => .error crash

/-- The value of a binding in the view model. A binding of a collection is read in its first
element. -/
def evaluate (b : BindingDecl) (r : Reader) : Except Fault Text :=
  let vm := Value.object none p.viewModel
  if b.collection.isEmpty then readIn [vm] none r
  else match Record.get? b.collection p.viewModel with
    | some (.list _ (first :: rest)) => readIn [first, vm] (some (first :: rest)) r
    | _ => .ok "-"

def rows (p : PageFile) : List BindingDecl → List Compiled → Except Fault (List (List Text))
  | b :: bs, r :: rs => do
    let rest ← rows p bs rs
    match r.error, r.reader with
    | none, some reader => do
      let v ← evaluate p b reader
      return [r.id, b.code, v, (r.value.map Code.text).getD "<nil>"] :: rest
    | _, _ => return rest
  | _, _ => .ok []

def report (page : Page) : Except Fault Text := do
  let rows ← rows p p.bindings page.results
  let header : List Text := ["ID", "Binding", "Value", "Script"]
  let compiled := if rows.isEmpty then ∅ else table (header :: rows)
  let errors := Text.concat (page.errors.map fun e => failure e.message)
  let done := if page.isOk then
      success ("compiled " ++ Text.ofNat page.results.length ++ " bindings of " ++ p.name)
    else ∅
  return compiled ++ errors ++ done

/-! ## The command -/

def writeManifest (c : Compiler) (p : PageFile) (page : Page) (o : Outcome) : Resolving Outcome:= do
  if f.manifest.isEmpty then return o
  let m ← ({} : Manifest).addPage c p.name page
  match m.write f.output with
  | .error e => return { o with exit := 1, errors := logLine e.message }
  | .ok data =>
    if !s.writable f.manifest then
      return { o with exit := 1, errors := logLine (noFile f.manifest) }
    else
      return { o with
        written := some ⟨f.manifest, f.output, data⟩
        output := o.output ++ success
          ("wrote " ++ Text.ofNat m.size ++ " bindings to " ++ f.manifest) }

def compile : Resolving Outcome := do
  let u ← Resolving.naming p.universe
  let root ← Resolving.naming (p.scope u)
  match withInput s p with
  | .error note => return { exit := 1, errors := logLine note }
  | .ok p =>
    let inputs ← Resolving.naming (p.inputs u root)
    let c := Compiler.standard u (options f p)
    match ← Resolving.attempt (c.compilePage false inputs) with
    | .error e => return { exit := 1, output := failure e.message }
    | .ok page => match report p page with
      | .error crash => throw crash
      | .ok output =>
        writeManifest s f c p page { exit := if page.isOk then 0 else 1, output }

def runWith : Outcome :=
  match page s f with
  | .error note => { exit := 1, errors := logLine note }
  | .ok p =>
    let (result, w) := (compile s f p).run.run {}
    let trace := Text.concat (w.trace.reverse.map logLine)
    match result with
    | .ok o => { o with errors := trace ++ o.errors }
    | .error (.error e) => { exit := 1, errors := trace ++ logLine e.message }
    | .error (.crash note) => { exit := 2, errors := trace ++ note.getD ∅ }

def run : Outcome :=
  match ({} : Flags).parse s.args with
  | .error .help => { errors := Flag.help }
  | .error (.invalid note) => { exit := 2, errors := note ++ "\n" ++ Flag.help }
  | .ok (f, []) => runWith s f
  | .ok (_, _ :: _) =>
    { exit := 2, errors := logLine "unexpected arguments; use -config to name the page file" }

end Bindery.Command
