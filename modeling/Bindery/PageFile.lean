import Bindery.Binding.Page
import Bindery.Toml.Reader

/-!
# Page files

A page file describes a page: the classes of its view model, the view model, and its bindings. It is
a TOML document with the tables `compiler`, `types`, `page` and `bindings`; whatever else it holds
is ignored. `PageFile.universe`, `PageFile.scope` and `PageFile.inputs` are what the compiler needs.
-/

namespace Bindery

structure ClassDecl where
  name : Text := ∅
  /-- The type expressions of the fields, in the order of the names. -/
  fields : Record Text := []
  readOnly : List Text := []

structure BindingDecl where
  code : Text := ∅
  property : Text := ∅
  expectedType : Text := ∅
  /-- The field of the page data type whose elements the binding belongs to, or nothing. -/
  collection : Text := ∅

structure PageFile where
  nullChecks : Bool := true
  debug : Bool := false
  /-- How many bindings are compiled at once; zero sets no limit. -/
  workers : Int := 0
  classes : List ClassDecl := []
  name : Text := "<stdin>"
  dataType : Text := "object"
  imports : List Text := []
  viewModel : Record Value := []
  bindings : List BindingDecl := []

namespace PageFile

/-! ## Reading -/

variable (fs : Toml.Fields)

def field? (name : Text) : Option Toml :=
  (fs.lookup name).orElse fun _ => fs.lookup name.toUpper

def fieldOr {α : Type} (default : α) (decode : Toml → Option α) (fs : Toml.Fields) (name : Text) :
    Option α :=
  match field? fs name with
  | none => some default
  | some v => decode v

def asText : Toml → Option Text
  | .text t => some t
  | _ => none

def asBool : Toml → Option Bool
  | .bool b => some b
  | _ => none

def asInt : Toml → Option Int
  | .int n => some n.toInt
  | _ => none

def asFields : Toml → Option Toml.Fields
  | .table _ fs => some fs
  | _ => none

def asTexts : Toml → Option (List Text)
  | .array items => items.mapM asText
  | _ => none

def asTables {α : Type} (decode : Toml.Fields → Option α) : Toml → Option (List α)
  | .tables items => items.mapM fun t => (asFields t).bind decode
  | _ => none

def asTextFields (t : Toml) : Option (Record Text) := do
  let fs ← asFields t
  let fs ← fs.mapM fun (k, v) => (asText v).map fun t => (k, t)
  return fs.mergeSort fun a b => a.1.le b.1

def text (name : Text) : Option Text := fieldOr ∅ asText fs name

def texts (name : Text) : Option (List Text) := fieldOr [] asTexts fs name

def decodeClass : Option ClassDecl := do
  return {
    name := ← text fs "name"
    fields := ← fieldOr [] asTextFields fs "fields"
    readOnly := ← texts fs "read_only" }

def decodeBinding : Option BindingDecl := do
  return {
    code := ← text fs "code"
    property := ← text fs "property"
    expectedType := ← text fs "expected_type"
    collection := ← text fs "collection" }

def viewModelOf : Record Value :=
  match fs.lookup ("page" : Text) with
  | some (.table _ page) => match page.lookup ("view_model" : Text) with
    | some (.table _ vm) => Toml.toFields vm
    | _ => []
  | _ => []

/-- The description in a document. An empty name or data type leaves the default. -/
def decode : Option PageFile := do
  let compiler ← fieldOr [] asFields fs "compiler"
  let page ← fieldOr [] asFields fs "page"
  let given (t default : Text) : Text := if t.isEmpty then default else t
  let blank : PageFile := {}
  return {
    nullChecks := ← fieldOr true asBool compiler "null_checks"
    debug := ← fieldOr false asBool compiler "debug"
    workers := ← fieldOr 0 asInt compiler "workers"
    classes := ← fieldOr [] (asTables decodeClass) fs "types"
    name := given (← text page "name") blank.name
    dataType := given (← text page "data_type") blank.dataType
    imports := ← texts page "imports"
    viewModel := viewModelOf fs
    bindings := ← fieldOr [] (asTables decodeBinding) fs "bindings" }

def item (array : Text) (i : Nat) : Text := array ++ "[" ++ Text.ofNat i ++ "]"

variable (p : PageFile)

def fault? : Option Error :=
  if p.workers < 0 then
    some (.plain ("compiler.workers must not be negative, got " ++ Text.ofInt p.workers))
  else match p.classes.findIdx? fun c => c.name.isEmpty with
    | some i => some (.plain (item "types" i ++ " has no name"))
    | none => (p.bindings.findIdx? fun b => b.code.isEmpty).map fun i =>
        .plain (item "bindings" i ++ " has no code")

def read (t : Text) : Except ReadError PageFile :=
  match (Toml.read? t).bind decode with
  | none => .error .malformed
  | some p => match p.fault? with
    | some e => .error (.invalid e)
    | none => .ok p

def inFile (path : Text) : PageFile :=
  if p.name = ({} : PageFile).name then { p with name := path } else p

/-! ## What the compiler needs -/

open Source (Binder)

variable (u : Universe)

/-- The type of an expression, with the imports of the page. An error is noted with `place`. -/
def typeAt (place expression : Text) : Binder Ty := do
  match ← Binder.attempt (Binder.typeNamed u expression p.imports) with
  | .ok t => return t
  | .error e => throw (.noted place e)

def declareAll (u : Universe) :
    List ClassDecl → Except Error (Universe × List (Declared × ClassDecl))
  | [] => .ok (u, [])
  | c :: cs => do
    let (u, d) ← u.declare c.name false
    let (u, ds) ← declareAll u cs
    return (u, (d, c) :: ds)

def addFields (p : PageFile) (d : Declared) : Record Text → Universe → Binder Universe
  | [], u => return u
  | (name, expression) :: rest, u => do
    let type ← p.typeAt u (d.name ++ "." ++ name) expression
    p.addFields d rest (u.addField d { name, owner := .declared d, type })

def restrict (d : Declared) : List Text → Universe → Except Error Universe
  | [], u => .ok u
  | name :: rest, u =>
    if (u.catalog.find d).fields.any fun f => f.name == name then
      restrict d rest (u.modify d fun m => { m with
        fields := m.fields.map fun f => if f.name == name then { f with readOnly := true } else f })
    else .error (.plain (d.name ++ ": read-only field " ++ name ++ " is not declared"))

def addMembers (p : PageFile) : List (Declared × ClassDecl) → Universe → Binder Universe
  | [], u => return u
  | (d, c) :: rest, u => do
    let u ← p.addFields d c.fields u
    let u ← restrict d c.readOnly u
    p.addMembers rest u

def «universe» : Binder Universe := do
  let (u, ds) ← declareAll .initial p.classes
  p.addMembers ds u

def scope : Binder Scope := do
  let dataType ← p.typeAt u "page data type" p.dataType
  return ⟨{ dataType, params := [⟨"_control", .any, false, .control⟩]
            imports := p.imports.map fun ns => ⟨∅, ns⟩ }, []⟩

def input (root : Scope) (place : Text) (b : BindingDecl) : Binder Input:= do
  let expectedType ← if b.expectedType.isEmpty then pure none
    else some <$> p.typeAt u (place ++ ": expected type") b.expectedType
  let scope ← if b.collection.isEmpty then pure root
    else match root.dataType.field? u.catalog b.collection with
      | some f => if f.type.kind == .list then pure (root.element f.type) else throw (absent b)
      | none => throw (absent b)
  return { code := b.code, scope, expectedType, property := b.property, treeRoot := p.name }
where
  absent (b : BindingDecl) : Error :=
    .plain (place ++ ": " ++ b.collection ++ " is not a collection of " ++ root.dataType.name)

def inputsFrom (p : PageFile) (u : Universe) (root : Scope) (i : Nat) :
    List BindingDecl → Binder (List Input)
  | [] => return []
  | b :: bs => do
    let b ← p.input u root (item "bindings" i) b
    return b :: (← p.inputsFrom u root (i + 1) bs)

def inputs (root : Scope) : Binder (List Input) :=
  p.inputsFrom u root 0 p.bindings

end PageFile

end Bindery
