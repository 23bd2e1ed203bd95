import Bindery.Binding.Page
import Bindery.Data

/-!
# Manifests

A manifest records the compiled bindings of pages. It has one entry for each identity: the first
that was added. `Manifest.toData` and `Manifest.ofData` turn a manifest into data and back.
-/

namespace Bindery

structure Entry where
  id : Text := ∅
  code : Text := ∅
  property : Text := ∅
  resultType : Text := ∅
  /-- The value script with the default texts in its slots. -/
  value : Text := ∅
  cell : Text := ∅
  parameters : List Text := []
  writable : Bool := false
  error : Text := ∅
deriving DecidableEq

structure Manifest where
  pages : List Text := []
  /-- The entries in the order in which they were added, with distinct identities. -/
  list : List Entry := []

namespace Manifest

variable (m : Manifest)

def size : Nat := m.list.length

def lookup (id : Text) : Option Entry := m.list.find? fun e => e.id == id

def add (e : Entry) : Manifest :=
  if (m.lookup e.id).isSome then m else { m with list := m.list ++ [e] }

def entries : List Entry := m.list.mergeSort fun a b => a.id.le b.id

def addName (page : Text) : Manifest :=
  if m.pages.contains page then m else { m with pages := m.pages ++ [page] }

end Manifest

namespace Compiler

variable (c : Compiler)

/-- The source of a binding, or the text of its expression. -/
def recordedCode (b : Binding) : Resolving Text := do
  match ← Resolving.attempt (c.get b .originalString) with
  | .ok (.text t) => return t
  | .ok _ => throw .misfit
  | .error _ => match ← Resolving.attempt (c.getAs b .parsedExpression .expr) with
    | .ok (some e) => return e.text
    | .ok none => throw .misfit
    | .error _ => return ∅

def recordedProperty (b : Binding) : Resolving Text := do
  match ← Resolving.attempt (c.get b .declaringProperty) with
  | .ok (.text t) => return t
  | .ok _ => throw .misfit
  | .error _ => return ∅

def recordedType (b : Binding) : Resolving Text := do
  match ← Resolving.attempt (c.getAs b .resultType .type) with
  | .ok (some t) => return t.name
  | .ok none => throw .misfit
  | .error _ => return ∅

def entry (r : Compiled) : Resolving Entry := do
  let code ← c.recordedCode r.binding
  let property ← c.recordedProperty r.binding
  let resultType ← c.recordedType r.binding
  return {
    id := r.id, code, property, resultType
    value := (r.value.map Code.text).getD ∅
    cell := (r.cell.map Code.text).getD ∅
    parameters := (r.value.map Code.parameters).getD []
    writable := r.writer.isSome
    error := (r.error.map Error.message).getD ∅ }

end Compiler

namespace Manifest

def addResults (c : Compiler) : List Compiled → Manifest → Resolving Manifest
  | [], m => return m
  | r :: rs, m =>
    if r.id.isEmpty then addResults c rs m
    else do
      let e ← c.entry r
      addResults c rs (m.add e)

def addPage (m : Manifest) (c : Compiler) (name : Text) (page : Page) : Resolving Manifest :=
  addResults c page.results (m.addName name)

/-! ## Data -/

end Manifest

def Entry.toData (e : Entry) : Data :=
  .record [("cell", .text e.cell), ("code", .text e.code), ("error", .text e.error),
    ("parameters", .list (e.parameters.map .text)), ("property", .text e.property),
    ("resultType", .text e.resultType), ("value", .text e.value), ("writable", .bool e.writable)]

/-- The entry with an identity and fields. Fields that are missing or of another kind are empty. -/
def Entry.ofData (id : Text) (d : Data) : Entry where
  id := id
  code := (d.field "code").asText
  property := (d.field "property").asText
  resultType := (d.field "resultType").asText
  value := (d.field "value").asText
  cell := (d.field "cell").asText
  parameters := (d.field "parameters").asList.map Data.asText
  writable := (d.field "writable").asBool
  error := (d.field "error").asText

namespace Manifest

def toData (m : Manifest) : Except Error Data :=
  let pages := Data.list (m.pages.map .text)
  let bindings := Data.record (m.entries.map fun e => (e.id, e.toData))
  let d := Data.record [("bindings", bindings), ("pages", pages)]
  match (Data.list [pages, bindings]).firstMalformed? with
  | some t => .error (.plain ("proto: invalid UTF-8 in string: " ++ t.quote))
  | none => .ok d

def entriesOf : Record Data → Except Error (List Entry)
  | [] => .ok []
  | (id, d) :: rest =>
    match d with
    | .record _ => do
      let es ← entriesOf rest
      return Entry.ofData id d :: es
    | _ => .error (.plain ("binding " ++ id ++ " is not an object"))

def ofData (d : Data) : Except Error Manifest :=
  match d.field "bindings" with
  | .record fs => do
    let list ← entriesOf fs
    return { pages := (d.field "pages").asList.map Data.asText, list }
  | _ => .error (.plain "manifest has no bindings")

end Manifest

end Bindery
