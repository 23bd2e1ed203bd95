import Bindery.Client.Host
import Bindery.Script.Reader

/-!
# Running scripts on view models

A script runs in a binding context that is made from the view models of the scopes around it.
`Client.run` gives the value of a script, and `Client.result` what it comes to on the server.
-/

namespace Bindery.Client

structure Context where
  /-- The view models of the scopes, innermost first. -/
  models : List Bindery.Value
  /-- The collection indexes of the scopes, innermost first. -/
  indexes : List Int64 := []
  element : Bindery.Value := .null
  values : Record Bindery.Value := []

/-! ## View models on the client -/

mutual

/-- The client form of a value: the fields of objects become cells whose paths begin with `path`. -/
def present (path : Text) : Bindery.Value → Run Value
  | .null => return .null
  | .bool b => return .bool b
  | .int n => return .number (.ofInt n.toInt)
  | .float x => return .number (.ofFloat x)
  | .text t => return .text (Text.ofChars t.chars)
  | .list _ vs => do
    let items ← presentItems ((path.dropEnd? ".").getD path) 0 vs
    return .array (← Run.fresh) items
  | .object _ fs => do
    let cells ← presentFields path fs
    return .object (← Run.fresh) (cells.mergeSort fun a b => a.1.le b.1)
  | .loose (.word n) => return .number (.ofInt n.toInt)
  | .loose _ => throw .thrown
  | .function _ => throw .thrown

def presentItems (path : Text) (i : Nat) : List Bindery.Value → Run (List Value)
  | [] => return []
  | v :: vs => do
    let item ← present (path ++ "[" ++ Text.ofNat i ++ "].") v
    return item :: (← presentItems path (i + 1) vs)

def presentFields (path : Text) : Record Bindery.Value → Run (Record Value)
  | [] => return []
  | (k, v) :: fs => do
    let contents ← present (path ++ k ++ ".") v
    let cell := Value.cell (← Run.fresh) (path ++ k) contents
    return (k, cell) :: (← presentFields path fs)

end

mutual

def plain : Bindery.Value → Run Value
  | .null => return .null
  | .bool b => return .bool b
  | .int n => return .number (.ofInt n.toInt)
  | .float x => return .number (.ofFloat x)
  | .text t => return .text (Text.ofChars t.chars)
  | .list _ vs => do
    let items ← plainItems vs
    return .array (← Run.fresh) items
  | .object _ fs => do
    let fields ← plainFields fs
    return .object (← Run.fresh) (fields.mergeSort fun a b => a.1.le b.1)
  | .loose (.word n) => return .number (.ofInt n.toInt)
  | .loose (.int32 n) => return .number (.ofInt n.toInt)
  | .loose (.single x) => return .number (.ofFloat x.toFloat)
  | .loose (.texts ts) => do
    return .array (← Run.fresh) (ts.map fun t => .text (Text.ofChars t.chars))
  | .function _ => throw .thrown

def plainItems : List Bindery.Value → Run (List Value)
  | [] => return []
  | v :: vs => do
    let item ← plain v
    return item :: (← plainItems vs)

def plainFields : Record Bindery.Value → Run (Record Value)
  | [] => return []
  | (k, v) :: fs => do
    let item ← plain v
    return (k, item) :: (← plainFields fs)

end

/-! ## Binding contexts -/

def modelPath (i : Nat) : Text := if i = 0 then ∅ else "^" ++ Text.ofNat i ++ "."

def presentModels : Nat → List Bindery.Value → Run (List Value)
  | _, [] => return []
  | i, v :: vs => do
    let m ← present (modelPath i) v
    return m :: (← presentModels (i + 1) vs)

/-- The binding context of the first of the given view models, which is the `i`-th one. -/
def contextOf (root element : Value) (indexes : List Int64) : Nat → List Value → Run Value
  | _, [] => return .undefined
  | i, data :: parents => do
    let outer ← contextOf root element indexes (i + 1) parents
    let array := Value.array (← Run.fresh) parents
    let around : Record Value := match parents with
      | p :: _ => [("$parent", p), ("$parentContext", outer)]
      | [] => []
    let id ← Run.fresh
    let index : Record Value := match indexes[i]? with
      | some n => [("$index", .cell id ("$index^" ++ Text.ofNat i) (.number (.ofInt n.toInt)))]
      | none => []
    let own : Record Value :=
      [("$data", data), ("$root", root), ("$element", element), ("$parents", array)]
    return .object (← Run.fresh) (own ++ around ++ index)

def Context.build (c : Context) : Run Value := do
  let models ← presentModels 0 c.models
  match models.getLast? with
  | none => throw .thrown
  | some root =>
    let element ← plain c.element
    let inner ← contextOf root element c.indexes 0 models
    let values ← c.values.mapM fun (n, v) => do return (n, ← present (n ++ ".") v)
    match inner with
    | .object id fields =>
      return .object id (values.foldl (fun fs (n, v) => Record.assign n v fs) fields)
    | v => return v

/-! ## Runs -/

/-- A bound on how deep the calls of a script nest that has no recursive functions. -/
def callDepth (s : Script) : Nat := 8 * s.nodes.length + 8

/-- Evaluates a script in a binding context; calls nest at most as deep as the bound says. -/
def evalWithin (depth : Nat) (s : Script) (context : Value) : Run Value := do
  let field (n : Text) : Run Value := member context n
  let env ← bindParams s.assigned ["$context", "$data", "$element"]
    [context, ← field "$data", ← field "$element"] []
  environment.eval depth env s

def evalIn (s : Script) (context : Value) : Run Value := evalWithin (callDepth s) s context

def run (code : Text) (c : Context) : Run (Script × Value) := do
  let context ← c.build
  match Script.read? code with
  | some s => return (s, ← evalIn s context)
  | none => throw .thrown

def revealNumber : Number → Bindery.Value
  | .int n => .int (Int64.ofInt n)
  | .negZero => .int 0
  | .float x =>
    let n := Bindery.Number.toInt64 x
    if x == n.toFloat then .int n else .float x

mutual

/-- A value as a value of the server, and the paths of the cells that are read for it. Cells are
looked into without being read. An object with a cell named `peek` is taken for a cell, so that one
is read. -/
def reveal : Value → List Text × Bindery.Value
  | .undefined => ([], .null)
  | .null => ([], .null)
  | .bool b => ([], .bool b)
  | .number n => ([], revealNumber n)
  | .text t => ([], .text t)
  | .array _ items =>
    let (reads, vs) := revealItems items
    (reads, .list none vs)
  | .object _ fields =>
    let shown := revealFields fields
    match Record.get? "peek" fields, shown.find? fun f => f.1 == ("peek" : Text) with
    | some (.cell _ path _), some (_, reads, v) => (path :: reads, v)
    | _, _ =>
      (shown.flatMap fun f => f.2.1, .object none (shown.map fun f => (f.1, f.2.2)))
  | .cell _ _ contents => reveal contents
  | .computed .. => ([], .object none [("__ko_observable", .bool true)])
  | .closure .. => ([], .object none [])
  | .native _ => ([], .object none [])

def revealItems : List Value → List Text × List Bindery.Value
  | [] => ([], [])
  | v :: vs =>
    let (reads, w) := reveal v
    let (more, ws) := revealItems vs
    (reads ++ more, w :: ws)

def revealFields : Record Value → List (Text × List Text × Bindery.Value)
  | [] => []
  | (k, v) :: fs => (k, reveal v) :: revealFields fs

end

def contents (depth : Nat) (v : Value) : Run Bindery.Value := do
  let v ← if v.isCell then environment.callWithin depth v .undefined [] else pure v
  let (reads, shown) := reveal v
  reads.forM Run.noteRead
  return shown

structure Result where
  isCell : Bool
  value : Bindery.Value

def result (code : Text) (c : Context) : Run Result := do
  let (s, v) ← run code c
  return { isCell := v.isCell, value := ← contents (callDepth s) v }

mutual

/-- The value as a script gives it back: floats that are whole numbers of 64 bits are integers. -/
def narrowed : Bindery.Value → Bindery.Value
  | .float x =>
    let n := Number.toInt64 x
    if x == n.toFloat then .int n else .float x
  | .loose (.word n) => .int n
  | .list r vs => .list r (narrowedList vs)
  | .object r fs => .object r (narrowedFields fs)
  | v => v

def narrowedList : List Bindery.Value → List Bindery.Value
  | [] => []
  | v :: vs => narrowed v :: narrowedList vs

def narrowedFields : Record Bindery.Value → Record Bindery.Value
  | [] => []
  | (k, v) :: fs => (k, narrowed v) :: narrowedFields fs

end

def State.readCounts (s : State) : Record Nat :=
  (Text.sort s.reads.eraseDups).map fun p => (p, s.reads.count p)

end Bindery.Client
