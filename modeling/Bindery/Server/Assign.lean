import Bindery.Server.Eval

/-!
# Assignment on the server

A binding whose expression is a writable field or an element of a list or object can be assigned to.
The receiver of the field or element is evaluated in data contexts whose objects and lists carry
references; the assignment then changes every occurrence of the referenced one.
-/

namespace Bindery

namespace Value

mutual

/-- The value with references on all its objects and lists, from the given number on. -/
def label : Value → StateM Ref Value
  | .list _ items => do
    let r ← getModify (· + 1)
    return .list (some r) (← labelList items)
  | .object _ fields => do
    let r ← getModify (· + 1)
    return .object (some r) (← labelFields fields)
  | v => return v

def labelList : List Value → StateM Ref (List Value)
  | [] => return []
  | v :: vs => do
    let v ← label v
    return v :: (← labelList vs)

def labelFields : Record Value → StateM Ref (Record Value)
  | [] => return []
  | (k, v) :: fs => do
    let v ← label v
    return (k, v) :: (← labelFields fs)

end

mutual

def replace (ref : Ref) (new : Value) : Value → Value
  | .list r items => if r == some ref then new else .list r (replaceList ref new items)
  | .object r fields => if r == some ref then new else .object r (replaceFields ref new fields)
  | v => v

def replaceList (ref : Ref) (new : Value) : List Value → List Value
  | [] => []
  | v :: vs => replace ref new v :: replaceList ref new vs

def replaceFields (ref : Ref) (new : Value) : Record Value → Record Value
  | [] => []
  | (k, v) :: fs => (k, replace ref new v) :: replaceFields ref new fs

end

def ref? : Value → Option Ref
  | .list r _ => r
  | .object r _ => r
  | _ => none

end Value

inductive Target where
  | field (e x : Expr) (f : Field)
  | element (e x key : Expr) (type : Ty)

/-- The assignment of a binding. Receivers and keys have guards for null. -/
structure Writer where
  target : Target
  scope : Scope

namespace Writer

def compile (e : Expr) (s : Scope) : Except Error (Option Writer) :=
  match e.strip with
  | .member x f =>
    if f.readOnly || f.set.isNone && f.get.isSome then .ok none
    else do
      let recv := x.guardNulls
      recv.checked s
      return some ⟨.field (.member x f) recv f, s⟩
  | .index x k t => do
    let recv := x.guardNulls
    recv.checked s
    let key := k.guardNulls
    key.checked s
    return some ⟨.element (.index x k t) recv key t, s⟩
  | _ => .ok none

/-- The receiver before and after the assignment of a value. -/
def store (w : Writer) (fr : Frame) (value : Value) : Except Fault (Value × Value) :=
  match w.target with
  | .field e x f => do
    let recv := (← x.eval w.scope fr).toValue
    if recv.isNull then throw (e.failed (.assignToNull f.name))
    let value := value.normalize f.type
    match f.set with
    | some set => match set recv value with
      | .ok new => return (recv, new)
      | .error err => throw (.error err)
    | none => match recv with
      | .object r fields => return (recv, .object r (Record.assign f.name value fields))
      | _ => throw (e.failed (.assignTo f.name recv.rep))
  | .element e x key t => do
    let recv := (← x.eval w.scope fr).toValue
    let k := (← key.eval w.scope fr).toValue
    let value := value.normalize t
    match recv with
    | .list r items => match k with
      | .int i =>
        if 0 ≤ i.toInt && i.toInt < items.length then
          return (recv, .list r (items.set i.toInt.toNat value))
        else throw (e.failed (.indexRange k.display items.length))
      | _ => throw (e.failed (.indexRange k.display items.length))
    | .object r fields => match k with
      | .text name => return (recv, .object r (Record.assign name value fields))
      | _ => throw (e.failed (.objectKey k.rep))
    | _ => throw (e.failed (.assignElement recv.rep))

def write (w : Writer) (vms : List Value) (control : Option Control) (value : Value) :
    Except Fault (List Value) := do
  let labelled := ((Value.labelList vms).run 0).1
  let (old, new) ← w.store { vms := labelled, control } value
  match old.ref? with
  | some r => return Value.replaceList r new labelled
  | none => return labelled

end Writer

end Bindery
