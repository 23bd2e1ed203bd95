import Bindery.Client.Eval
import Bindery.Text.Case

/-!
# What client scripts run on

Members of values, and the functions that are there for every script.
-/

namespace Bindery.Client

def global (n : Text) : Option Value :=
  if n = "ko" then some (.native .ko)
  else if n = "Math" then some (.native .math)
  else if n = "String" then some (.native .string)
  else if n = "undefined" then some .undefined
  else if n = "NaN" then some (.number .nan)
  else if n = "Infinity" then some (.number (.float (1.0 / 0.0)))
  else none

/-! ## Members -/

def nativeMember (f : Native) (n : Text) : Option Native :=
  match f with
  | .ko =>
    if n = "unwrap" then some .unwrap
    else if n = "pureComputed" then some .pureComputed
    else none
  | .math =>
    if n = "max" then some .max
    else if n = "min" then some .min
    else if n = "abs" then some .abs
    else if n = "trunc" then some .trunc
    else none
  | _ => none

def arrayMethod? (n : Text) : Option Native :=
  if n = "filter" then some .filter
  else if n = "some" then some .some
  else if n = "every" then some .every
  else if n = "includes" then some .hasElement
  else none

def textMethod? (n : Text) : Option Native :=
  if n = "includes" then some .hasPart
  else if n = "startsWith" then some .startsWith
  else if n = "endsWith" then some .endsWith
  else if n = "trim" then some .trim
  else if n = "toUpperCase" then some .toUpperCase
  else if n = "toLowerCase" then some .toLowerCase
  else none

def place? (n : Text) : Option Nat :=
  match Decimal.int64? n with
  | some i => if 0 ≤ i && Text.ofInt i.toInt == n then some i.toInt.toNat else none
  | none => none

def unitAt (t : Text) (i : Nat) : Value :=
  match t.units16[i]? with
  | some u => .text (Text.ofChars (Text.chars16 [u]))
  | none => .undefined

def member (v : Value) (n : Text) : Run Value :=
  let function (f : Option Native) : Run Value := return (f.map Value.native).getD .undefined
  match v with
  | .undefined => throw .thrown
  | .null => throw .thrown
  | .text t =>
    if n = "length" then return .number (.ofInt t.units16.length)
    else match place? n with
      | some i => return unitAt t i
      | none => function (textMethod? n)
  | .array _ items =>
    if n = "length" then return .number (.ofInt items.length)
    else match place? n with
      | some i => return items.getD i .undefined
      | none => function (arrayMethod? n)
  | .object _ fields => return (Record.get? n fields).getD .undefined
  | .native f => function (nativeMember f n)
  | _ => return .undefined

/-! ## Conversion to primitive values -/

/-- What an object's own conversion function gives, if it has one and that gives a primitive
value. -/
def ownPrimitive (call : Caller) (v : Value)
    (fields : Record Value) (name : Text) : Run (Option Value) :=
  match fields.get? name with
  | some f =>
    if f.isCallable then do
      let r ← call f v []
      return if r.isPrimitive then some r else none
    else return none
  | none => return none

mutual

/-- The primitive value that a value counts as. An array counts as the texts of its elements with
commas between them, an object as a fixed text unless it has a conversion function of its own.
Functions are known by calls of them only: they count as one text, however they are written. -/
def primitive (call : Caller) (preferText : Bool) : Value → Run Value
  | .array _ items => do return .text (Text.join "," (← primitiveTexts call items))
  | .object i fields => do
    let (first, second) : Text × Text :=
      if preferText then ("toString", "valueOf") else ("valueOf", "toString")
    match ← ownPrimitive call (.object i fields) fields first with
    | some r => return r
    | none =>
      match ← ownPrimitive call (.object i fields) fields second with
      | some r => return r
      | none =>
        if (Record.get? "toString" fields).isSome then throw .thrown
        else return .text "[object Object]"
  | .native .ko => return .text "[object Object]"
  | .native .math => return .text "[object Math]"
  | .cell .. => return .text "function"
  | .computed .. => return .text "function"
  | .closure .. => return .text "function"
  | .native _ => return .text "function"
  | v => return v

def primitiveTexts (call : Caller) : List Value → Run (List Text)
  | [] => return []
  | v :: vs => do
    let t ← primitive call true v
    let rest ← primitiveTexts call vs
    return (if v.isNullish then ∅ else t.toText) :: rest

end

/-! ## Calls -/

/-- Arrays, objects and functions are told apart by their numbers. -/
def identical (v w : Value) : Run Bool :=
  return match v.identity?, w.identity? with
    | some i, some j => i == j
    | _, _ => false

def host (same : Value → Value → Run Bool) (call : Caller) : Host where
  global := global
  member := member
  element v key := do
    match v, key with
    | .array _ items, .number (.int (.ofNat i)) => return items.getD i .undefined
    | _, _ =>
      if v.isNullish then throw .thrown
      else
        let k ← primitive call true key
        member v k.toText
  call := call
  construct _ _ := throw .thrown
  primitive := primitive call
  same := same
  -- Arrays and objects are values here, and nothing is stored in them.
  store _ _ _ := throw .thrown

def select (call : Caller) (f array : Value) : Nat → List Value → Run (List Value)
  | _, [] => return []
  | i, v :: vs => do
    let r ← call f .undefined [v, .number (.ofInt i), array]
    let rest ← select call f array (i + 1) vs
    return if r.isTrue then v :: rest else rest

/-- Some element is one for which a function gives a value of truth `wanted`; the elements after it
are not looked at. -/
def search (call : Caller) (f array : Value) (wanted : Bool) : Nat → List Value → Run Bool
  | _, [] => return false
  | i, v :: vs => do
    let r ← call f .undefined [v, .number (.ofInt i), array]
    if r.isTrue == wanted then return true else search call f array wanted (i + 1) vs

def foldNumbers (h : Host) (f : Number → Number → Number) (start : Float) (args : List Value) :
    Run Value := do
  let ns ← args.mapM h.toNumber
  return .number (ns.foldl f (.float start))

def callNative (h : Host) (f : Native) (this : Value) (args : List Value) : Run Value := do
  let arg := args.headD .undefined
  match f with
  | .unwrap => if arg.isCell then h.call arg .undefined [] else return arg
  | .pureComputed => return .computed (← Run.fresh) arg
  | .max => foldNumbers h .max (-1.0 / 0.0) args
  | .min => foldNumbers h .min (1.0 / 0.0) args
  | .abs => return .number (← h.toNumber arg).abs
  | .trunc => return .number (← h.toNumber arg).trunc
  | .string => if args.isEmpty then return .text ∅ else return .text (← h.toText arg)
  | .filter => match this with
    | .array _ items =>
      if !arg.isCallable then throw .thrown
      let kept ← select h.call arg this 0 items
      return .array (← Run.fresh) kept
    | _ => throw .thrown
  | .some => match this with
    | .array _ items =>
      if !arg.isCallable then throw .thrown
      return .bool (← search h.call arg this true 0 items)
    | _ => throw .thrown
  | .every => match this with
    | .array _ items =>
      if !arg.isCallable then throw .thrown
      return .bool !(← search h.call arg this false 0 items)
    | _ => throw .thrown
  | .hasElement => match this with
    | .array _ items => return .bool (← h.hasElement arg items)
    | _ => throw .thrown
  | .hasPart => onText fun t => do return .bool (t.contains (← h.toText arg))
  | .startsWith => onText fun t => do return .bool (t.startsWith (← h.toText arg))
  | .endsWith => onText fun t => do return .bool (t.endsWith (← h.toText arg))
  | .trim => onText fun t => return .text t.trimScript
  | .toUpperCase => onText fun t => return .text t.toUpperFull
  | .toLowerCase => onText fun t => return .text t.toLowerFull
  | .ko => throw .thrown
  | .math => throw .thrown
where
  onText (f : Text → Run Value) : Run Value :=
    match this with
    | .text t => f t
    | _ => throw .thrown

def environmentWith (same : Value → Value → Run Bool) : Environment where
  global := global
  member := member
  element call := (host same call).element
  call call f this args :=
    match f with
    | .cell _ path contents =>
      if args.isEmpty then do
        Run.noteRead path
        return contents
      else return .undefined
    | .computed _ g => call g .undefined []
    | .native n => callNative (host same call) n this args
    | _ => throw .thrown
  construct call := (host same call).construct
  primitive := primitive
  same := same
  store call := (host same call).store

def environment : Environment := environmentWith identical

end Bindery.Client
