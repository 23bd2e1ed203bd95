import Bindery.Client.Number
import Bindery.Script

/-!
# Values on the client

The values that scripts compute with. A view model is an object whose fields are *cells*: functions
that give the contents of a field and note that it was read. Arrays, objects and functions have a
number that tells them apart.

A script runs in the monad `Run`: it may throw, and what it has read and assigned before is kept.
-/

namespace Bindery.Client

inductive Native where
  /-- The namespace of the cell functions. -/
  | ko
  | unwrap
  | pureComputed
  | math
  | max
  | min
  | abs
  | trunc
  | string
  | filter
  | some
  | every
  | hasElement
  | hasPart
  | startsWith
  | endsWith
  | trim
  | toUpperCase
  | toLowerCase
deriving DecidableEq

mutual

inductive Value where
  | undefined
  | null
  | bool (b : Bool)
  | number (n : Number)
  | text (t : Text)
  | array (id : Nat) (items : List Value)
  | object (id : Nat) (fields : List (Text × Value))
  | cell (id : Nat) (path : Text) (contents : Value)
  /-- A cell whose contents are what a function gives. -/
  | computed (id : Nat) (f : Value)
  | closure (id : Nat) (params : List Text) (body : Script) (env : List (Text × Slot))
  | native (f : Native)

inductive Slot where
  /-- A value that no assignment changes. -/
  | fixed (v : Value)
  | place (i : Nat)

end

abbrev Env := Record Slot

namespace Value

instance : Inhabited Value := ⟨.undefined⟩

def isNullish : Value → Bool
  | .undefined => true
  | .null => true
  | _ => false

def isTrue : Value → Bool
  | .undefined => false
  | .null => false
  | .bool b => b
  | .number n => n.isTrue
  | .text t => !t.isEmpty
  | _ => true

def isCell : Value → Bool
  | .cell .. => true
  | .computed .. => true
  | _ => false

def isCallable : Value → Bool
  | .cell .. => true
  | .computed .. => true
  | .closure .. => true
  | .native .ko => false
  | .native .math => false
  | .native _ => true
  | _ => false

def isPrimitive : Value → Bool
  | .undefined => true
  | .null => true
  | .bool _ => true
  | .number _ => true
  | .text _ => true
  | _ => false

def identity? : Value → Option Nat
  | .array i _ => some i
  | .object i _ => some i
  | .cell i _ _ => some i
  | .computed i _ => some i
  | .closure i _ _ _ => some i
  | _ => none

def typeName : Value → Text
  | .undefined => "undefined"
  | .bool _ => "boolean"
  | .number _ => "number"
  | .text _ => "string"
  | v => if v.isCallable then "function" else "object"

def toNumber : Value → Number
  | .null => .int 0
  | .bool b => .int (if b then 1 else 0)
  | .number n => n
  | .text t => .ofText t
  | _ => .nan

def toText : Value → Text
  | .undefined => "undefined"
  | .null => "null"
  | .bool b => if b then "true" else "false"
  | .number n => n.text
  | .text t => t
  | _ => ∅

/-- The value of a literal. Bytes that belong to no character become U+FFFD. -/
def ofLiteral : Literal → Value
  | .null => .null
  | .bool b => .bool b
  | .int n => .number (.ofInt n.toInt)
  | .float x => .number (.ofFloat x)
  | .text t => .text (Text.ofChars t.chars)

end Value

/-! ## Runs -/

structure State where
  /-- The contents of the variables; one that has no value yet is empty. -/
  vars : List (Option Value) := []
  /-- The next number of an array, object or function. -/
  fresh : Nat := 0
  /-- The paths of the cells that were read, the latest first. -/
  reads : List Text := []
  /-- How often a variable was read that had no value yet. -/
  unset : Nat := 0

inductive Thrown where
  | thrown

abbrev Run := ExceptT Thrown (StateM State)

namespace Run

def fresh : Run Nat := do
  let s ← get
  set { s with fresh := s.fresh + 1 }
  return s.fresh

def alloc (v : Option Value) : Run Nat := do
  let s ← get
  set { s with vars := s.vars ++ [v] }
  return s.vars.length

/-- The contents of a variable. One that has no value yet is undefined. -/
def load (i : Nat) : Run Value := do
  let s ← get
  match s.vars.getD i none with
  | some v => return v
  | none =>
    set { s with unset := s.unset + 1 }
    return .undefined

def store (i : Nat) (v : Value) : Run Unit :=
  modify fun s => { s with vars := s.vars.set i (some v) }

def noteRead (path : Text) : Run Unit := modify fun s => { s with reads := path :: s.reads }

end Run

end Bindery.Client
