import Bindery.Ty.Table
import Bindery.Text.Blank
import Bindery.Text.Case

/-!
# Members of types

A field is read and written through its getter and setter if it has them, and otherwise by its name
in the object that holds it. A method may lack an implementation, in which case calls of it can
only be compiled for the client.

The members of predeclared and constructed types are given here; those of declared classes are
kept in a `Catalog`, with the functions that view models hold.
-/

namespace Bindery

structure Field where
  name : Text
  owner : Ty
  type : Ty
  readOnly : Bool := false
  get : Option (Value → Except Error Value) := none
  /-- A setter gives the receiver as it is after the assignment. -/
  set : Option (Value → Value → Except Error Value) := none

def Field.fullName (f : Field) : Text := f.owner.definition ++ "." ++ f.name

/-- A method of a type. A static method is called without a receiver. -/
structure Method where
  name : Text
  owner : Ty
  isStatic : Bool := false
  params : List Ty
  result : Ty
  run : Option (Operand → List Operand → Except Fault Operand) := none

def Method.fullName (m : Method) : Text := m.owner.definition ++ "." ++ m.name

/-- A function that values refer to by its number. -/
structure Stored where
  params : List Ty
  result : Ty
  run : List Value → Except Fault Operand

namespace Method

def firstArg (args : List Operand) : Operand := args.headD (.value .null)

/-! ## Implementations of predeclared methods -/

def onTexts (f : Text → Text → Value) (recv : Operand) (args : List Operand) :
    Except Fault Operand :=
  .ok (f recv.toValue.asText (firstArg args).toValue.asText)

def onText (f : Text → Text) (recv : Operand) (_ : List Operand) : Except Fault Operand :=
  .ok (Value.text (f recv.toValue.asText))

def testText (f : Text → Bool) (_ : Operand) (args : List Operand) : Except Fault Operand :=
  .ok (Value.bool (f (firstArg args).toValue.asText))

/-- The greater of two floats; NaN wins, and positive zero over negative zero. -/
def maxFloat (x y : Float) : Float :=
  if x.isInf && 0 < x || y.isInf && 0 < y then 1.0 / 0.0
  else if x.isNaN || y.isNaN then 0.0 / 0.0
  else if x == 0 && y == 0 then if x.toBits >>> 63 == 1 then y else x
  else if x < y then y else x

/-- The lesser of two floats; NaN wins, and negative zero over positive zero. -/
def minFloat (x y : Float) : Float :=
  if x.isInf && x < 0 || y.isInf && y < 0 then -1.0 / 0.0
  else if x.isNaN || y.isNaN then 0.0 / 0.0
  else if x == 0 && y == 0 then if x.toBits >>> 63 == 1 then x else y
  else if y < x then y else x

def extremum (isMax : Bool) (_ : Operand) (args : List Operand) : Except Fault Operand :=
  let name : Text := if isMax then "Max" else "Min"
  match args with
  | [.value (.int x), .value (.int y)] =>
    .ok (Value.int (if decide (x < y) == isMax then y else x))
  | [.value (.float x), .value (.float y)] =>
    .ok (Value.float (if isMax then maxFloat x y else minFloat x y))
  | .value (.int _) :: _ => .error .misfit
  | .value (.float _) :: _ => .error .misfit
  | _ => .error (Error.plain ("Math." ++ name ++ ": unsupported operand " ++ (firstArg args).rep))

/-- The magnitude of a float, and zero for any other value. -/
def magnitude (_ : Operand) (args : List Operand) : Except Fault Operand :=
  match firstArg args with
  | .value (.float x) => .ok (Value.float x.abs)
  | _ => .ok (Value.float 0)

/-- The elements of a list for which a predicate gives `wanted`; whatever is not a Boolean counts as
false. -/
def select (p : List Value → Except Fault Operand) (wanted : Bool) :
    List Value → Except Fault (List Value)
  | [] => .ok []
  | v :: vs => do
    let b ← p [v]
    let rest ← select p wanted vs
    .ok (if b.isTrue == wanted then v :: rest else rest)

def elements : Operand → List Value
  | .value (.list _ vs) => vs
  | _ => []

variable (functions : Nat → Option Stored)

/-- The function that an operand is or refers to. -/
def callee? : Operand → Option (List Value → Except Fault Operand)
  | .func p => some p
  | .value (.function (some n)) => (functions n).map Stored.run
  | _ => none

def filtered (wanted : Bool) (recv : Operand) (args : List Operand) : Except Fault (List Value):=
  match callee? functions (firstArg args) with
  | some p => select p wanted (elements recv)
  | none => .error (Error.plain "nil predicate")

def hasElement (recv : Operand) (args : List Operand) : Except Fault Operand :=
  let sought := (firstArg args).toValue
  .ok (Value.bool ((elements recv).any fun v => v.sameScalar sought))

/-! ## Methods of predeclared types -/

def anyMethods : List Method := [
  { name := "ToString", owner := .any, params := [], result := .string,
    run := some fun recv _ => .ok (Value.text recv.toValue.format) }]

def stringMethods : List Method :=
  let binary (name : Text) (f : Text → Text → Bool) : Method :=
    { name, owner := .string, params := [.string], result := .bool,
      run := some (onTexts fun s a => .bool (f s a)) }
  let unary (name : Text) (f : Text → Text) : Method :=
    { name, owner := .string, params := [], result := .string, run := some (onText f) }
  let test (name : Text) (f : Text → Bool) : Method :=
    { name, owner := .string, isStatic := true, params := [.string], result := .bool,
      run := some (testText f) }
  [binary "Contains" Text.contains, binary "StartsWith" Text.startsWith,
    binary "EndsWith" Text.endsWith, unary "ToUpper" Text.toUpper, unary "ToLower" Text.toLower,
    unary "Trim" Text.trim, test "IsNullOrEmpty" Text.isEmpty,
    test "IsNullOrWhiteSpace" fun t => t.trim.isEmpty]

def listMethods (elem predicate : Ty) : List Method :=
  let owner := Ty.list elem predicate
  let method (name : Text) (param result : Ty)
      (run : Operand → List Operand → Except Fault Operand) : Method :=
    { name, owner, params := [param], result, run := some run }
  [method "Any" predicate .bool fun recv args => do
      return Value.bool !(← filtered functions true recv args).isEmpty,
    method "All" predicate .bool fun recv args => do
      return Value.bool (← filtered functions false recv args).isEmpty,
    method "Where" predicate owner fun recv args => do
      return Value.list none (← filtered functions true recv args),
    method "Contains" elem .bool hasElement]

end Method

/-! ## Static classes that every universe has -/

def Declared.math : Declared := ⟨"System.Math", true, 0⟩

def Declared.resources : Declared := ⟨"App.Resources", true, 1⟩

structure Declaration where
  fields : List Field := []
  methods : List Method := []

def Declaration.math : Declaration where
  methods :=
    let owner := Ty.declared .math
    let binary (name : Text) (isMax : Bool) (t : Ty) : Method :=
      { name, owner, isStatic := true, params := [t, t], result := t,
        run := some (Method.extremum isMax) }
    [binary "Max" true .int, binary "Max" true .float, binary "Min" false .int,
      binary "Min" false .float,
      { name := "Abs", owner, isStatic := true, params := [.float], result := .float,
        run := some Method.magnitude }]

def Declaration.resources : Declaration where
  methods := [
    { name := "Url", owner := .declared .resources, isStatic := true, params := [.string],
      result := .string,
      run := some fun _ args =>
        .ok (Value.text ("/resource/" ++ (Method.firstArg args).toValue.asText)) }]

structure Catalog where
  entries : List (Nat × Declaration) := [(0, .math), (1, .resources)]
  functions : Nat → Option Stored := fun _ => none

namespace Catalog

def find (c : Catalog) (d : Declared) : Declaration :=
  match c.entries.find? fun e => e.1 == d.serial with
  | some (_, members) => members
  | none => {}

def set (c : Catalog) (d : Declared) (members : Declaration) : Catalog :=
  { c with entries := (d.serial, members) :: c.entries.filter fun e => e.1 != d.serial }

end Catalog

namespace Ty

def lengthField : Field :=
  { name := "Length", owner := .string, type := .int, readOnly := true,
    get := some fun v => .ok (.int (Int64.ofNat v.asText.length)) }

def countField (list : Ty) : Field :=
  { name := "Count", owner := list, type := .int, readOnly := true,
    get := some fun
      | .list _ vs => .ok (.int (Int64.ofNat vs.length))
      | v => .error (.plain ("Count: not a list: " ++ v.rep)) }

variable (c : Catalog)

def ownFields : Ty → List Field
  | .basic .string => [lengthField]
  | .list e p => [countField (.list e p)]
  | .declared d => (c.find d).fields
  | _ => []

def ownMethods : Ty → List Method
  | .basic .any => Method.anyMethods
  | .basic .string => Method.stringMethods
  | .list e p => Method.listMethods c.functions e p
  | .declared d => (c.find d).methods
  | _ => []

def field? (t : Ty) (name : Text) : Option Field :=
  (t.underlying.ownFields c).find? fun f => f.name == name

/-- The methods of a name and number of parameters, in the order of declaration. Instance methods of
the type of all values come last. -/
def overloads (t : Ty) (name : Text) (arity : Nat) : List Method :=
  let matching (m : Method) : Bool := m.name == name && m.params.length == arity
  let own := (t.underlying.ownMethods c).filter matching
  if t == .any then own
  else own ++ Method.anyMethods.filter fun m => matching m && !m.isStatic

def method? (t : Ty) (name : Text) (arity : Nat) : Option Method :=
  (overloads c t name arity).head?

end Ty

end Bindery
