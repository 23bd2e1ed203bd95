import Bindery.Decimal
import Bindery.Error

/-!
# Values

The values that bindings read and write at run time. A view model is an object whose fields hold
values; objects and lists may carry a reference, which says which ones are the same one, so that an
assignment reaches the view model that an object came from.

Numbers and lists may also come in a *loose* form, in a width or shape of their own; reading them
at a declared type brings them into the standard form.

`Operand` adds the functions that exist only during an evaluation. Those that values hold are
numbered, and what they do is kept with the members of types.
-/

namespace Bindery

/-- A number or list that is not in the standard form. -/
inductive Loose where
  | word (n : Int64)
  | int32 (n : Int32)
  | single (x : Float32)
  | texts (ts : List Text)

abbrev Ref := Nat

inductive Value where
  | null
  | bool (b : Bool)
  | int (n : Int64)
  | float (x : Float)
  | text (t : Text)
  | list (ref : Option Ref) (items : List Value)
  | object (ref : Option Ref) (fields : List (Text × Value))
  | loose (l : Loose)
  /-- A function that view models and lists may hold: the stored function of a number, or one that
  has left the evaluation it belongs to and can no longer be called. -/
  | function (entry : Option Nat)

instance : Inhabited Value := ⟨.null⟩

namespace Value

def isNull : Value → Bool
  | .null => true
  | _ => false

def isTrue : Value → Bool
  | .bool b => b
  | _ => false

def asText : Value → Text
  | .text t => t
  | _ => ""

def rep : Value → Text
  | .null => "<nil>"
  | .bool _ => "bool"
  | .int _ => "int64"
  | .float _ => "float64"
  | .text _ => "string"
  | .list .. => "[]interface \x7b\x7d"
  | .object .. => "map[string]interface \x7b\x7d"
  | .loose (.word _) => "int"
  | .loose (.int32 _) => "int32"
  | .loose (.single _) => "float32"
  | .loose (.texts _) => "[]string"
  | .function _ => "types.Func"

/-! ## Text forms -/

def floatLayout : Decimal.Layout := ⟨-4, 5, 2, true, "NaN", "+Inf", "-Inf"⟩

def renderSingle (x : Float32) : Text :=
  let bits := x.toBits
  let e := ((bits >>> 23) &&& 0xFF).toNat
  let f := (bits &&& 0x7FFFFF).toNat
  let sign : Text := if (bits >>> 31) == 1 then "-" else ""
  if e == 255 then floatLayout.render x.toFloat
  else if e == 0 && f == 0 then sign ++ "0"
  else if e == 0 then sign ++ floatLayout.write (Decimal.shortest f (-149) false)
  else sign ++ floatLayout.write (Decimal.shortest (f + 0x800000) (e - 150) (f == 0 && 1 < e))

mutual

/-- The plain text of a value: lists in brackets, objects by sorted keys. -/
def display : Value → Text
  | .null => "<nil>"
  | .bool b => if b then "true" else "false"
  | .int n => Text.ofInt n.toInt
  | .float x => floatLayout.render x
  | .text t => t
  | .list _ vs => "[" ++ Text.join " " (displayList vs) ++ "]"
  | .object _ fs =>
    let shown := (displayFields fs).mergeSort fun a b => a.1.le b.1
    "map[" ++ Text.join " " (shown.map fun (k, v) => k ++ ":" ++ v) ++ "]"
  | .loose (.word n) => Text.ofInt n.toInt
  | .loose (.int32 n) => Text.ofInt n.toInt
  | .loose (.single x) => renderSingle x
  | .loose (.texts ts) => "[" ++ Text.join " " ts ++ "]"
  | .function _ => "func"

def displayList : List Value → List Text
  | [] => []
  | v :: vs => display v :: displayList vs

def displayFields : Record Value → Record Text
  | [] => []
  | (k, v) :: fs => (k, display v) :: displayFields fs

end

/-- A value as users see it: null is empty and Booleans are capitalized. -/
def format : Value → Text
  | .null => ""
  | .bool b => if b then "True" else "False"
  | v => v.display

/-! ## Equality -/

def sameScalar : Value → Value → Bool
  | .null, .null => true
  | .bool a, .bool b => a == b
  | .int a, .int b => a == b
  | .float a, .float b => a == b
  | .text a, .text b => a == b
  | _, _ => false

end Value

/-- A value or function during an evaluation. Functions take values: what is passed to a function
has been read out of a list. -/
inductive Operand where
  | value (v : Value)
  | func (f : List Value → Except Fault Operand)

namespace Operand

instance : Inhabited Operand := ⟨.value .null⟩

instance : Coe Value Operand := ⟨.value⟩

def toValue : Operand → Value
  | .value v => v
  | .func _ => .function none

def isNull : Operand → Bool
  | .value v => v.isNull
  | .func _ => false

def rep (x : Operand) : Text := x.toValue.rep

def isTrue (x : Operand) : Bool := x.toValue.isTrue

end Operand

end Bindery
