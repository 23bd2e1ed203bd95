import Bindery.Error

/-!
# Self-describing data

The data that manifests are stored as: scalars, lists, and records with named fields. `Data` has
three written forms, a binary one, JSON and a text format, each in a module of its own.
-/

namespace Bindery

/-- A value that says itself what it is. -/
inductive Data where
  | unset
  | null
  | number (x : Float)
  | text (t : Text)
  | bool (b : Bool)
  | list (items : List Data)
  | record (fields : List (Text × Data))

namespace Data

instance : Inhabited Data := ⟨.unset⟩

def field (d : Data) (name : Text) : Data :=
  match d with
  | .record fs => (Record.get? name fs).getD .unset
  | _ => .unset

def asText : Data → Text
  | .text t => t
  | _ => ∅

def asBool : Data → Bool
  | .bool b => b
  | _ => false

def asList : Data → List Data
  | .list xs => xs
  | _ => []

def sorted {α : Type} (fields : List (Text × α)) : List (Text × α) :=
  fields.mergeSort fun a b => a.1.le b.1

/-! ## Reading -/

def isSpace (c : Char) : Bool := c == ' ' || c == '\n' || c == '\r' || c == '\t'

/-- No word or number would go on with what follows. -/
def ends (cs : Chars) : Bool :=
  !cs.head?.any fun c => c.isAlphanum || c == '-' || c == '+' || c == '.' || c == '_'

/-! ## Malformed texts -/

mutual

def firstMalformed? : Data → Option Text
  | .text t => if t.isUtf8 then none else some t
  | .list xs => firstMalformedItem? xs
  | .record fs => firstMalformedField? fs
  | _ => none

def firstMalformedItem? : List Data → Option Text
  | [] => none
  | x :: xs => (firstMalformed? x).or (firstMalformedItem? xs)

def firstMalformedField? : Record Data → Option Text
  | [] => none
  | (k, x) :: fs =>
    if k.isUtf8 then (firstMalformed? x).or (firstMalformedField? fs) else some k

end

end Data

end Bindery
