import Bindery.Value

/-!
# Static types

A type is a predeclared type, a declared class, or built from other types: the nullable form of a
type that does not admit null, a list, or a function type. Declared classes are told apart by a
serial number, so two universes may each have a class of one name; `Ty.identical` is the weaker
relation that the checks use, which goes by name.

A list type keeps the type of the predicates that its methods take.
-/

namespace Bindery

inductive Basic where
  | any
  | bool
  | int
  | float
  | string
  | void
deriving DecidableEq

/-- A declared class: a view-model class, or a static class, which has no values. -/
structure Declared where
  name : Text
  isStatic : Bool
  serial : Nat
deriving DecidableEq

inductive Ty where
  | basic (b : Basic)
  | declared (d : Declared)
  | nullable (t : Ty)
  | list (elem predicate : Ty)
  | func (params : List Ty) (result : Ty)

inductive Kind where
  | void
  | any
  | bool
  | int
  | float
  | string
  | object
  | list
  | func
  | static
deriving DecidableEq

namespace Kind

def text : Kind → Text
  | .void => "void"
  | .any => "any"
  | .bool => "bool"
  | .int => "int"
  | .float => "float"
  | .string => "string"
  | .object => "object"
  | .list => "list"
  | .func => "func"
  | .static => "static"

/-- Values of the kind admit null only in a nullable type. -/
def isValue : Kind → Bool
  | .bool | .int | .float => true
  | _ => false

def isNumeric : Kind → Bool
  | .int | .float => true
  | _ => false

end Kind

namespace Ty

def any : Ty := .basic .any
def bool : Ty := .basic .bool
def int : Ty := .basic .int
def float : Ty := .basic .float
def string : Ty := .basic .string
def void : Ty := .basic .void

instance : Inhabited Ty := ⟨any⟩

def kind : Ty → Kind
  | .basic .any => .any
  | .basic .bool => .bool
  | .basic .int => .int
  | .basic .float => .float
  | .basic .string => .string
  | .basic .void => .void
  | .declared d => if d.isStatic then .static else .object
  | .nullable t => t.kind
  | .list .. => .list
  | .func .. => .func

def isNullable : Ty → Bool
  | .basic .any => true
  | .basic .string => true
  | .basic _ => false
  | .declared d => !d.isStatic
  | .nullable _ => true
  | .list .. => true
  | .func .. => true

mutual

def name : Ty → Text
  | .basic .any => "System.Object"
  | .basic .bool => "System.Boolean"
  | .basic .int => "System.Int32"
  | .basic .float => "System.Double"
  | .basic .string => "System.String"
  | .basic .void => "System.Void"
  | .declared d => d.name
  | .nullable t => name t ++ "?"
  | .list e _ => "List<" ++ name e ++ ">"
  | .func ps r => "Func<" ++ Text.join "," (names ps ++ [name r]) ++ ">"

def names : List Ty → List Text
  | [] => []
  | t :: ts => name t :: names ts

end

/-- The element type of a list, and the underlying type of a nullable type. -/
def elem? : Ty → Option Ty
  | .list e _ => some e
  | .nullable t => some t
  | _ => none

/-- The type without its admission of null, for a nullable form of a value type. -/
def underlying : Ty → Ty
  | .nullable t => if t.kind.isValue then t else .nullable t
  | t => t

/-- The name under which members of the type are registered. -/
def definition : Ty → Text
  | .list .. => "List"
  | .func .. => "Func"
  | .nullable t => if t.kind.isValue then t.definition else name (.nullable t)
  | t => name t

/-- Two types that the checks do not tell apart. -/
def identical (s t : Ty) : Bool :=
  s.name == t.name && s.kind == t.kind && s.isNullable == t.isNullable

def default (t : Ty) : Value :=
  if t.isNullable then .null
  else match t.kind with
    | .bool => .bool false
    | .int => .int 0
    | .float => .float 0
    | _ => .null

mutual

def beq : Ty → Ty → Bool
  | .basic a, .basic b => a == b
  | .declared a, .declared b => a == b
  | .nullable s, .nullable t => beq s t
  | .list e p, .list e' p' => beq e e' && beq p p'
  | .func ps r, .func ps' r' => beqList ps ps' && beq r r'
  | _, _ => false

def beqList : List Ty → List Ty → Bool
  | [], [] => true
  | s :: ss, t :: ts => beq s t && beqList ss ts
  | _, _ => false

end

instance : BEq Ty := ⟨beq⟩

end Ty

end Bindery
