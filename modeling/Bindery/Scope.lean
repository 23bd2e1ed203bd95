import Bindery.Ty

/-!
# Scopes

A binding is resolved in a chain of nested data contexts. Each level has the type of its data
context, special parameters and namespace imports. `Scope.describe` is the canonical text of a
chain; chains with equal descriptions are not told apart (`Scope.same`).
-/

namespace Bindery

inductive ParamKind where
  | custom
  | index
  | control
  | collection
deriving DecidableEq

def ParamKind.text : ParamKind → Text
  | .custom => "Custom"
  | .index => "CurrentCollectionIndex"
  | .control => "CurrentControl"
  | .collection => "Collection"

def ParamKind.ofText? (t : Text) : Option ParamKind :=
  [ParamKind.custom, .index, .control, .collection].find? fun k => k.text == t

structure Param where
  name : Text
  type : Ty
  /-- The parameter is visible in the levels inside. -/
  inherit : Bool
  kind : ParamKind

/-- Makes the types of a namespace available, under its label if that is not empty. -/
structure Import where
  label : Text
  ns : Text
deriving DecidableEq

structure Level where
  dataType : Ty
  params : List Param := []
  imports : List Import := []

def Level.element (collection : Ty) : Level where
  dataType := collection.elem?.getD .any
  params := [⟨"_index", .int, true, .index⟩, ⟨"_collection", collection, false, .collection⟩]

/-- A chain of data contexts: the innermost level and those around it, nearest first. -/
structure Scope where
  level : Level
  outer : List Level := []

namespace Scope

def dataType (s : Scope) : Ty := s.level.dataType

variable (s : Scope)

def levels : List Level := s.level :: s.outer

def depth : Nat := s.outer.length

def ofLevels? : List Level → Option Scope
  | [] => none
  | l :: ls => some ⟨l, ls⟩

def parent? : Option Scope := ofLevels? s.outer

def ancestor? (n : Nat) : Option Scope := ofLevels? (s.levels.drop n)

def root : Scope :=
  match s.outer.getLast? with
  | some l => ⟨l, []⟩
  | none => s

def push (l : Level) : Scope := ⟨l, s.levels⟩

def element (s : Scope) (collection : Ty) : Scope := s.push (.element collection)

/-- The first parameter that satisfies `p` from the given levels outward, and the chain of the level
that declares it. Outside the innermost level only inheritable parameters are found. -/
def findIn (p : Param → Bool) (innermost : Bool) : List Level → Option (Param × Scope)
  | [] => none
  | l :: ls =>
    match l.params.find? fun q => p q && (innermost || q.inherit) with
    | some q => some (q, ⟨l, ls⟩)
    | none => findIn p false ls

def resolve (name : Text) : Option (Param × Scope) :=
  findIn (fun p => p.name == name) true s.levels

def findKind (kind : ParamKind) : Option (Param × Scope) :=
  findIn (fun p => p.kind == kind) true s.levels

def namespaces : List Text := s.levels.flatMap fun l => l.imports.map (·.ns)

def findAlias (name : Text) : Option Text :=
  s.levels.findSome? fun l => (l.imports.find? fun i => i.label == name).map (·.ns)

/-! ## Description -/

def describeParam (p : Param) : Text :=
  p.name ++ (if p.inherit then "*" else "") ++ ":" ++ p.type.name ++ ":" ++ p.kind.text

/-- One level: `Type(alias=namespace,…;name*:Type:Kind,…) -- `. -/
def describeLevel (l : Level) : Text :=
  l.dataType.name ++ "(" ++ Text.join "," (l.imports.map fun i => i.label ++ "=" ++ i.ns) ++ ";"
    ++ Text.join "," (l.params.map describeParam) ++ ") -- "

def describe : Text := Text.concat (s.levels.map describeLevel)

def same (s t : Scope) : Bool := s.describe == t.describe

end Scope

end Bindery
