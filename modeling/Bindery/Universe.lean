import Bindery.Member

/-!
# Universes

A universe is a set of named types. Names are looked up among keyword spellings, qualified names and
names relative to a namespace; `Universe.parse` reads type expressions such as `int?`,
`List<string>` and `App.Customer[]`.
-/

namespace Bindery

inductive TypeNameError where
  | empty
  | malformed (text : Text)
  | unknownGeneric (name : Text)
  | undefined (name : Text)
deriving DecidableEq

def TypeNameError.message : TypeNameError → Text
  | .empty => "empty type name"
  | .malformed t => "malformed type " ++ t.quote
  | .unknownGeneric g => "unknown generic type " ++ g
  | .undefined n => "undefined type " ++ n

structure Universe where
  named : Record Ty
  catalog : Catalog := {}
  /-- The note that an error has on a source that is no script. -/
  unreadable : Text → Text := fun _ => "(anonymous): <parse error>"

namespace Universe

def predeclared : List Ty :=
  [.any, .bool, .int, .float, .string, .void, .declared .math, .declared .resources]

def initial : Universe where
  named := predeclared.map fun t => (t.name, t)

def find? (u : Universe) (name : Text) : Option Ty :=
  (u.named.find? fun e => e.1 == name).map (·.2)

variable (u : Universe)

/-- The universe with one more named type. A name may be given again only to the type that has
it. -/
def define (t : Ty) : Except Error Universe :=
  match u.find? t.name with
  | some found =>
    if found == t then .ok u else .error (.plain ("type " ++ t.name ++ " already defined"))
  | none => .ok { u with named := u.named ++ [(t.name, t)] }

variable (name : Text)

def declare (isStatic : Bool) : Except Error (Universe × Declared) := do
  let d : Declared := ⟨name, isStatic, u.catalog.entries.length⟩
  let u ← u.define (.declared d)
  return ({ u with catalog := u.catalog.set d {} }, d)

def modify (d : Declared) (f : Declaration → Declaration) : Universe :=
  { u with catalog := u.catalog.set d (f (u.catalog.find d)) }

def addField (d : Declared) (f : Field) : Universe :=
  u.modify d fun m => { m with fields := m.fields ++ [f] }

def addMethod (d : Declared) (f : Method) : Universe :=
  u.modify d fun m => { m with methods := m.methods ++ [f] }

def names : List Text := Text.sort (u.named.map (·.1))

def keyword? : Option Ty :=
  if name = "object" then some .any
  else if name = "bool" then some .bool
  else if name = "int" then some .int
  else if name = "double" then some .float
  else if name = "string" then some .string
  else if name = "void" then some .void
  else none

/-- The type that a name denotes: a keyword, a qualified name, or a name in one of the namespaces or
in `System`. -/
def lookup (namespaces : List Text) : Option Ty :=
  (keyword? name).or ((u.find? name).or
    ((namespaces ++ [("System" : Text)]).findSome? fun ns => u.find? (ns ++ "." ++ name)))

def isNamespace (ns : Text) : Bool :=
  u.named.any fun e => e.1.startsWith (ns ++ ".")

def isListName : Bool :=
  name == "List" || name == "IList" || name == "IEnumerable"
    || name == "System.Collections.Generic.List"

/-- `parse` on a text shorter than `fuel`. -/
def parseWithin (u : Universe) (namespaces : List Text) :
    Nat → Text → TypeTable → Except TypeNameError Ty × TypeTable
  | 0, _, table => (.error .empty, table)
  | fuel + 1, s, table =>
    let s := s.trim
    let within (inner : Text) (build : Ty → TypeTable → Ty × TypeTable) :
        Except TypeNameError Ty × TypeTable :=
      match u.parseWithin namespaces fuel inner table with
      | (.error e, table) => (.error e, table)
      | (.ok t, table) => let (built, table) := build t table; (.ok built, table)
    if s.isEmpty then (.error .empty, table)
    else if let some inner := s.dropEnd? "?" then within inner fun t table => table.nullable t
    else if let some inner := s.dropEnd? "[]" then within inner fun t table => table.listOf t
    else if let some body := s.dropEnd? ">" then
      match body.cut? "<" with
      | none => (.error (.malformed s), table)
      | some (generic, arg) =>
        if isListName generic then within arg fun t table => table.listOf t
        else (.error (.unknownGeneric generic), table)
    else match u.lookup s namespaces with
      | some t => (.ok t, table)
      | none => (.error (.undefined s), table)

def parse (s : Text) (namespaces : List Text) (table : TypeTable) :
    Except TypeNameError Ty × TypeTable :=
  u.parseWithin namespaces (s.length + 1) s table

end Universe

end Bindery
