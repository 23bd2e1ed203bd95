import Bindery.Ty

/-!
# Constructed types

Nullable, list and function types are built once each: a table holds every constructed type under
its name, and a request for a name that the table has is answered from it. So of two classes with
one name, the list type of the one that was asked for first serves both.
-/

namespace Bindery

structure TypeTable where
  entries : Record Ty := []

namespace TypeTable

def find? (table : TypeTable) (name : Text) : Option Ty :=
  (table.entries.find? fun e => e.1 == name).map (·.2)

def insert (table : TypeTable) (t : Ty) : TypeTable := ⟨(t.name, t) :: table.entries⟩

/-- The type of `t`'s name in the table, which is `t` if there was none. -/
def intern (t : Ty) (table : TypeTable) : Ty × TypeTable :=
  match table.find? t.name with
  | some found => (found, table)
  | none => (t, table.insert t)

def nullable (t : Ty) (table : TypeTable) : Ty × TypeTable :=
  if t.isNullable then (t, table) else table.intern (.nullable t)

def funcOf (params : List Ty) (result : Ty) (table : TypeTable) : Ty × TypeTable :=
  table.intern (.func params result)

def listOf (elem : Ty) (table : TypeTable) : Ty × TypeTable :=
  match table.find? ("List<" ++ elem.name ++ ">") with
  | some found => (found, table)
  | none =>
    let (predicate, table) := table.funcOf [elem] .bool
    table.intern (.list elem predicate)

end TypeTable

end Bindery
