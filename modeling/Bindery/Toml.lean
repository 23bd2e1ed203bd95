import Bindery.Value

/-!
# TOML documents

A document is a table of values. Tables are filled piece by piece: `Toml.modifyAt` changes the table
at a path, and makes the tables that are missing on the way. A path through an array of tables leads
to the last of them.
-/

namespace Bindery

inductive Toml where
  | text (t : Text)
  | bool (b : Bool)
  | int (n : Int64)
  | float (x : Float)
  /-- A date, a time, or an integer that needs more than 63 bits, as it was written. -/
  | other (t : Text)
  | array (items : List Toml)
  /-- A table, which is closed if it was written in braces. -/
  | table (closed : Bool) (fields : List (Text × Toml))
  /-- An array of tables. -/
  | tables (items : List Toml)
deriving Inhabited

namespace Toml

abbrev Fields := Record Toml

/-- Changes the table at a path from the given table, and makes the tables that are missing. `f`
gets the table and whether it is closed. Fails if the path leads through a value that is no
table. -/
def modifyAt (f : Bool → Fields → Option Fields) : List Text → Bool → Fields → Option Fields
  | [], closed, fs => f closed fs
  | k :: path, closed, fs =>
    match fs.lookup k with
    | none => (modifyAt f path closed []).map fun sub => fs.assign k (.table closed sub)
    | some (.table c sub) => (modifyAt f path c sub).map fun sub => fs.assign k (.table c sub)
    | some (.tables items) =>
      match items.getLast? with
      | some (.table c sub) => (modifyAt f path c sub).map fun sub =>
          fs.assign k (.tables (items.dropLast ++ [.table c sub]))
      | _ => none
    | some _ => none

def isTable : Toml → Bool
  | .table .. => true
  | _ => false

/-- An array. One that holds tables only is an array of tables. -/
def ofItems (items : List Toml) : Toml :=
  if !items.isEmpty && items.all isTable then .tables items else .array items

mutual

def toValue : Toml → Value
  | .text t => .text t
  | .bool b => .bool b
  | .int n => .int n
  | .float x => .float x
  | .other t => .text t
  | .array items => .list none (toValues items)
  | .tables items => .list none (toValues items)
  | .table _ fs => .object none (toFields fs)

def toValues : List Toml → List Value
  | [] => []
  | t :: ts => t.toValue :: toValues ts

def toFields : Record Toml → Record Value
  | [] => []
  | (k, t) :: rest => (k, t.toValue) :: toFields rest

end

end Toml

end Bindery
