import Bindery.Server.Eval

/-!
# A sample application

The classes of a small application with lists of customers, its scopes and view models. Bindings can
be tried out on it.
-/

namespace Bindery.Sample

def addressClass : Declared := ⟨"App.Address", false, 2⟩
def customerClass : Declared := ⟨"App.Customer", false, 3⟩
def containerClass : Declared := ⟨"App.ListContainer", false, 4⟩

def address : Ty := .declared addressClass
def customer : Ty := .declared customerClass
def container : Ty := .declared containerClass

def listOf (t : Ty) : Ty := .list t (.func [t] .bool)

def fields (owner : Ty) (fs : Record Ty) : List Field :=
  fs.map fun (name, type) => { name, owner, type }

def addressFields : List Field := fields address [("City", .string), ("Zip", .string)]

def customerFields : List Field :=
  fields customer [("Name", .string), ("Address", address), ("Age", .int),
    ("Score", .nullable .int), ("Active", .bool), ("Tags", listOf .string)]

def containerFields : List Field :=
  fields container [("Items", listOf .string), ("Title", .string), ("Customer", customer),
    ("Customers", listOf customer), ("Numbers", listOf .int), ("Limit", .nullable .int),
    ("Ratio", .float), ("Enabled", .bool)]
    ++ [{ name := "Version", owner := container, type := .int, readOnly := true }]

def catalog : Catalog :=
  ((({} : Catalog).set addressClass { fields := addressFields }).set customerClass
    { fields := customerFields }).set containerClass { fields := containerFields }

def types : Universe where
  named := Universe.initial.named ++ [address, customer, container].map fun t => (t.name, t)
  catalog := catalog

def root : Scope :=
  ⟨{ dataType := container, params := [⟨"_control", .any, false, .control⟩]
     imports := [⟨∅, "App"⟩] }, []⟩

def customers : Scope := root.element (listOf customer)

/-! ## View models -/

def newCustomer (name : Text) (age : Int64) (city : Text) : Value :=
  .object none [("Name", .text name), ("Age", .int age), ("Active", .bool true),
    ("Score", .null), ("Tags", .list none []),
    ("Address", if city.isEmpty then .null
      else .object none [("City", .text city), ("Zip", .text "10000")])]

def newContainer (items : List Text) : Value :=
  .object none [("Items", .list none (items.map .text)), ("Title", .text "Items"),
    ("Customer", newCustomer "Alice" 30 "Prague"),
    ("Customers", .list none [newCustomer "Bob" 41 "Brno", newCustomer "Carol" 25 ""]),
    ("Numbers", .list none [.int 1, .int 2, .int 3]), ("Limit", .null), ("Ratio", .float 0.5),
    ("Enabled", .bool true), ("Version", .int 7)]

/-! ## Members -/

def method? (name : Text) : Option (Operand → List Operand → Except Fault Operand) :=
  if name = "arg0" then some fun _ args => .ok (Method.firstArg args)
  else if name = "recv" then some fun recv _ => .ok recv
  else if name = "fail" then some fun _ _ => .error (Error.plain "call failed")
  else if name = "null" then some fun _ _ => .ok (.value .null)
  else if name = "int7" then some fun _ _ => .ok (.value (.loose (.word 7)))
  else if name = "strings" then some fun _ _ => .ok (.value (.loose (.texts ["x", "y"])))
  else none

/-- Getters of a field, by name: one reads what the object holds under the name of the field. -/
def getter? (name field : Text) : Option (Value → Except Error Value) :=
  if name = "map" then some fun
    | .object _ fs => .ok ((Record.get? field fs).getD .null)
    | _ => .ok .null
  else if name = "fail" then some fun _ => .error (.plain "get failed")
  else none

/-- Setters of a field, by name: one leaves a note of the assignment in the object. -/
def setter? (name field : Text) : Option (Value → Value → Except Error Value) :=
  if name = "map" then some fun recv v => match recv with
    | .object r fs => .ok (.object r (Record.assign ("set:" ++ field) v fs))
    | _ => .ok recv
  else if name = "fail" then some fun _ _ => .error (.plain "set failed")
  else none

/-- A control with an element, the indexes in the collections around it, innermost first, and values
by name. -/
def control (element : Value) (indexes : List Int64) (values : Record Value) : Control :=
  fun p levels => match p.kind with
    | .control => some element
    | .index => (indexes[levels]?).map .int
    | _ => values.lookup p.name

end Bindery.Sample
