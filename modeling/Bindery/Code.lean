import Bindery.Error

/-!
# Script texts with slots

`Code` is the text of a script with named slots in it. A slot may have a text that stands there
when no value is supplied. What is said about a slot the first time its name is used holds for all
of them.
-/

namespace Bindery

structure Slot where
  name : Text
  default : Option Text := none
deriving DecidableEq

inductive Segment where
  | text (t : Text)
  | slot (name : Text)
deriving DecidableEq

structure Code where
  segments : List Segment := []
  slots : List Slot := []
deriving DecidableEq

namespace Code

variable (c : Code)

def slot? (name : Text) : Option Slot := c.slots.find? fun s => s.name == name

def appendText (t : Text) : List Segment → List Segment
  | [] => [.text t]
  | [.text u] => [.text (u ++ t)]
  | s :: rest => s :: appendText t rest

def addText (t : Text) : Code :=
  if t.isEmpty then c else { c with segments := appendText t c.segments }

def addSlot (c : Code) (s : Slot) : Code where
  segments := c.segments ++ [.slot s.name]
  slots := if (c.slot? s.name).isSome then c.slots else c.slots ++ [s]

/-- `addSlot` for names that are not known to be non-empty. -/
def addNamedSlot (s : Slot) : Except Fault Code :=
  if s.name.isEmpty then .error (.crash (some "script: empty slot name")) else .ok (c.addSlot s)

def ofText (t : Text) : Code := addText {} t

def slot (name : Text) : Slot := (c.slot? name).getD { name }

def lastByte? : Option UInt8 :=
  match c.segments.getLast? with
  | some (.text t) => t.bytes.getLast?
  | _ => none

def append (c d : Code) : Code :=
  d.segments.foldl (fun c seg => match seg with
    | .text t => c.addText t
    | .slot name => c.addSlot (d.slot name)) c

def parameters : List Text :=
  (c.segments.filterMap fun
    | .slot name => some name
    | .text _ => none).eraseDups

def isConstant : Bool :=
  c.segments.all fun
    | .text _ => true
    | .slot _ => false

/-- The text of a slot that is not supplied: its own, or its name in double braces. -/
def slotText (name : Text) : Text :=
  (c.slot name).default.getD ("\x7b\x7b" ++ name ++ "\x7d\x7d")

def text (c : Code) : Text :=
  Text.concat (c.segments.map fun
    | .text t => t
    | .slot name => c.slotText name)

def resolve (values : Record Text) : Except Error Text :=
  Text.concat <$> c.segments.mapM fun
    | .text t => .ok t
    | .slot name => match values.lookup name with
      | some v => .ok v
      | none => match (c.slot name).default with
        | some d => .ok d
        | none => .error (.plain ("no value for script parameter " ++ name.quote))

def assign (name value : Text) : Code :=
  c.segments.foldl (fun d seg => match seg with
    | .text t => d.addText t
    | .slot n => if n == name then d.addText value else d.addSlot (c.slot n)) {}

end Code

end Bindery
