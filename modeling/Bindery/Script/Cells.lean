import Bindery.Script

/-!
# Reading cells

The properties of view models on the client are cells, functions that give the value when called.
`Script.resolveCells` reads every cell whose value is needed; the result itself may still be a cell,
and can be asked for as one or not.
-/

namespace Bindery

namespace Script

def global (name : Text) : Script := (Script.id name).notNull

/-- The value that a cell holds. What is only maybe a cell is unwrapped by the client library. -/
def force (s : Script) : Script :=
  let read := match s.marks.cell with
    | some .maybe => invoke (dot (global "ko") "unwrap") [s]
    | _ => invoke s []
  match s.type? with
  | some t => read.typed t
  | none => read

/-- One node with cells read among its operands. Parentheses around a cell are a cell. -/
def readOperands (s : Script) : Script :=
  match s with
  | .paren m x => .paren (m.merge { cell := x.marks.cell }) x
  | _ => s.withChildren (s.children.map fun k => if k.isCell then k.force else k)

end Script

/-- A script in which every cell is read, except for the result. -/
structure Resolved where
  root : Script

def Script.resolveCells (s : Script) : Resolved := ⟨s.transform Script.readOperands⟩

namespace Resolved

variable (r : Resolved)

def isCell : Bool := r.root.marks.cell == some .cell

def mayBeCell : Bool := r.root.isCell

/-- The script, which gives a plain value unless cells are allowed. -/
def variant (allowCell : Bool) : Script :=
  if allowCell || !r.root.isCell then r.root else r.root.force

def wrapped : Script :=
  if r.isCell then r.variant true
  else Script.invoke (Script.dot (Script.global "ko") "pureComputed")
    [.arrow {} [] (r.variant false)]

end Resolved

end Bindery
