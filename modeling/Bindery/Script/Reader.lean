import Bindery.Source.Parser
import Bindery.Script

/-!
# Scripts from text

Reads a script back from its text. `Script.read?` accepts the expressions that scripts consist of
and no others; parentheses leave no trace, and nodes carry no marks.
-/

namespace Bindery

/-- The text that a name or string literal of a syntax tree stands for. -/
def Text.ofSource (t : Text) : Text := Text.ofChars (Text.chars16 t.unitsOf)

def UnOp.ofText? (s : String) : Option UnOp :=
  [UnOp.plus, .minus, .not, .typeof, .void].find? fun op => op.text == Text.ofString s

def BinOp.ofText? (s : String) : Option BinOp :=
  [BinOp.add, .sub, .mul, .div, .rem, .lt, .le, .gt, .ge, .looseEq, .looseNe, .strictEq, .strictNe,
    .coalesce, .or, .and].find? fun op => op.text == Text.ofString s

def ParamList.names? (ps : ParamList) : Option (List Text) :=
  if ps.hasRest then none else ps.params.mapM fun p => p.map Text.ofSource

namespace Script

mutual

def ofTree? : Tree → Option Script
  | .ident _ n => some (id n.ofSource)
  | .number _ (.int n) => some (lit (.int n))
  | .number _ (.float x) => some (lit (.float x))
  | .number _ (.big _) => none
  | .string _ t => some (lit (.text t.ofSource))
  | .bool _ b => some (lit (.bool b))
  | .null _ => some null
  | .dot x n => do some (dot (← ofTree? x) n.ofSource)
  | .index x k => do some (.index {} (← ofTree? x) (← ofTree? k))
  | .call f args => do some (invoke (← ofTree? f) (← ofTrees? args))
  | .construct _ f args => do some (.construct {} (← ofTree? f) (← ofTrees? args))
  | .unary _ op x => do some (.unary {} (← UnOp.ofText? op) (← ofTree? x))
  | .postfixOp .. => none
  | .binary op x y => do some (bin (← BinOp.ofText? op) (← ofTree? x) (← ofTree? y))
  | .cond c t e => do some (.cond {} (← ofTree? c) (← ofTree? t) (← ofTree? e))
  | .array _ items => do some (.array {} (← ofItems? items))
  | .object _ items => do some (.object {} (← ofProps? items))
  | .arrow _ ps (some body) => do some (.arrow {} (← ps.names?) (← ofTree? body))
  | .arrow _ _ none => none
  | .function _ ps (some body) => do some (.function {} (← ps.names?) (← ofTree? body))
  | .function _ _ none => none
  | .assign op x y =>
    if op == "=" then do some (bin .assign (← ofTree? x) (← ofTree? y)) else none
  | .sequence xs => do some (.sequence {} (← ofTrees? xs))
  | .spread _ => none
  | .other .. => none

def ofTrees? : List Tree → Option (List Script)
  | [] => some []
  | t :: ts => do some ((← ofTree? t) :: (← ofTrees? ts))

def ofItems? : List (Option Tree) → Option (List Script)
  | [] => some []
  | some t :: ts => do some ((← ofTree? t) :: (← ofItems? ts))
  | none :: _ => none

def ofProps? : List ObjectItem → Option (Record Script)
  | [] => some []
  | .keyed (some k) v :: ps => do some ((k.ofSource, ← ofTree? v) :: (← ofProps? ps))
  | .short n :: ps => do some ((n.ofSource, id n.ofSource) :: (← ofProps? ps))
  | _ :: _ => none

end

def read? (code : Text) : Option Script :=
  match Source.parse code with
  | .ok t => ofTree? t
  | .error _ => none

end Script

end Bindery
