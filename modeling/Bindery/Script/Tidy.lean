import Bindery.Script

/-!
# Tidying

`Script.tidy` drops parentheses, since the printer puts those that are needed, flattens nested
sequences, and turns a negated equality into the opposite one.
-/

namespace Bindery

/-- The operator that holds exactly when the given equality does not. -/
def BinOp.negated? : BinOp → Option BinOp
  | .looseEq => some .looseNe
  | .looseNe => some .looseEq
  | .strictEq => some .strictNe
  | .strictNe => some .strictEq
  | _ => none

namespace Script

def flattenSequence (x : Script) : List Script :=
  match x with
  | .sequence _ xs => xs
  | _ => [x]

def tidyNode : Script → Script
  | .paren m x => x.mark m
  | .unary m .not (.binary bm op x y) =>
    match op.negated? with
    | some op' => .binary m op' x y
    | none => .unary m .not (.binary bm op x y)
  | .sequence m xs => .sequence m (xs.flatMap flattenSequence)
  | s => s

def tidy : Script → Script := transform tidyNode

end Script

end Bindery
