import Bindery.Script

/-!
# Structural text of scripts

`Script.dump` writes a script so that scripts of the same structure have the same text. Marks are
left out.
-/

namespace Bindery

def Literal.dump : Literal → Text
  | .null => "#null"
  | .bool b => if b then "#true" else "#false"
  | .int n => "#" ++ Text.ofInt n.toInt
  | .float x => "#" ++ Value.floatLayout.render x ++ "f"
  | .text t => "#" ++ t.quote

namespace Script

def head : Script → Text
  | .ident _ n => n
  | .literal _ v => v.dump
  | .symbol _ n _ => "\x7b\x7b" ++ n ++ "\x7d\x7d"
  | .member _ _ n => "." ++ n
  | .index .. => "index"
  | .call .. => "call"
  | .construct .. => "new"
  | .unary _ op _ => "u" ++ op.text
  | .binary _ op _ _ => "b" ++ op.text
  | .cond .. => "conditional"
  | .array .. => "array"
  | .object _ ps => "object" ++ Text.concat (ps.map fun (k, _) => " " ++ k.quote)
  | .paren .. => "paren"
  | .function _ ps _ => "function " ++ Text.join "," ps
  | .arrow _ ps _ => "arrow " ++ Text.join "," ps
  | .sequence .. => "sequence"

def isLeaf : Script → Bool
  | .ident .. => true
  | .literal .. => true
  | .symbol .. => true
  | _ => false

def dump : Script → Text :=
  fold fun s kids =>
    if s.isLeaf then s.head
    else "(" ++ s.head ++ Text.concat (kids.map fun k => " " ++ k) ++ ")"

end Script

end Bindery
