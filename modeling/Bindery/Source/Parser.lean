import Bindery.Source.Parser.Statement
import Bindery.Error

/-!
# Reading the source of a binding

The source is read as if it stood in parentheses, so that an object literal is not taken for a
block. Offsets are those in the source itself.
-/

namespace Bindery.Source

/-- The syntax tree of a source, or what is wrong with it; `unreadable` is the note on a source that
is no script. Offsets in the tree are one too high, for the parenthesis in front. -/
def parse (src : Text) (unreadable : Text := ∅) : Except Error Tree :=
  let fail (note : Text) : Except Error Tree := .error (.source src none note)
  if !src.isUtf8 then fail unreadable
  else match program? ('(' :: src.chars ++ ['\n', ')']) with
    | none => fail unreadable
    | some [.expression t] => .ok t
    | some [_] => fail "not an expression"
    | some _ => fail "not a single expression"

end Bindery.Source
