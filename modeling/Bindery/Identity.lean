import Bindery.Digest.Sha256
import Bindery.Digest.Base64
import Bindery.Scope

/-!
# Identities of bindings

The identity of a binding is a digest of what tells it apart: its index among its siblings, its
source, its scope and the property that declares it. `Identity.canonical` is the text that is
digested. `Siblings` counts the bindings of each syntax tree and scope.
-/

namespace Bindery

structure Identity where
  index : Option Int := none
  code : Text
  scope : Option Scope
  property : Text := ∅

namespace Identity

def separator : Text := " || "

/-- Index, code, scope and property with separators between them; `-` stands for no index. -/
def canonical (i : Identity) : Text :=
  let index : Text := match i.index with
    | some n => Text.ofInt n
    | none => "-"
  let scope : Text := match i.scope with
    | some s => s.describe
    | none => ∅
  index ++ separator ++ i.code ++ separator ++ scope ++ separator ++ i.property

def size : Nat := 12

def compute (i : Identity) : Text :=
  Digest.base64 ((Digest.sha256 i.canonical.bytes).take size)

end Identity

/-- The number of bindings so far, by syntax tree and scope. Scopes that are not told apart share a
count. -/
structure Siblings where
  counts : List ((Text × Text) × Nat) := []

namespace Siblings

def count (s : Siblings) (key : Text × Text) : Nat := (s.counts.lookup key).getD 0

def next (s : Siblings) (root : Text) (scope : Scope) : Nat × Siblings :=
  let key := (root, scope.describe)
  let n := s.count key
  (n, ⟨(key, n + 1) :: s.counts.filter fun e => e.1 != key⟩)

def size (s : Siblings) : Nat := s.counts.length

end Siblings

end Bindery
