import Bindery.Script

/-!
# Null checks

`Script.checkNulls` guards every member and element access whose receiver has a nullable type:

    r.x   =>   r == null ? d : r.x

where `d` is the default value of the type of the whole chain of accesses. Accesses and calls that
are applied to a guarded chain move into its innermost guard. The receiver then stands twice in the
result.
-/

namespace Bindery.Script

/-- The value of the script may be null. A cell never is, though what it holds may be. -/
def mayBeNull (s : Script) : Bool :=
  !s.marks.notNull && !s.isCell && (s.type?.map Ty.isNullable).getD false

inductive CheckChain where
  | done (s : Script)
  | guarded (recv : Script) (rest : CheckChain)

namespace CheckChain

def type? : CheckChain → Option Ty
  | .done s => s.type?
  | .guarded _ rest => rest.type?

/-- The literal that stands for a chain with a null link. -/
def default (t : Option Ty) : Literal :=
  (Literal.ofValue? ((t.map Ty.default).getD .null)).getD .null

def toScript : CheckChain → Script
  | .done s => s
  | .guarded recv rest =>
    .cond { type := rest.type? } (bin .looseEq recv Script.null) (lit (default rest.type?))
      rest.toScript

/-- `build` applied inside the innermost guard, where the receiver is guarded itself if `check`
holds and it may be null. -/
def extend (build : Script → Script) (check : Bool) : CheckChain → CheckChain
  | .done s =>
    if check && s.mayBeNull then .guarded s (.done (build s)) else .done (build s)
  | .guarded recv rest => .guarded recv (rest.extend build check)

end CheckChain

def checkNode (s : Script) (kids : List CheckChain) : CheckChain :=
  let scripts := kids.map CheckChain.toScript
  match s, kids with
  | .member m _ n, recv :: _ => recv.extend (fun x => .member m x n) true
  | .index m _ _, [recv, key] => recv.extend (fun x => .index m x key.toScript) true
  | .call m _ _, .guarded recv rest :: _ =>
    (CheckChain.guarded recv rest).extend (fun f => .call m f scripts.tail) false
  | _, _ => .done (s.withChildren scripts)

def checkNulls (s : Script) : Script := (s.fold checkNode).toScript

end Bindery.Script
