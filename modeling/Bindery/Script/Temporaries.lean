import Bindery.Script.Dump

/-!
# Temporaries

`Script.hoist` makes sure that no subexpression with a call in it is evaluated twice. The first
evaluation of a repeated subexpression is assigned to a temporary, and later ones that it dominates
read the temporary:

    f(x) == null ? null : f(x).y   =>   ((a) => (a = f(x)) == null ? null : a.y)()

Temporaries are the parameters of a function that is called at once. The body of each function in
the script gets temporaries of its own.

An occurrence dominates another if it is always evaluated first. The branches of a conditional and
the right operands of `&&`, `||` and `??` are evaluated only sometimes, so what is assigned there
can be read outside only in a later branch that is taken under the same condition. The callee of a
method call is never replaced, since that would lose its receiver.
-/

namespace Bindery.Script

/-- The structural texts of all subexpressions with calls outside function bodies, and whether the
script itself is one. -/
def callTexts : Script → Bool × List Text :=
  fold fun s kids =>
    match s with
    | .function .. => (false, [])
    | .arrow .. => (false, [])
    | _ =>
      let isCall := match s with
        | .call .. => true
        | .construct .. => true
        | _ => false
      let calls := isCall || kids.any (·.1)
      let inside := kids.flatMap (·.2)
      (calls, if calls then inside ++ [s.dump] else inside)

/-- The temporaries assigned in one region of a script that is evaluated as a whole, and the regions
of the branches in it, both by structural text. -/
structure Region where
  temps : Record Text := []
  branches : Record Nat := []

/-- The state of hoisting in one function body. Regions are numbered. -/
structure Hoisting where
  /-- The number of temporaries in all bodies so far. -/
  count : Nat := 0
  /-- The texts of subexpressions with calls in this body. -/
  texts : List Text := []
  regions : Array Region := #[]
  /-- The regions around the current place, innermost first. -/
  stack : List Nat := []
  /-- The temporaries of this body. -/
  temps : List Text := []

abbrev Hoister := StateM Hoisting

def placeholder (i : Nat) : Text := "$t" ++ Text.ofNat i

def tempRef (m : Marks) (name : Text) : Script := .ident (({ temp := true } : Marks).merge m) name

namespace Hoister

def region (h : Hoisting) (i : Nat) : Region := h.regions.getD i {}

def innermost (h : Hoisting) : Nat := h.stack.headD 0

def lookup (key : Text) : Hoister (Option Text) := do
  let h ← get
  return h.stack.findSome? fun i => (region h i).temps.lookup key

def modifyRegion (i : Nat) (f : Region → Region) : Hoister Unit :=
  modify fun h => { h with regions := h.regions.modify i f }

def newRegion : Hoister Nat := do
  let h ← get
  set { h with regions := h.regions.push {} }
  return h.regions.size

/-- Runs a step in the region of a branch. If the branch was taken before under the same condition,
the temporaries assigned there are visible. -/
def inBranch {α : Type} (key : Text) (step : Hoister α) : Hoister α := do
  let h ← get
  let outer := h.stack
  match outer.findSome? fun i => (region h i).branches.lookup key with
  | some taken =>
    let fresh ← newRegion
    modify fun h => { h with stack := fresh :: taken :: outer }
  | none =>
    let fresh ← newRegion
    modifyRegion (innermost h) fun r => { r with branches := (key, fresh) :: r.branches }
    modify fun h => { h with stack := fresh :: outer }
  let a ← step
  modify fun h => { h with stack := outer }
  return a

def newTemp (key : Text) : Hoister Text := do
  let h ← get
  let name := placeholder h.count
  set { h with count := h.count + 1, temps := h.temps ++ [name] }
  modifyRegion (innermost h) fun r => { r with temps := (key, name) :: r.temps }
  return name

end Hoister

/-- What tells apart the conditions under which the `i`-th operand of a node is evaluated, if that
is only sometimes. -/
def branchKey (i : Nat) : Script → Option Text
  | .cond _ c _ _ => if 0 < i then some (Text.ofNat i ++ "?" ++ c.dump) else none
  | .binary _ op x _ => if 0 < i && op.isShortCircuit then some (op.text ++ x.dump) else none
  | _ => none

def isAccess : Script → Bool
  | .member .. => true
  | .index .. => true
  | _ => false

/-- The `i`-th operand of a node must keep its shape: it is the member that a call is made of, or
the target of an assignment. -/
def keepsShape (i : Nat) : Script → Bool
  | .call _ f _ => i == 0 && f.isAccess
  | .construct _ f _ => i == 0 && f.isAccess
  | .binary _ op _ _ => i == 0 && op == .assign
  | _ => false

/-- Hoisting in a function body or in the whole script, given the step for it. -/
def hoistBody (body : Script) (step : Bool → Hoister Script) : Hoister Script := do
  let saved ← get
  set { count := saved.count, texts := body.callTexts.2, regions := #[{}], stack := [0]
        temps := [] : Hoisting }
  let out ← step true
  let inner ← get
  set { saved with count := inner.count }
  if inner.temps.isEmpty then return out
  return .call out.marks (.arrow { temp := true } inner.temps out) []

/-- Runs the steps of a node's operands in order, starting with the `i`-th. -/
def hoistOperands (s : Script) : Nat → List (Bool → Hoister Script) → Hoister (List Script)
  | _, [] => return []
  | i, step :: rest => do
    let out ← match branchKey i s with
      | some key => Hoister.inBranch key (step true)
      | none => step (!keepsShape i s)
    return out :: (← hoistOperands s (i + 1) rest)

/-- The step for a node, given those for its operands. The node itself becomes or reads a temporary
only if it is hoistable. -/
def hoistNode (s : Script) (kids : List (Bool → Hoister Script)) (hoistable : Bool) :
    Hoister Script := do
  let inBody : Hoister Script :=
    match s.children, kids with
    | [b], [step] => return s.withChildren [← hoistBody b step]
    | _, _ => return s
  match s with
  | .function .. => inBody
  | .arrow .. => inBody
  | _ =>
    let key := s.dump
    if !hoistable || (← get).texts.count key < 2 then
      return s.withChildren (← hoistOperands s 0 kids)
    match ← Hoister.lookup key with
    | some t => return tempRef s.marks t
    | none =>
      let out := s.withChildren (← hoistOperands s 0 kids)
      let t ← Hoister.newTemp key
      return .binary out.marks .assign (tempRef {} t) out

/-! ## Names -/

/-- The `n`-th name for temporaries: `a` to `z`, then `a1`, `b1` and so on. -/
def tempName (n : Nat) : Text :=
  let letter : Text := ⟨[UInt8.ofNat (0x61 + n % 26)]⟩
  if n < 26 then letter else letter ++ Text.ofNat (n / 26)

def freshName (used : List Text) : Text :=
  let names := (List.range (used.length + 1)).map tempName
  (names.find? fun n => !used.contains n).getD (tempName used.length)

def nameTemps (refs : List Text) : List Text → List Text → Record Text
  | _, [] => []
  | used, t :: ts =>
    if 1 < refs.count t then
      let name := freshName used
      (t, name) :: nameTemps refs (name :: used) ts
    else nameTemps refs used ts

/-- One node with temporaries under their names; those without a name are dropped. -/
def renameNode (names : Record Text) : Script → Script
  | .ident m n => if m.temp then .ident m ((names.lookup n).getD "") else .ident m n
  | .binary m .assign (.ident tm n) y =>
    if tm.temp && n.isEmpty then y else .binary m .assign (.ident tm n) y
  | .call m (.arrow am ps b) as =>
    if am.temp then
      let kept := ps.filterMap fun p => names.lookup p
      if kept.isEmpty then b else .call m (.arrow am kept b) as
    else .call m (.arrow am ps b) as
  | s => s

/-- The script with temporaries for repeated subexpressions that have calls in them. -/
def hoist (s : Script) : Script :=
  let (out, h) := (hoistBody s (s.fold hoistNode)).run {}
  if h.count == 0 then out
  else
    let refs := out.nodes.filterMap fun
      | .ident m n => if m.temp then some n else none
      | _ => none
    let names := nameTemps refs s.identifiers ((List.range h.count).map placeholder)
    out.transform (renameNode names)

end Bindery.Script
