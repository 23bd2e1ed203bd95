import Bindery.Proofs.NullPropagation

/-!
# Parts of expressions

An expression is a node over its children (`Expr.children`). What is said of all nodes, such as what
has no server form (`Expr.checked_eq`) or what guards do (`Expr.guardChain_of_no_receiver`), is
proved by induction over the children, with the accesses as the only nodes that are told apart.
-/

namespace Bindery

namespace Expr

variable {e x : Expr} {xs : List Expr} {s : Scope}

/-! ## Children -/

def children : Expr → List Expr
  | .param .. | .var _ | .const .. | .typeRef _ => []
  | .member x _ | .unary _ x | .convert _ x _ | .lambda _ x _ => [x]
  | .call x _ args => x :: args
  | .callStatic _ xs | .list xs _ => xs
  | .index x y _ | .binary _ x y _ | .guard x _ y _ => [x, y]
  | .cond c t e _ => [c, t, e]

/-- The node with other children, as many as it has. -/
def withChildren : Expr → List Expr → Expr
  | .member _ f, [x] => .member x f
  | .call _ m _, x :: args => .call x m args
  | .callStatic m _, args => .callStatic m args
  | .index _ _ t, [x, k] => .index x k t
  | .unary op _, [x] => .unary op x
  | .binary op _ _ t, [x, y] => .binary op x y t
  | .cond _ _ _ ty, [c, t, e] => .cond c t e ty
  | .convert k _ t, [x] => .convert k x t
  | .lambda ps _ t, [x] => .lambda ps x t
  | .list _ t, xs => .list xs t
  | .guard _ v _ t, [x, b] => .guard x v b t
  | e, _ => e

/-- What a member access, an instance call or an element access is applied to. -/
def receiver? : Expr → Option Expr
  | .member x _ | .call x _ _ | .index x _ _ => some x
  | _ => none

theorem nodes_visit (e : Expr) (inside : List (Option Expr)) :
    (walk.visit (fun _ => true) e inside).filterMap id = e :: inside.filterMap id := by
  simp [walk.visit]

theorem nodes_walkList (xs : List Expr) :
    (walkList (fun _ => true) xs).filterMap id = xs.flatMap nodes := by
  induction xs with
  | nil => rfl
  | cons x xs ih => rw [walkList, List.filterMap_append, ih]; rfl

theorem nodes_eq (e : Expr) : e.nodes = e :: e.children.flatMap nodes := by
  cases e <;>
    simp only [nodes, walk, nodes_visit, nodes_walkList, children, List.filterMap_append,
      List.filterMap_nil, List.flatMap_cons, List.flatMap_nil, List.append_nil, List.append_assoc]

theorem nodes_guard (x : Expr) (v : Local) (b : Expr) (t : Ty) :
    (guard x v b t).nodes = .guard x v b t :: (x.nodes ++ b.nodes) := by
  simp [nodes_eq (guard x v b t), children]

theorem withChildren_children (e : Expr) : e.withChildren e.children = e := by
  cases e <;> rfl

theorem children_withChildren (h : xs.length = e.children.length) :
    (e.withChildren xs).children = xs := by
  rcases xs with _ | ⟨x, _ | ⟨y, _ | ⟨z, _ | ⟨w, xs⟩⟩⟩⟩ <;> cases e <;>
    simp_all [children, withChildren]

theorem isNone_receiver?_withChildren (e : Expr) (xs : List Expr) :
    (e.withChildren xs).receiver?.isNone = e.receiver?.isNone := by
  fun_cases withChildren e xs <;> rfl

theorem children_of_receiver (h : e.receiver? = some x) : ∃ extra, e.children = x :: extra := by
  cases e <;> simp_all [receiver?, children]

theorem receiver?_withChildren {y : Expr} (h : e.receiver? = some x)
    (hxs : (y :: xs).length = e.children.length) :
    (e.withChildren (y :: xs)).receiver? = some y := by
  have hnone := isNone_receiver?_withChildren e (y :: xs)
  cases hz : (e.withChildren (y :: xs)).receiver? with
  | none => simp [h, hz] at hnone
  | some z =>
    obtain ⟨extra, hextra⟩ := children_of_receiver hz
    rw [children_withChildren hxs] at hextra
    cases hextra
    rfl

theorem sizeOf_child (h : x ∈ e.children) : sizeOf x < sizeOf e := by
  cases e <;> simp only [children, List.mem_cons, List.not_mem_nil, or_false] at h <;>
    grind [→ List.sizeOf_lt_of_mem]

/-- Induction over the children of a node. -/
theorem induction_children {P : Expr → Prop} (h : ∀ e, (∀ x ∈ e.children, P x) → P e) (e : Expr) :
    P e :=
  h e fun x _ => induction_children h x
termination_by sizeOf e
decreasing_by exact sizeOf_child ‹_›

/-! ## Guards -/

theorem guardChain_of_no_receiver (h : e.receiver? = none) (base n : Nat) :
    (guardChain base e).run n =
      (.done (e.withChildren (guardedList base n e.children)), afterList base n e.children) := by
  cases e <;> first | rfl | simp [receiver?] at h

theorem guardChain_of_receiver {extra : List Expr} (h : e.receiver? = some x)
    (hx : e.children = x :: extra) (base n : Nat) : (guardChain base e).run n =
      (accessGuarded base (fun y => e.withChildren (y :: guardedList base n extra))
        ((guardChain base x).run (afterList base n extra)).1).run
        (after base (afterList base n extra) x) := by
  cases e <;> simp only [receiver?, reduceCtorEq] at h <;>
    simp only [children, List.cons.injEq] at hx <;>
    obtain ⟨rfl, rfl⟩ := hx <;> rfl

theorem length_guardedList (base n : Nat) (xs : List Expr) :
    (guardedList base n xs).length = xs.length := by
  induction xs generalizing n with
  | nil => rfl
  | cons x xs ih => exact congrArg (· + 1) (ih (after base n x))

/-! ## Expressions without a server form -/

/-- Why the node itself has no server form. -/
def checkedHere (s : Scope) : Expr → Except Error Unit
  | .param n owner _ => discard (levelsOut s n owner)
  | .typeRef t => .error (typeNotValue t)
  | .call _ m _ | .callStatic m _ => checked.implemented m
  | _ => .ok ()

theorem checked_eq (s : Scope) (e : Expr) :
    e.checked s = (do checkedList s e.children; e.checkedHere s) := by
  have hend (r : Except Error Unit) : (do r; .ok ()) = r := bind_pure r
  cases e <;> simp only [checked, checkedList, children, checkedHere, hend, ok_bind, bind_assoc]

theorem checkedHere_withChildren (s : Scope) (e : Expr) (xs : List Expr) :
    (e.withChildren xs).checkedHere s = e.checkedHere s := by
  fun_cases withChildren e xs <;> rfl

theorem checkedList_ok_iff : checkedList s xs = .ok () ↔ ∀ x ∈ xs, x.checked s = .ok () := by
  induction xs with
  | nil => simp [checkedList]
  | cons x xs ih =>
    rw [checkedList, bind_ok_iff, List.forall_mem_cons, ← ih]
    exact ⟨fun ⟨_, h⟩ => h, fun h => ⟨(), h⟩⟩

theorem checked_ok_iff :
    e.checked s = .ok () ↔ (∀ x ∈ e.children, x.checked s = .ok ()) ∧ e.checkedHere s = .ok () := by
  rw [checked_eq, bind_ok_iff, ← checkedList_ok_iff]
  exact ⟨fun ⟨_, h⟩ => h, fun h => ⟨(), h⟩⟩

theorem accessGuarded_checked {base k : Nat} (build : Expr → Expr) (rest : Except Error Unit)
    (hbuild : ∀ x, (build x).checked s = (do checked s x; rest)) (c : GuardChain) :
    ((accessGuarded base build c).run k).1.toExpr.checked s = (do c.toExpr.checked s; rest) := by
  induction c with
  | done e =>
    simp only [accessGuarded]
    split
    · change (do checked s e; (build (.var _)).checked s) = _
      rw [hbuild]
      rfl
    · exact hbuild e
  | guarded x v c ih =>
    change (do checked s x; ((accessGuarded base build c).run k).1.toExpr.checked s) = _
    rw [ih]
    simp only [GuardChain.toExpr, checked, bind_assoc]

/-- Guards do not change whether an expression has a server form, nor why it has none. -/
theorem guarded_checked (s : Scope) (base : Nat) (e : Expr) (n : Nat) :
    (e.guarded base n).checked s = e.checked s := by
  induction e using induction_children generalizing n with
  | h e ih =>
    have hlist : ∀ xs ⊆ e.children, ∀ n,
        checkedList s (guardedList base n xs) = checkedList s xs := by
      intro xs hxs
      induction xs with
      | nil => exact fun _ => rfl
      | cons x xs ihs =>
        obtain ⟨hx, hxs⟩ := List.cons_subset.1 hxs
        intro n
        change (do
          checked s (x.guarded base n)
          checkedList s (guardedList base (after base n x) xs)) = _
        rw [ih x hx, ihs hxs]
        rfl
    cases he : e.receiver? with
    | none =>
      rw [guarded, guardChain_of_no_receiver he, GuardChain.toExpr, checked_eq,
        children_withChildren (length_guardedList ..), hlist _ (List.Subset.refl _),
        checkedHere_withChildren, ← checked_eq]
    | some x =>
      obtain ⟨extra, hx⟩ := children_of_receiver he
      have hchildren : x ∈ e.children ∧ extra ⊆ e.children := by simp [hx]
      rw [guarded, guardChain_of_receiver he hx]
      refine (accessGuarded_checked _ (do checkedList s extra; e.checkedHere s)
        (fun y => ?_) _).trans ?_
      · rw [checked_eq, children_withChildren (by simp [hx, length_guardedList]), checkedList,
          hlist _ hchildren.2, checkedHere_withChildren, bind_assoc]
      · rw [checked_eq s e, hx, checkedList, bind_assoc, ← ih x hchildren.1]
        rfl

theorem guardNulls_checked (s : Scope) (e : Expr) : e.guardNulls.checked s = e.checked s :=
  guarded_checked s e.nextLocal e 0

end Expr

end Bindery
