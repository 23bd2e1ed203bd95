import Bindery.Proofs.ExpressionParts

/-!
# The shape of guarded expressions

`Expr.guardNulls` keeps the nodes of an expression, leaves no access on a receiver that may be null,
and binds each new variable by one guard and uses it once, in the body of this guard
(`Expr.GuardsAdded`). The proof goes over the list of all nodes, which is that of a node and of its
children (`Expr.nodes_eq`).
-/

namespace Bindery

namespace Expr

variable {k : Nat} {p : Expr → Bool} {xs : List Expr} {x e : Expr}

/-! ## Children -/

/-- The variables that the node itself names. -/
def locals : Expr → List Nat
  | .var l => [l.id]
  | .lambda ps _ _ => ps.map (·.id)
  | .guard _ v _ _ => [v.id]
  | _ => []

def binds (k : Nat) : Expr → Bool
  | .guard _ v _ _ => v.id == k
  | _ => false

def reads (k : Nat) : Expr → Bool
  | .var l => l.id == k
  | _ => false

theorem of_withChildren (hp : p = binds k ∨ p = reads k) (e : Expr) (xs : List Expr) :
    p (e.withChildren xs) = p e := by
  rcases hp with rfl | rfl <;> fun_cases withChildren e xs <;> rfl

/-! ## Variables -/

theorem nextLocal_mem (h : x ∈ xs) : x.nextLocal ≤ nextLocalList xs := by
  induction xs with
  | nil => simp at h
  | cons y ys ih =>
    simp only [nextLocalList]
    rcases List.mem_cons.1 h with rfl | h
    · exact Nat.le_max_left ..
    · exact Nat.le_trans (ih h) (Nat.le_max_right ..)

theorem nextLocal_child (h : x ∈ e.children) : x.nextLocal ≤ e.nextLocal := by
  cases e <;> simp only [children, List.mem_cons, List.not_mem_nil, or_false] at h <;>
    simp only [nextLocal] <;> grind [→ nextLocal_mem, le_foldl_locals]

theorem lt_foldl_locals {ps : List Local} {l : Local} (h : l ∈ ps) (n : Nat) :
    l.id < ps.foldl (fun n l => max n (l.id + 1)) n := by
  induction ps generalizing n with
  | nil => simp at h
  | cons p ps ih =>
    rcases List.mem_cons.1 h with rfl | h
    · exact Nat.lt_of_lt_of_le (Nat.le_max_right n _) (le_foldl_locals ps _)
    · exact ih h _

theorem locals_lt (h : k ∈ e.locals) : k < e.nextLocal := by
  cases e <;> simp only [locals, List.not_mem_nil, List.mem_singleton, List.mem_map] at h
  case lambda ps b t =>
    obtain ⟨l, hl, rfl⟩ := h
    exact lt_foldl_locals hl _
  all_goals simp only [nextLocal]; omega

theorem mem_locals (hp : p = binds k ∨ p = reads k) (h : p e) : k ∈ e.locals := by
  rcases hp with rfl | rfl <;> cases e <;> simp_all [binds, reads, locals]

theorem exists_guard_of_binds (h : e.binds k) : ∃ x v b t, e = .guard x v b t ∧ v.id = k := by
  cases e with
  | guard x v b t => exact ⟨x, v, b, t, rfl, by simpa [binds] using h⟩
  | _ => simp [binds] at h

theorem nodes_locals_lt {a : Expr} (ha : a ∈ e.nodes) (hk : k ∈ a.locals) : k < e.nextLocal := by
  induction e using induction_children with
  | h e ih =>
    rw [nodes_eq, List.mem_cons, List.mem_flatMap] at ha
    obtain rfl | ⟨x, hx, ha⟩ := ha
    · exact locals_lt hk
    · exact Nat.lt_of_lt_of_le (ih x hx ha) (nextLocal_child hx)

/-! ## Guards over nodes -/

theorem not_of_receiver (h : e.receiver? = some x) (hp : p = binds k ∨ p = reads k) :
    p e = false := by
  rcases hp with rfl | rfl <;> cases e <;> simp_all [receiver?, binds, reads]

theorem counts_guard (hp : p = binds k ∨ p = reads k) (x : Expr) (v : Local) (b : Expr) (t : Ty) :
    ((if p (.guard x v b t) then 1 else 0) + if p (.var v) then 1 else 0) =
      if v.id = k then 1 else 0 := by
  rcases hp with rfl | rfl <;> simp [binds, reads]

/-- The receiver of the node is not null, and what the node guards from `base` on is read once in
its body. -/
def Placed (base : Nat) (a : Expr) : Prop :=
  (∀ x, a.receiver? = some x → x.mayBeNull = false) ∧
    ∀ x v b t, a = .guard x v b t → base ≤ v.id → b.nodes.countP (reads v.id) = 1

/-- The nodes `out` are the nodes `ns` under new guards, which bind the variables from `base + n` to
below `base + n'`: each is bound once and read once. -/
structure GuardsAdded (base n n' : Nat) (ns out : List Expr) : Prop where
  le : n ≤ n'
  counts : ∀ k p, p = binds k ∨ p = reads k → out.countP p =
    ns.countP p + if base + n ≤ k ∧ k < base + n' then 1 else 0
  placed : ∀ a ∈ out, a.Placed base

namespace GuardsAdded

variable {base n m n' : Nat} {ns ns' out out' : List Expr}

theorem nil (base n : Nat) : GuardsAdded base n n [] [] where
  le := Nat.le_refl n
  counts k p _ := by simp
  placed := by simp

theorem append (h : GuardsAdded base n m ns out) (h' : GuardsAdded base m n' ns' out') :
    GuardsAdded base n n' (ns ++ ns') (out ++ out') where
  le := Nat.le_trans h.le h'.le
  counts k p hp := by
    have := h.le
    have := h'.le
    rw [List.countP_append, List.countP_append, h.counts k p hp, h'.counts k p hp]
    grind
  placed := List.forall_mem_append.2 ⟨h.placed, h'.placed⟩

theorem trans (h : GuardsAdded base n m ns out) (h' : GuardsAdded base m n' out out') :
    GuardsAdded base n n' ns out' where
  le := Nat.le_trans h.le h'.le
  counts k p hp := by
    have := h.le
    have := h'.le
    rw [h'.counts k p hp, h.counts k p hp]
    grind
  placed := h'.placed

theorem node (h : GuardsAdded base n n' ns out) (he : e.receiver? = none) (hb : e.nextLocal ≤ base)
    (xs : List Expr) : GuardsAdded base n n' (e :: ns) (e.withChildren xs :: out) where
  le := h.le
  counts k p hp := by
    rw [List.countP_cons, List.countP_cons, h.counts k p hp, of_withChildren hp]
    omega
  placed := by
    refine List.forall_mem_cons.2 ⟨⟨fun x hx => ?_, fun x v b t hg hv => ?_⟩, h.placed⟩
    · have := isNone_receiver?_withChildren e xs
      simp [hx, he] at this
    · -- The guard is one of the expression, so its variable comes before the new ones.
      have hbind : e.binds v.id := by
        rw [← of_withChildren (.inl rfl) e xs, hg]
        simp [binds]
      have hlt : v.id < e.nextLocal := locals_lt (mem_locals (.inl rfl) hbind)
      omega

section Access

variable {build : Expr → Expr} {extra : List Expr}
  (hnodes : ∀ y, (build y).nodes = build y :: (y.nodes ++ extra))
  (hrecv : ∀ y, (build y).receiver? = some y)

include hnodes hrecv

/-- An access of a receiver that is not null. -/
theorem access_nonNull (he : e.mayBeNull = false)
    (hplaced : ∀ a ∈ extra ++ e.nodes, a.Placed base) :
    GuardsAdded base n n (extra ++ e.nodes) (build e).nodes where
  le := Nat.le_refl n
  counts k p hp := by
    simp only [hnodes, List.countP_cons, List.countP_append, not_of_receiver (hrecv e) hp]
    grind
  placed := by
    rw [hnodes]
    refine List.forall_mem_cons.2 ⟨⟨fun x hx => ?_, fun x v b t hg => ?_⟩, fun a ha => ?_⟩
    · rw [hrecv] at hx
      cases hx
      exact he
    · have := hrecv e
      rw [hg] at this
      cases this
    · exact hplaced a (List.perm_append_comm.mem_iff.1 ha)

/-- An access inside the innermost guard of its receiver. The other operands do not read the
variables of the receiver's guards. -/
theorem access (hnew : extra.countP (reads (base + n)) = 0) (c : GuardChain)
    (hc : ∀ x v b t, .guard x v b t ∈ c.toExpr.nodes → base ≤ v.id →
      v.id < base + n ∧ extra.countP (reads v.id) = 0)
    (hplaced : ∀ a ∈ extra ++ c.toExpr.nodes, a.Placed base) :
    GuardsAdded base n ((accessGuarded base build c).run n).2 (extra ++ c.toExpr.nodes)
      ((accessGuarded base build c).run n).1.toExpr.nodes := by
  induction c with
  | done e =>
    cases he : e.mayBeNull with
    | true =>
      let v := guardVar base n e.type
      have hrun : (accessGuarded base build (.done e)).run n =
          (.guarded e v (.done (build (.var v))), n + 1) := by
        simp only [accessGuarded, he]; rfl
      have hvar : GuardsAdded base n n (extra ++ [.var v]) (build (.var v)).nodes :=
        access_nonNull hnodes hrecv (e := .var v) (by simp [mayBeNull, v, guardVar]) fun a ha => by
          rcases List.mem_append.1 ha with ha | ha
          · exact hplaced a (List.mem_append_left _ ha)
          · cases List.mem_singleton.1 ha
            exact ⟨by rintro _ ⟨⟩, by rintro _ _ _ _ ⟨⟩⟩
      rw [hrun]
      simp only [GuardChain.toExpr, nodes_guard] at hplaced ⊢
      have hread : (build (.var v)).nodes.countP (reads v.id) = 1 := by
        rw [hvar.counts v.id _ (.inr rfl), List.countP_append]
        simp [hnew, reads, v, guardVar]
      refine ⟨Nat.le_succ n, fun k p hp => ?_, List.forall_mem_cons.2 ⟨⟨by rintro _ ⟨⟩, ?_⟩,
        List.forall_mem_append.2 ⟨(List.forall_mem_append.1 hplaced).2, hvar.placed⟩⟩⟩
      · have hpair := counts_guard hp e v (build (.var v)) (build (.var v)).type
        simp only [List.countP_cons, List.countP_append, hvar.counts k p hp, List.countP_nil]
        grind [guardVar]
      · rintro _ _ _ _ ⟨⟩ _
        exact hread
    | false =>
      have hrun : (accessGuarded base build (.done e)).run n = (.done (build e), n) := by
        simp only [accessGuarded, he]; rfl
      rw [hrun]
      exact access_nonNull hnodes hrecv he hplaced
  | guarded x v rest ih =>
    simp only [GuardChain.toExpr, nodes_guard, List.mem_cons, List.mem_append] at hc hplaced
    have hrest := ih (fun y w b t hg => hc y w b t (.inr (.inr hg)))
      fun a ha => hplaced a ((List.mem_append.1 ha).imp_right fun h => .inr (.inr h))
    have hrun : (accessGuarded base build (.guarded x v rest)).run n =
        (.guarded x v ((accessGuarded base build rest).run n).1,
          ((accessGuarded base build rest).run n).2) := rfl
    rw [hrun]
    simp only [GuardChain.toExpr, nodes_guard]
    refine ⟨hrest.le, fun k p hp => ?_, List.forall_mem_cons.2 ⟨⟨by rintro _ ⟨⟩, ?_⟩,
      List.forall_mem_append.2 ⟨fun a ha => hplaced a (.inr (.inr (.inl ha))), hrest.placed⟩⟩⟩
    · have hhead : ∀ b t, p (.guard x v b t) = p (.guard x v rest.toExpr rest.toExpr.type) := by
        rcases hp with rfl | rfl <;> exact fun _ _ => rfl
      simp only [List.countP_cons, List.countP_append, hrest.counts k p hp, hhead]
      omega
    · -- The accesses put into the body of the guard do not read its variable.
      rintro _ _ _ _ ⟨⟩ hv
      have hold := (hplaced _ (.inr (.inl rfl))).2 _ _ _ _ rfl hv
      have hbound := hc _ _ _ _ (.inl rfl) hv
      rw [hrest.counts v.id _ (.inr rfl), List.countP_append, hold, hbound.2, if_neg (by omega)]

end Access

end GuardsAdded

theorem countP_eq_zero {ns : List Expr} {base : Nat} (h : ∀ a ∈ ns, ∀ l ∈ a.locals, l < base)
    (hk : base ≤ k) (hp : p = binds k ∨ p = reads k) : ns.countP p = 0 := by
  refine List.countP_eq_zero.2 fun a ha hpa => ?_
  have := h a ha k (mem_locals hp hpa)
  omega

theorem guardList_adds {base : Nat}
    (h : ∀ x ∈ xs, ∀ n, GuardsAdded base n (after base n x) x.nodes (x.guarded base n).nodes)
    (n : Nat) : GuardsAdded base n (afterList base n xs) (xs.flatMap nodes)
      ((guardedList base n xs).flatMap nodes) := by
  induction xs generalizing n with
  | nil => exact .nil base n
  | cons x xs ih =>
    have hx := h x List.mem_cons_self n
    exact hx.append (ih (fun y hy => h y (List.mem_cons_of_mem x hy)) (after base n x))

/-- The other operands of an access are guarded before its receiver, so they read none of the
variables that the receiver's guards bind. -/
theorem guardChain_adds_of_receiver {base n : Nat} {extra : List Expr} (he : e.receiver? = some x)
    (hx : e.children = x :: extra) (hb : e.nextLocal ≤ base)
    (hextra : GuardsAdded base n (afterList base n extra) (extra.flatMap nodes)
      ((guardedList base n extra).flatMap nodes))
    (hrecv : GuardsAdded base (afterList base n extra) (after base (afterList base n extra) x)
      x.nodes (x.guarded base (afterList base n extra)).nodes) :
    GuardsAdded base n (after base n e) e.nodes (e.guarded base n).nodes := by
  rw [guarded, after, guardChain_of_receiver he hx]
  generalize afterList base n extra = m at hextra hrecv ⊢
  generalize after base m x = n' at hrecv ⊢
  have hlen y : (y :: guardedList base n extra).length = e.children.length := by
    rw [hx, List.length_cons, List.length_cons, length_guardedList]
  have hnodes : e.nodes = e :: (x.nodes ++ extra.flatMap nodes) := by
    rw [nodes_eq, hx, List.flatMap_cons]
  have hlow : ∀ a ∈ x.nodes ++ extra.flatMap nodes, ∀ l ∈ a.locals, l < base := fun a ha l hl =>
    Nat.lt_of_lt_of_le (nodes_locals_lt (hnodes ▸ List.mem_cons_of_mem e ha) hl) hb
  rw [List.forall_mem_append] at hlow
  have hunread : ∀ k, base + m ≤ k →
      ((guardedList base n extra).flatMap nodes).countP (reads k) = 0 := fun k hk => by
    rw [hextra.counts k _ (.inr rfl), countP_eq_zero hlow.2 (by omega) (.inr rfl),
      if_neg (by omega)]
  have hbound : ∀ y v b t, guard y v b t ∈ (x.guarded base m).nodes → base ≤ v.id →
      v.id < base + n' ∧ ((guardedList base n extra).flatMap nodes).countP (reads v.id) = 0 := by
    intro y v b t hg hv
    have hpos : 0 < (x.guarded base m).nodes.countP (binds v.id) :=
      List.countP_pos_iff.2 ⟨_, hg, by simp [binds]⟩
    rw [hrecv.counts v.id _ (.inl rfl), countP_eq_zero hlow.1 hv (.inl rfl)] at hpos
    split at hpos
    · exact ⟨by omega, hunread v.id (by omega)⟩
    · omega
  have hboth := hextra.append hrecv
  have hall := hboth.trans (.access
    (fun y => by rw [nodes_eq, children_withChildren (hlen y), List.flatMap_cons])
    (fun y => receiver?_withChildren he (hlen y))
    (hunread _ (Nat.add_le_add_left hrecv.le base)) ((guardChain base x).run m).1 hbound
    hboth.placed)
  refine ⟨hall.le, fun k p hp => ?_, hall.placed⟩
  rw [hall.counts k p hp, hnodes, List.countP_cons, List.countP_append, List.countP_append,
    not_of_receiver he hp]
  grind

/-- Guarding adds guards to the nodes of an expression, and changes nothing else. -/
theorem guardChain_adds {base : Nat} (e : Expr) (hb : e.nextLocal ≤ base) (n : Nat) :
    GuardsAdded base n (after base n e) e.nodes (e.guarded base n).nodes := by
  induction e using induction_children generalizing n with
  | h e ih =>
    have hchild x (hx : x ∈ e.children) := ih x hx (Nat.le_trans (nextLocal_child hx) hb)
    cases he : e.receiver? with
    | none =>
      rw [guarded, after, guardChain_of_no_receiver he, nodes_eq e]
      simp only [GuardChain.toExpr]
      rw [nodes_eq (e.withChildren _), children_withChildren (length_guardedList ..)]
      exact (guardList_adds hchild n).node he hb _
    | some x =>
      obtain ⟨extra, hx⟩ := children_of_receiver he
      have hextra := guardList_adds (fun y hy => hchild y (hx ▸ List.mem_cons_of_mem x hy)) n
      exact guardChain_adds_of_receiver he hx hb hextra (hchild x (hx ▸ List.mem_cons_self) _)

/-! ## Expressions without receivers that may be null -/

theorem guardList_of_nonNull {base : Nat}
    (h : ∀ x ∈ xs, ∀ n, (guardChain base x).run n = (.done x, n)) (n : Nat) :
    (guardList base xs).run n = (xs, n) := by
  induction xs with
  | nil => rfl
  | cons x xs ih =>
    have hx := h x List.mem_cons_self n
    have hxs := ih fun y hy => h y (List.mem_cons_of_mem x hy)
    have hrun : (guardList base (x :: xs)).run n =
        ((((guardChain base x).run n).1.toExpr :: ((guardList base xs).run
          ((guardChain base x).run n).2).1), ((guardList base xs).run
            ((guardChain base x).run n).2).2) := rfl
    rw [hrun, hx, hxs]
    rfl

theorem guardChain_of_nonNull (base : Nat) (e : Expr)
    (h : ∀ a ∈ e.nodes, ∀ x, a.receiver? = some x → x.mayBeNull = false) (n : Nat) :
    (guardChain base e).run n = (.done e, n) := by
  induction e using induction_children generalizing n with
  | h e ih =>
    have hchild x (hx : x ∈ e.children) := ih x hx fun a ha =>
      h a (nodes_eq e ▸ List.mem_cons_of_mem e (List.mem_flatMap_of_mem hx ha))
    cases he : e.receiver? with
    | none =>
      rw [guardChain_of_no_receiver he, guardedList, afterList, guardList_of_nonNull hchild,
        withChildren_children]
    | some x =>
      obtain ⟨extra, hx⟩ := children_of_receiver he
      have hextra := guardList_of_nonNull (fun y hy => hchild y (hx ▸ List.mem_cons_of_mem x hy)) n
      have hrecv := hchild x (hx ▸ List.mem_cons_self) n
      have hnull := h e (nodes_eq e ▸ List.mem_cons_self) x he
      rw [guardChain_of_receiver he hx, guardedList, afterList, after, hextra, hrecv]
      simp only [accessGuarded, hnull, ← hx, withChildren_children]
      rfl

/-- Guarding keeps the type of an expression, and no access in the result has a receiver that may be
null. A variable that more guards bind than before is none of the expression's own, is bound by one
guard, and is read nowhere but in the body of this guard. Guarding again changes nothing. -/
theorem guardNulls_shape (e : Expr) : e.guardNulls.type = e.type ∧
      (∀ a ∈ e.guardNulls.nodes, ∀ x, a.receiver? = some x → x.mayBeNull = false) ∧
      (∀ k, e.guardNulls.nodes.countP (binds k) ≠ e.nodes.countP (binds k) →
        (∀ a ∈ e.nodes, k ∉ a.locals) ∧
          ∃ x v b t, e.guardNulls.nodes.filter (binds k) = [.guard x v b t] ∧
            e.guardNulls.nodes.countP (reads k) = b.nodes.countP (reads k)) ∧
      e.guardNulls.guardNulls = e.guardNulls := by
  have h : GuardsAdded e.nextLocal 0 _ e.nodes e.guardNulls.nodes :=
    guardChain_adds e (Nat.le_refl _) 0
  refine ⟨guardNulls_type e, fun a ha => (h.placed a ha).1, fun k hk => ?_, ?_⟩
  · have hlow : ∀ a ∈ e.nodes, ∀ l ∈ a.locals, l < e.nextLocal := fun a ha l => nodes_locals_lt ha
    have hnew := h.counts k _ (.inl rfl)
    split at hnew
    case isFalse => exact absurd hnew hk
    case isTrue hin =>
      refine ⟨fun a ha hl => absurd (hlow a ha k hl) (by omega), ?_⟩
      rw [countP_eq_zero hlow (by omega) (.inl rfl), List.countP_eq_length_filter] at hnew
      obtain ⟨g, hg⟩ := List.length_eq_one_iff.1 hnew
      obtain ⟨hmem, hbind⟩ := List.mem_filter.1 (hg ▸ List.mem_singleton_self g)
      obtain ⟨x, v, b, t, rfl, rfl⟩ := exists_guard_of_binds hbind
      refine ⟨x, v, b, t, hg, ?_⟩
      rw [h.counts v.id _ (.inr rfl), countP_eq_zero hlow (by omega) (.inr rfl), if_pos hin,
        (h.placed _ hmem).2 x v b t rfl (by omega)]
  · have hrun := guardChain_of_nonNull e.guardNulls.nextLocal e.guardNulls
      (fun a ha => (h.placed a ha).1) 0
    rw [guardNulls, hrun]
    rfl

/-- The variable of the second guard in a chain of three accesses. -/
theorem guardNulls_shape_chain : let node : Ty := .declared ⟨"Node", false, 1⟩
    let next : Field := { name := "Next", owner := node, type := node }
    let e := Expr.member (.member (.member (.var { id := 3, name := "x", type := node }) next) next)
      next
    (∀ a ∈ e.guardNulls.nodes, ∀ x, a.receiver? = some x → x.mayBeNull = false) ∧
      (∀ a ∈ e.nodes, 5 ∉ a.locals) ∧
      ∃ x v b t, e.guardNulls.nodes.filter (binds 5) = [.guard x v b t] ∧
        e.guardNulls.nodes.countP (reads 5) = b.nodes.countP (reads 5) := by
  intro node next e
  obtain ⟨-, hnull, hnew, -⟩ := guardNulls_shape e
  exact ⟨hnull, hnew 5 (by decide)⟩

end Expr

end Bindery
