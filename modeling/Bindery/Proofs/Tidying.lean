import Bindery.Proofs.TrackedRuns
import Bindery.Proofs.ScriptLikeness
import Bindery.Script.Printer
import Bindery.Script.Tidy

/-!
# What tidying keeps

A tidy script has no parentheses, no negated equalities and no sequences directly inside sequences,
apart from the scripts that stand in for symbols. Tidying gives a tidy script (`Script.tidy_isTidy`)
and leaves tidy scripts as they are (`Script.tidy_eq_self`). Scripts without empty sequences mean
the same after it.

Runs of a script and of the tidy script are compared in lockstep (`Comparison.lockstep`): they make
the same things, read the same cells and assign to the same variables, in the same order. Values
differ in the bodies of functions only, which may be tidy or not (`Client.Value.Tidied`).
-/

namespace Bindery.Script

/-! ## Tidy scripts -/

def isSequence : Script → Bool
  | .sequence .. => true
  | _ => false

/-- The node is not in parentheses, is no negated equality and has no sequence directly in a
sequence. -/
def IsTidy : Script → Prop
  | .paren .. => False
  | .unary _ .not (.binary _ op _ _) => op.negated? = none
  | .sequence _ xs => ∀ x ∈ xs, x.isSequence = false
  | _ => True

def isFilled : Script → Bool
  | .sequence _ [] => false
  | _ => true

def isFull (s : Script) : Bool := s.nodes.all isFilled

theorem tidy_eq (s : Script) : s.tidy = tidyNode (s.withChildren (s.children.map tidy)) := by
  rw [tidy, transform, fold_eq]

/-- What tidying does with one node. -/
inductive NodeTidied : Script → Script → Prop
  | paren (m : Marks) (x : Script) : NodeTidied (.paren m x) (x.mark m)
  | negated (m m' : Marks) {op op' : BinOp} (h : op.negated? = some op') (x y : Script) :
    NodeTidied (.unary m .not (.binary m' op x y)) (.binary m op' x y)
  | sequence (m : Marks) (xs : List Script) :
    NodeTidied (.sequence m xs) (.sequence m (xs.flatMap flattenSequence))
  | same {s : Script} (h : s.IsTidy) : NodeTidied s s

theorem nodeTidied (s : Script) : NodeTidied s (tidyNode s) := by
  cases s with
  | paren m x => exact .paren m x
  | unary m op x =>
    cases op with
    | not =>
      cases x with
      | binary m' op x y =>
        rw [tidyNode]
        split
        · exact .negated m m' ‹_› x y
        · exact .same ‹_›
      | _ => exact .same trivial
    | _ => exact .same trivial
  | sequence m xs => exact .sequence m xs
  | _ => exact .same trivial

theorem children_mark (s : Script) (m : Marks) : (s.mark m).children = s.children := by
  cases s <;> rfl

theorem isTidy_mark (s : Script) (m : Marks) : (s.mark m).IsTidy ↔ s.IsTidy := by
  cases s with
  | unary n op x => cases op <;> cases x <;> rfl
  | _ => rfl

theorem isFilled_mark (s : Script) (m : Marks) : (s.mark m).isFilled = s.isFilled := by
  cases s with
  | sequence n xs => cases xs <;> rfl
  | _ => rfl

theorem bare_mark (s : Script) (m : Marks) : (s.mark m).bare = s.bare := by
  cases s with
  | symbol n t d => cases d <;> rfl
  | _ => rfl

theorem flattenSequence_eq {s : Script} (h : s.isSequence = false) : flattenSequence s = [s] := by
  cases s <;> first | rfl | cases h

namespace NodeTidied

variable {s t : Script}

theorem isTidy (ht : NodeTidied s t) (h : ∀ x ∈ s.children, ∀ n ∈ x.nodes, n.IsTidy) :
    ∀ n ∈ t.nodes, n.IsTidy := by
  have operand {x : Script} (hx : x ∈ s.children) := forall_mem_nodes.1 (h x hx)
  cases ht with
  | paren m x =>
    have hx := operand (List.mem_singleton_self x)
    refine forall_mem_nodes.2 ⟨(isTidy_mark x m).2 hx.1, ?_⟩
    rw [children_mark]
    exact hx.2
  | negated m m' hop x y =>
    exact forall_mem_nodes.2 ⟨trivial, (operand (List.mem_singleton_self _)).2⟩
  | sequence m xs =>
    -- An item is an operand or an operand of one, which is tidy and so has no sequences.
    have hitem {y : Script} (hy : y ∈ xs.flatMap flattenSequence) :
        y.isSequence = false ∧ ∀ n ∈ y.nodes, n.IsTidy := by
      obtain ⟨x, hx, hy⟩ := List.mem_flatMap.1 hy
      have htidy := h x hx
      cases x with
      | sequence m' ys =>
        have := forall_mem_nodes.1 htidy
        exact ⟨this.1 y hy, this.2 y hy⟩
      | _ =>
        obtain rfl := List.mem_singleton.1 hy
        exact ⟨rfl, htidy⟩
    exact forall_mem_nodes.2 ⟨fun y hy => (hitem hy).1, fun y hy => (hitem hy).2⟩
  | same hs => exact forall_mem_nodes.2 ⟨hs, h⟩

theorem eq (ht : NodeTidied s t) (h : s.IsTidy) : t = s := by
  cases ht with
  | paren => exact h.elim
  | negated _ _ hop => exact nomatch hop.symm.trans h
  | sequence m xs =>
    have hxs : xs.flatMap flattenSequence = xs.flatMap fun x => [x] :=
      List.flatMap_congr fun x hx => flattenSequence_eq (h x hx)
    rw [hxs, List.flatMap_singleton']
  | same => rfl

theorem isFilled (ht : NodeTidied s t) (hs : s.isFilled)
    (h : ∀ x ∈ s.children, x.isFilled) : t.isFilled := by
  cases ht with
  | paren m x => exact (isFilled_mark x m).trans (h x (by simp [children]))
  | negated => rfl
  | sequence m xs =>
    cases xs with
    | nil => cases hs
    | cons x xs =>
      have hx := h x (by simp [children])
      cases x with
      | sequence m' ys => cases ys <;> first | rfl | cases hx
      | _ => rfl
  | same => exact hs

theorem assigned_eq (ht : NodeTidied s t) : t.assigned = s.assigned := by
  cases ht with
  | paren m x => rw [← assigned_bare, bare_mark, assigned_bare, assigned]
  | @negated _ _ op _ hop => cases op <;> cases hop <;> rfl
  | sequence m xs =>
    simp only [assigned, assignedList_eq_flatMap, List.flatMap_assoc]
    refine List.flatMap_congr fun x _ => ?_
    cases x <;> simp [flattenSequence, assigned, assignedList_eq_flatMap]
  | same => rfl

/-- Apart from parentheses, the kind of a node changes only if it is neither a name nor a
function. -/
theorem root_eq (ht : NodeTidied s t) (hs : ∀ m x, s ≠ .paren m x) :
    t.target? = s.target? ∧ t.isFunction = s.isFunction := by
  cases ht with
  | paren m x => exact absurd rfl (hs m x)
  | negated | sequence | same => exact ⟨rfl, rfl⟩

end NodeTidied

theorem tidy_isTidy (s : Script) : ∀ n ∈ s.tidy.nodes, n.IsTidy := by
  induction s using induct_children with
  | h s ih =>
    rw [tidy_eq]
    refine (nodeTidied _).isTidy fun x hx => ?_
    rw [(reshaped (by simp)).children_eq] at hx
    obtain ⟨y, hy, rfl⟩ := List.mem_map.1 hx
    exact ih y hy

theorem tidy_eq_self {s : Script} (h : ∀ n ∈ s.nodes, n.IsTidy) : s.tidy = s := by
  induction s using induct_children with
  | h s ih =>
    obtain ⟨hs, hkids⟩ := forall_mem_nodes.1 h
    have hmap : s.children.map tidy = s.children :=
      (List.map_congr_left fun x hx => ih x hx (hkids x hx)).trans
        (List.map_id _)
    rw [tidy_eq, hmap, withChildren_children, (nodeTidied s).eq hs]

/-! ## Names and sequences -/

theorem tidy_core (s : Script) : s.tidy.bare = s.core.tidy.bare := by
  cases s with
  | paren m x =>
    have h : (paren m x).tidy = x.tidy.mark m := tidy_eq _
    rw [h, bare_mark, tidy_core x, core]
  | _ => rfl

theorem target?_core (s : Script) : s.target? = s.core.target? := by
  cases s with
  | paren m x => exact target?_core x
  | _ => rfl

/-- Parentheses apart, names stay names and functions stay functions. -/
theorem tidy_core_root (s : Script) : s.core.tidy.target? = s.core.target? ∧
    s.core.tidy.isFunction = s.core.isFunction := by
  have hne := s.core_ne_paren
  generalize s.core = c at hne
  have hroot := (nodeTidied (c.withChildren (c.children.map tidy))).root_eq
    (by cases c <;> first | exact absurd rfl (hne _ _) | exact nofun)
  rw [tidy_eq, hroot.1, hroot.2]
  cases c <;> first | exact absurd rfl (hne _ _) | exact ⟨rfl, rfl⟩

theorem target?_tidy (s : Script) : s.tidy.target? = s.target? := by
  rw [← target?_bare s.tidy, tidy_core, target?_bare, target?_core s, (tidy_core_root s).1]

theorem assigned_tidy (s : Script) : s.tidy.assigned = s.assigned := by
  induction s using induct_children with
  | h s ih =>
    rw [tidy_eq, (nodeTidied _).assigned_eq]
    obtain hs | ⟨m, x, y, rfl⟩ := s.isPure_cases
    · have hkids : (s.children.map tidy).flatMap assigned = s.children.flatMap assigned := by
        rw [List.flatMap_map]
        exact List.flatMap_congr ih
      have hshape : Reshaped s (s.children.map tidy) _ := reshaped (by simp)
      generalize s.withChildren (s.children.map tidy) = z at hshape ⊢
      generalize s.children.map tidy = ys at hshape hkids
      cases hshape with
      | binary m op => cases op <;> first | simpa [assigned, children] using hkids | cases hs
      | _ => simp_all [children, assigned, assignedList_eq_flatMap, assignedProps_eq_flatMap]
    · have hx := ih x (by simp [children])
      have hy := ih y (by simp [children])
      simp [children, withChildren, assigned, target?_tidy, hx, hy]

/-! ## One node -/

open Client

variable (h : Host) (env : Env)

theorem evalList_append (xs ys : List Script) : evalList h env (xs ++ ys) = (do
    let vs ← evalList h env xs
    let ws ← evalList h env ys
    return vs ++ ws) := by
  induction xs with
  | nil => simp [evalList]
  | cons x xs ih => simp [evalList, ih]

/-- The last of the values, or `d`, is the same if sequences are evaluated item by item. -/
theorem evalList_flatten {xs : List Script} (hxs : ∀ x ∈ xs, x.isFilled) (d : Client.Value) :
    (do return (← evalList h env (bareList (xs.flatMap flattenSequence))).getLastD d) =
      (do return (← evalList h env (bareList xs)).getLastD d : Run Client.Value) := by
  induction xs generalizing d with
  | nil => rfl
  | cons x xs ih =>
    have hrest (vs : List Client.Value) :
        (do return (vs ++ (← evalList h env (bareList (xs.flatMap flattenSequence)))).getLastD d) =
          (do return (← evalList h env (bareList xs)).getLastD (vs.getLastD d) :
            Run Client.Value) := by
      rw [← ih (fun y hy => hxs y (List.mem_cons_of_mem x hy))]
      simp [Option.getD_or]
    rw [List.flatMap_cons, bareList_eq_map, List.map_append, ← bareList_eq_map, ← bareList_eq_map,
      evalList_append]
    simp only [bind_assoc, pure_bind, hrest, bareList, evalList, List.getLastD_cons]
    cases x with
    | sequence m ys =>
      cases ys with
      | nil => cases hxs _ List.mem_cons_self
      | cons y ys =>
        simp only [flattenSequence, bareList, bare, evalRef, evalList, bind_assoc, pure_bind,
          List.getLastD_cons]
    | _ => simp [flattenSequence, bareList, evalList]

theorem NodeTidied.evalTarget_eq {s t : Script} (ht : NodeTidied s t) :
    t.bare.evalTarget h env = s.bare.evalTarget h env := by
  cases ht with
  | paren m x =>
    rw [bare_mark]
    rfl
  | negated | sequence | same => rfl

theorem NodeTidied.evalRef_eq {s t : Script} (ht : NodeTidied s t)
    (hs : ∀ x ∈ s.children, x.isFilled) : t.bare.evalRef h env = s.bare.evalRef h env := by
  cases ht with
  | paren m x =>
    rw [bare_mark]
    rfl
  | @negated _ _ op _ hop =>
    cases op <;> cases hop <;>
      simp [bare, evalRef, needsRight, Host.binary, Host.unary, Client.Value.isTrue]
  | sequence m xs =>
    have hlast := evalList_flatten h env (show ∀ x ∈ xs, x.isFilled = true from hs) .undefined
    have := congrArg (fun x : Run Client.Value => do return (Client.Value.undefined, ← x)) hlast
    simpa [bare, evalRef] using this
  | same => rfl

/-! ## Scripts that may have been tidied -/

/-- The second script is the first one, or the first one tidied. -/
inductive Tidied : Script → Script → Prop
  | same (s : Script) : Tidied s s
  | tidy {s : Script} (h : s.isFull) : Tidied s s.tidy

theorem isFull_child {s x : Script} (hs : s.isFull) (hx : x ∈ s.children) : x.isFull :=
  List.all_eq_true.2 fun n hn => List.all_eq_true.1 hs n (nodes_subset hx hn)

theorem isFull_core {s : Script} (hs : s.isFull) : s.core.isFull := by
  cases s with
  | paren m x => exact isFull_core (s := x) (isFull_child hs (by simp [children]))
  | _ => exact hs

theorem tidy_isFilled {s : Script} (hs : s.isFull) : s.tidy.isFilled := by
  induction s using induct_children with
  | h s ih =>
    have hself : s.isFilled := List.all_eq_true.1 hs _ (mem_nodes_self s)
    rw [tidy_eq]
    refine (nodeTidied _).isFilled ?_ fun x hx => ?_
    · cases s with
      | sequence m xs => cases xs <;> first | rfl | cases hself
      | _ => rfl
    · rw [(reshaped (by simp)).children_eq] at hx
      obtain ⟨y, hy, rfl⟩ := List.mem_map.1 hx
      exact ih y hy (isFull_child hs hy)

namespace Tidied

variable {s t : Script}

theorem assigned_eq (h : Tidied s t) : t.bare.assigned = s.bare.assigned := by
  cases h with
  | same => rfl
  | tidy => rw [assigned_bare, assigned_tidy, assigned_bare]

theorem isFunction_eq (h : Tidied s t) : t.core.isFunction = s.core.isFunction := by
  cases h with
  | same => rfl
  | tidy =>
    have hne : ∀ m x, s.core.tidy ≠ .paren m x := fun m x h => by
      have := tidy_isTidy s.core _ (mem_nodes_self _)
      rwa [h] at this
    rw [← isFunction_bare, ← core_bare, tidy_core, core_bare, isFunction_bare, core_eq hne,
      (tidy_core_root s).2]

theorem literal (h : Tidied s t) (hs : s.core.isFunction) :
    ∃ b c, s.core.children = [b] ∧ Tidied b c ∧ t.core.bare = (s.core.withChildren [c]).bare := by
  obtain ⟨b, hb⟩ : ∃ b, s.core.children = [b] := by
    generalize s.core = c at hs
    cases c <;> cases hs <;> exact ⟨_, rfl⟩
  cases h with
  | same => exact ⟨b, b, hb, .same b, by rw [← hb, withChildren_children]⟩
  | tidy hfull =>
    refine ⟨b, b.tidy, hb, .tidy (isFull_child (isFull_core hfull) (by simp [hb])), ?_⟩
    rw [← core_bare, tidy_core, core_bare, tidy_eq, hb]
    generalize s.core = c at hs hb
    cases c <;> cases hs <;> rfl

end Tidied

end Bindery.Script

namespace Bindery.Client

/-! ## Runs in lockstep -/

/-- What a name stands for: nothing, related values that no assignment changes, or the same
variable. -/
inductive SamePlace (R : Value → Value → Prop) : Option Slot → Option Slot → Prop
  | none : SamePlace R none none
  | fixed {v w : Value} : R v w → SamePlace R (some (.fixed v)) (some (.fixed w))
  | place (i : Nat) : SamePlace R (some (.place i)) (some (.place i))

/-- The values are equal, except that bodies of functions in the second one may have been tidied. -/
inductive Value.Tidied : Value → Value → Prop
  | of_alike {v w : Value} (hclosure : v.isClosure = false)
    (h : PathAlike (· = ·) (· = ·) Value.Tidied v w) : Value.Tidied v w
  | closure (i : Nat) (ps : List Text) {b c : Script} {ρ η : Env} (hbody : b.Tidied c)
    (henv : ∀ n, SamePlace Value.Tidied (List.lookup n ρ) (List.lookup n η)) :
    Value.Tidied (.closure i ps b.bare ρ) (.closure i ps c.bare η)

/-- Names stand for the same variables, and for values that are equal up to tidying. -/
def Env.Tidied (ρ η : Env) : Prop := ∀ n, SamePlace Value.Tidied (ρ.lookup n) (η.lookup n)

/-- The states are equal, except that the bodies of functions may have been tidied. -/
structure State.Tidied (s t : State) : Prop where
  vars : List.Forall₂ (Option.Rel Value.Tidied) s.vars t.vars
  fresh : s.fresh = t.fresh
  reads : s.reads = t.reads
  unset : s.unset = t.unset

/-- Two runs do the same, step by step. Unless exceptions count, the second one may do anything from
where the first one throws. -/
def Comparison.lockstep (strict : Prop := True) : Comparison where
  World := Unit
  le _ _ := True
  sameId _ := (· = ·)
  fits _ := State.Tidied
  strict := strict
  varies := True
  le_refl _ := trivial
  le_trans _ _ := trivial
  sameId_mono _ h := h
  fits_mono h := (h trivial).elim
  fits_read path _ h := { h with reads := congrArg (path :: ·) h.reads }
  fits_fresh h := ⟨(), trivial, h.fresh, { h with fresh := congrArg (· + 1) h.fresh }⟩

theorem environment_lockstep : environment.Parametric .lockstep :=
  environmentWith_parametric <| sameRel_identical (K := .lockstep)
    (fun h h' => Eq.trans (Eq.symm h) h') fun h h' => Eq.trans h (Eq.symm h')

/-- The environment with a note, for each call that it makes, of what kind the receiver is. -/
def Environment.noting (E : Environment) : Environment :=
  { E with call := fun c f this args => do
      Run.noteRead this.typeName
      E.call c f this args }

theorem noting_lockstep {E : Environment} (hE : E.Parametric .lockstep) :
    E.noting.Parametric .lockstep where
  host hR hc := hE.host hR hc
  call hR hc _ _ _ _ _ _ hclosure hf hthis hargs :=
    (Comparison.Rel.noteRead fun _ => (hR.alike hthis).typeName_eq).bind fun _ _ _ hle _ =>
      hE.call hR (hc.mono hle) hclosure (hR.mono hle hf) (hR.mono hle hthis) (hR.forall₂ hle hargs)

/-- The environment with functions that have their scripts as texts. -/
def Environment.sourced (E : Environment) : Environment :=
  { E with primitive := fun c preferText v =>
      match v with
      | .closure _ ps body _ => return .text ((Script.arrow {} ps body).format false).text
      | v => E.primitive c preferText v }

/-- The second run does the same as the first one. -/
abbrev Run.Lockstep (strict : Prop) {α β : Type} (Q : α → β → Prop) (x : Run α)
    (y : Run β) : Prop :=
  (Comparison.lockstep strict).Rel () (fun _ => Q) x y

theorem Run.Lockstep.agree {α β : Type} {Q : α → β → Prop} {x : Run α} {y : Run β}
    (h : Run.Lockstep True Q x y) {s t : State} (hst : s.Tidied t) :
    Agree Q (x.run.run s).1 (y.run.run t).1 ∧ (x.run.run s).2.Tidied (y.run.run t).2 := by
  have := h s t hst
  rcases hx : x.run.run s with ⟨_ | a, s'⟩ <;> rcases hy : y.run.run t with ⟨_ | b, t'⟩ <;>
    rw [hx, hy] at this
  · exact ⟨trivial, (this trivial).choose_spec.fits⟩
  · exact absurd trivial this
  · exact this.elim
  · exact ⟨this.choose_spec.2, this.choose_spec.1.fits⟩

variable {strict : Prop}

namespace Value.Tidied

theorem family (strict : Prop) : Family (.lockstep strict) fun _ => Value.Tidied where
  alike h := by
    cases h with
    | of_alike _ h => exact h
    | closure i => exact .closure rfl ..
  of_alike := .of_alike
  mono _ h := h

theorem undefined : Value.Tidied .undefined .undefined := (family True).undefined (w := ())

end Value.Tidied

theorem comes_lockstep {s t s' t' : State} (h : s'.Tidied t') :
    (Comparison.lockstep strict).Comes () s t () s' t' :=
  ⟨fun h => absurd trivial h, fun h => absurd trivial h, trivial, h⟩

theorem load_lockstep (i : Nat) : Run.Lockstep strict Value.Tidied (Run.load i) (Run.load i) := by
  intro s t hst
  have hget : Option.Rel Value.Tidied (s.vars.getD i none) (t.vars.getD i none) := by
    have hvars := hst.vars
    generalize s.vars = vs at hvars
    generalize t.vars = us at hvars
    induction hvars generalizing i with
    | nil => exact .none
    | cons h _ ih => cases i <;> first | exact h | exact ih _
  rw [Run.run_load, Run.run_load]
  generalize s.vars.getD i none = v at hget
  generalize t.vars.getD i none = u at hget
  cases hget with
  | some hv => exact ⟨(), comes_lockstep hst, hv⟩
  | none => exact ⟨(), comes_lockstep { hst with unset := congrArg (· + 1) hst.unset }, .undefined⟩

theorem store_lockstep (i : Nat) {v u : Value} (hv : v.Tidied u) :
    Run.Lockstep strict (fun _ _ => True) (Run.store i v) (Run.store i u) := by
  intro s t hst
  refine ⟨(), comes_lockstep { hst with vars := ?_ }, trivial⟩
  change List.Forall₂ (Option.Rel Value.Tidied) (s.vars.set i (some v)) (t.vars.set i (some u))
  have hvars := hst.vars
  generalize s.vars = vs at hvars
  generalize t.vars = us at hvars
  induction hvars generalizing i with
  | nil => exact .nil
  | cons h hrest ih => cases i <;> first | exact .cons (.some hv) hrest | exact .cons h (ih _)

theorem alloc_lockstep {v u : Option Value} (hv : Option.Rel Value.Tidied v u) :
    Run.Lockstep strict (· = ·) (Run.alloc v) (Run.alloc u) := fun _ _ hst =>
  ⟨(), comes_lockstep { hst with vars := List.rel_append hst.vars (.cons hv .nil) },
    hst.vars.length_eq⟩

namespace Env.Tidied

variable {ρ η : Env}

theorem cons (h : Env.Tidied ρ η) (p : Text) {a b : Slot}
    (hab : SamePlace Value.Tidied (some a) (some b)) : Env.Tidied ((p, a) :: ρ) ((p, b) :: η) := by
  intro n
  simp only [List.lookup_cons]
  split
  · exact hab
  · exact h n

theorem of_rel (h : Env.Rel Value.Tidied (fun _ => True) ρ η) : Env.Tidied ρ η := by
  intro n
  have hslot := h n trivial
  generalize ρ.lookup n = a, η.lookup n = b at hslot
  cases hslot with
  | none => exact .none
  | fixed h => exact .fixed h

theorem of_isGiven {base : Nat} (h : Env.isGiven base ρ) : Env.Tidied ρ ρ :=
  of_rel (.of_isGiven ((Value.Tidied.family True).likeness ()) (fun _ _ => rfl) _ h)

end Env.Tidied

theorem bindParams_lockstep (assigned ps : List Text) {vs us : List Value}
    (hvs : List.Forall₂ Value.Tidied vs us) {ρ η : Env} (henv : Env.Tidied ρ η) :
    Run.Lockstep strict Env.Tidied (bindParams assigned ps vs ρ) (bindParams assigned ps us η) := by
  induction ps generalizing vs us ρ η with
  | nil => exact .pure henv
  | cons p ps ih =>
    obtain ⟨hhead, hheadD, htail⟩ : Option.Rel Value.Tidied vs.head? us.head? ∧
        Value.Tidied (vs.headD .undefined) (us.headD .undefined) ∧
        List.Forall₂ Value.Tidied vs.tail us.tail := by
      cases hvs with
      | nil => exact ⟨.none, .undefined, .nil⟩
      | cons h hrest => exact ⟨.some h, h, hrest⟩
    simp only [bindParams]
    split
    · refine (alloc_lockstep hhead).bind fun _ i j _ hij => ?_
      subst hij
      exact ih htail (henv.cons p (.place i))
    · exact ih htail (henv.cons p (.fixed hheadD))

section Hosts

variable {h h' : Host} (hh : HostRel (.lockstep strict) () (fun _ => Value.Tidied) h h') {ρ η : Env}
  (henv : Env.Tidied ρ η)

include hh henv

theorem name_lockstep (n : Text) : Run.Lockstep strict Value.Tidied (h.name ρ n) (h'.name η n) := by
  have hslot := henv n
  have hglobal := hh.global (x := ()) trivial n
  unfold Host.name
  generalize List.lookup n ρ = a at hslot
  generalize List.lookup n η = b at hslot
  cases hslot with
  | fixed hv => exact .pure hv
  | place i => exact load_lockstep i
  | none =>
    simp only
    generalize h.global n = a at hglobal
    generalize h'.global n = b at hglobal
    cases hglobal with
    | some hv => exact .pure hv
    | none => exact .throw _ _

/-- Both assignments are to the same name, or to properties of values that are equal up to
tidying. -/
inductive Target.Tidied : Target → Target → Prop
  | name (n : Text) : Target.Tidied (.name n) (.name n)
  | property {v v' k k' : Value} (hv : v.Tidied v') (hk : k.Tidied k') :
    Target.Tidied (.property v k) (.property v' k')

theorem assign_lockstep {v u : Value} (hv : v.Tidied u) {a b : Target} (hab : a.Tidied b) :
    Run.Lockstep strict (fun _ _ => True) (h.assign ρ v a) (h'.assign η u b) := by
  cases hab with
  | property hw hk => exact hh.store (x := ()) trivial hw hk hv
  | name n =>
    have hslot := henv n
    simp only [Host.assign]
    generalize List.lookup n ρ = a at hslot
    generalize List.lookup n η = b at hslot
    cases hslot with
    | place i => exact store_lockstep i hv
    | _ => exact .throw _ _

end Hosts

end Bindery.Client

namespace Bindery.Script

open Client

variable {strict : Prop} {h h' : Host} {ρ η : Env}

theorem eval_lockstep (hh : HostRel (.lockstep strict) () (fun _ => Client.Value.Tidied) h h')
    (henv : Env.Tidied ρ η) {x y : Script} (hxy : x.Tidied y) :
    PairFollows (.lockstep strict) () (fun _ => Client.Value.Tidied) h ρ h' η x y ∧
      Run.Lockstep strict Target.Tidied (x.bare.evalTarget h ρ) (y.bare.evalTarget h' η) := by
  have hR := Client.Value.Tidied.family strict
  induction x using induct_size generalizing ρ η y with
  | h x ih =>
    -- Bodies of functions and what stands in for a symbol are no operands, but parts all the same.
    have inPlace {ps : List Text} {b c : Script} {as os : List Script} (hsize : sizeOf b < sizeOf x)
        (hbody : Tidied b c) (hargs : List.Forall₂
          (ValueFollows (.lockstep strict) () (fun _ => Client.Value.Tidied) h ρ h' η) as os) :
        Run.Lockstep strict (PairRel Client.Value.Tidied)
          (evalList h ρ (bareList as) >>= evalInPlace h ρ ps b.bare)
          (evalList h' η (bareList os) >>= evalInPlace h' η ps c.bare) := by
      refine (evalList_follows hR hargs).bind fun _ vs us _ hvs => ?_
      rw [evalInPlace, evalInPlace, hbody.assigned_eq]
      refine (bindParams_lockstep _ ps hvs henv).bind fun _ ρ' η' _ henv' => ?_
      exact ((ih b hsize henv' hbody).1 () trivial).bind fun _ p q _ hpq =>
        .pure ⟨Client.Value.Tidied.undefined, hpq.2⟩
    have child {z z' : Script} (hz : z ∈ x.children) (hzz' : z.Tidied z') :=
      ih z (sizeOf_lt_of_mem_children hz) henv hzz'
    have target {os : List Script} (hos : List.Forall₂ Tidied x.children os) :
        Run.Lockstep strict Target.Tidied (x.bare.evalTarget h ρ)
          ((x.withChildren os).bare.evalTarget h' η) := by
      have hshape : Reshaped x os (x.withChildren os) := reshaped hos.length_eq.symm
      generalize x.withChildren os = out at hshape
      cases hshape with
      | ident m n => exact .pure (.name n)
      | symbol m n d =>
        cases d with
        | none => exact .throw _ _
        | some d => exact (ih d (by simp; omega) henv (.same d)).2
      | paren m z =>
        obtain _ | ⟨hz, -⟩ := hos
        exact (child (by simp [children]) hz).2
      | member m z n =>
        obtain _ | ⟨hz, -⟩ := hos
        exact ((child (by simp [children]) hz).1 () trivial).bind fun _ _ _ _ hpq =>
          .pure (.property hpq.2 (hR.of_isPrimitive (w := ()) rfl))
      | index m z k =>
        obtain _ | ⟨hz, _ | ⟨hk, -⟩⟩ := hos
        refine ((child (by simp [children]) hz).1 () trivial).bind fun _ _ _ _ hpq => ?_
        exact ((child (by simp [children]) hk).1 () trivial).bind fun _ _ _ _ hk =>
          .pure (.property hpq.2 hk.2)
      | _ => exact .throw _ _
    have node {os : List Script} (hos : List.Forall₂ Tidied x.children os) :
        PairFollows (.lockstep strict) () (fun _ => Client.Value.Tidied) h ρ h' η x
          (x.withChildren os) := by
      have hshape : Reshaped x os (x.withChildren os) := reshaped hos.length_eq.symm
      have hvalues := forall₂_imp_mem hos fun z hz z' hzz' => (child hz hzz').1.value
      generalize x.withChildren os = out at hshape
      have same (hpure : x.isPure) (hfun : x.isFunction = false)
          (hsymbol : ∀ m n d, x ≠ .symbol m n d) (hcallee : ∀ m f as m' g bs, x = .call m f as →
            out = .call m' g bs → f.core.isFunction = false ∧ g.core.isFunction = false) :
          PairFollows (.lockstep strict) () (fun _ => Client.Value.Tidied) h ρ h' η x out := by
        refine fun _ _ => evalRef_reshaped hh hR hshape (fun _ n _ => name_lockstep hh henv n) hpure
          hfun hsymbol hvalues ?_ hcallee
        intro _ a as c cs ha hc
        rw [ha, hc] at hos
        obtain _ | ⟨hac, -⟩ := hos
        exact (child (by simp [ha]) hac).1
      cases hshape with
      | symbol m n d =>
        cases d with
        | none => exact fun _ _ => .throw _ _
        | some d => exact fun w hle => (ih d (by simp; omega) henv (.same d)).1 w hle
      | function m ps b o | arrow m ps b o =>
        obtain _ | ⟨hbody, -⟩ := hos
        exact fun _ _ => closure_follows hR fun _ hij => hij ▸ .closure _ ps hbody henv
      | call m f as g hlen =>
        obtain _ | ⟨hfg, -⟩ := hos
        obtain _ | ⟨-, hargs⟩ := hvalues
        cases hfun : f.core.isFunction with
        | false =>
          refine same rfl rfl (by rintro _ _ _ ⟨⟩) fun _ _ _ _ _ _ hf hg => ?_
          cases hf
          cases hg
          exact ⟨hfun, hfg.isFunction_eq ▸ hfun⟩
        | true =>
          obtain ⟨b, c, hb, hbc, hg⟩ := hfg.literal hfun
          have hsize := sizeOf_core_le f
          intro _ _
          rw [bare, bare, evalRef_call_core, evalRef_call_core, core_bare, core_bare, hg]
          generalize f.core = f₁ at hfun hb hsize
          cases f₁ <;> cases hfun <;> cases hb <;>
            exact inPlace (by simp at hsize ⊢; omega) hbc hargs
      | binary m op l r o p =>
        by_cases hop : op = .assign
        · subst hop
          obtain _ | ⟨hl, _⟩ := hos
          obtain _ | ⟨_, _ | ⟨hr, _⟩⟩ := hvalues
          intro _ _
          refine (child (by simp [children]) hl).2.bind fun _ a b _ hab => ?_
          refine (hr () trivial).bind fun _ p q _ hpq => ?_
          exact (assign_lockstep hh henv hpq hab).bind fun _ _ _ _ _ =>
            .pure ⟨Client.Value.Tidied.undefined, hpq⟩
        · exact same (by cases op <;> first | rfl | exact absurd rfl hop) rfl (by rintro _ _ _ ⟨⟩)
            (by rintro _ _ _ _ _ _ ⟨⟩)
      | _ => exact same rfl rfl (by rintro _ _ _ ⟨⟩) (by rintro _ _ _ _ _ _ ⟨⟩)
    cases hxy with
    | same =>
      have hos : List.Forall₂ Tidied x.children x.children := List.forall₂_same.2 fun z _ => .same z
      have hnode := node hos
      have htarget := target hos
      rw [withChildren_children] at hnode htarget
      exact ⟨hnode, htarget⟩
    | tidy hfull =>
      have hshape : Reshaped x (x.children.map Script.tidy) _ := reshaped (by simp)
      have hfilled : ∀ z ∈ (x.withChildren (x.children.map Script.tidy)).children,
          z.isFilled := by
        rw [hshape.children_eq]
        simpa using fun z hz => tidy_isFilled (isFull_child hfull hz)
      have hos : List.Forall₂ Tidied x.children (x.children.map Script.tidy) :=
        List.forall₂_map_right_iff.2 (List.forall₂_same.2 fun z hz => .tidy (isFull_child hfull hz))
      rw [tidy_eq]
      refine ⟨fun w hle => ?_, ?_⟩
      · rw [(nodeTidied _).evalRef_eq h' η hfilled]
        exact node hos w hle
      · rw [(nodeTidied _).evalTarget_eq]
        exact target hos

theorem callWithin_lockstep {E E' : Environment} (hE : E.Rel (· = ·) (.lockstep strict) E')
    (depth : Nat) : CallerRel (.lockstep strict) () (fun _ => Client.Value.Tidied)
      (E.callWithin depth) (E'.callWithin depth) := by
  induction depth with
  | zero => exact fun _ _ _ _ => .throw _ _
  | succ depth ih =>
    intro w f f' this this' args args' _ hf hthis hargs
    cases hf with
    | of_alike hclosure halike =>
      have hclosure' : f'.isClosure = false := halike.isClosure_eq ▸ hclosure
      rw [Environment.callWithin_succ hclosure, Environment.callWithin_succ hclosure']
      exact hE.call (Client.Value.Tidied.family _) ih hclosure
        (.of_alike hclosure halike) hthis hargs
    | closure i ps hbody henv =>
      simp only [Environment.callWithin, hbody.assigned_eq]
      refine (bindParams_lockstep _ ps hargs henv).bind fun _ ρ η _ henv' => ?_
      have hhost := hE.host (Client.Value.Tidied.family _) ih
      exact ((eval_lockstep hhost henv' hbody).1 () trivial).bind fun _ p q _ hpq => .pure hpq.2

/-- A full script and its tidy form run in lockstep, in environments that do. -/
theorem eval_tidy_lockstep {E E' : Environment} (hE : E.Rel (· = ·) (.lockstep strict) E')
    (depth : Nat) (henv : Env.Tidied ρ η) {s : Script} (hs : s.isFull) :
    Run.Lockstep strict Client.Value.Tidied (E.eval depth ρ s) (E'.eval depth η s.tidy) := by
  have hhost := hE.host (Client.Value.Tidied.family _) (callWithin_lockstep hE depth)
  exact ((eval_lockstep hhost henv (.tidy hs)).1 () trivial).bind fun _ p q _ hpq => .pure hpq.2

/-- Tidying gives a tidy script, gives it again when repeated, and keeps what a script does in every
scope and every environment that knows functions by calls of them only: it makes the same things,
reads the same cells and assigns to the same variables in the same order, and gives the same value
or throws. It makes the same calls, too, which an environment may note among the reads
(`Environment.noting`). -/
theorem tidy_spec {s : Script} (hs : s.isFull) :
    (∀ n ∈ s.tidy.nodes, n.IsTidy) ∧ s.tidy.tidy = s.tidy ∧
      ∀ E : Environment, E.Parametric .lockstep → ∀ depth ρ η, Env.Tidied ρ η →
        ∀ σ τ : State, σ.Tidied τ →
          Agree Client.Value.Tidied ((E.eval depth ρ s).run.run σ).1
            ((E.eval depth η s.tidy).run.run τ).1 ∧
          ((E.eval depth ρ s).run.run σ).2.Tidied ((E.eval depth η s.tidy).run.run τ).2 := by
  refine ⟨tidy_isTidy s, tidy_eq_self (tidy_isTidy s), fun E hE depth ρ η henv σ τ hst => ?_⟩
  exact Run.Lockstep.agree (eval_tidy_lockstep hE depth henv hs) hst

/-- A sequence in a sequence, the call of a method in parentheses and a negated equality, where the
method gives the count of a page. -/
def untidy : Script :=
  .sequence {} [.sequence {} [.literal {} .null, .literal {} .null],
    .unary {} .not (.paren {} (.binary {} .looseEq
      (.call {} (.paren {} (.member {} (.ident {} "page") "count")) []) (.literal {} .null)))]

def pageScope : Env := [("page", .fixed (.object 0 [("count", .cell 1 "Count" (.bool true))]))]

theorem tidy_spec_untidy : (∀ n ∈ untidy.tidy.nodes, n.IsTidy) ∧ untidy.tidy.tidy = untidy.tidy ∧
      ((environment.noting.eval 1 pageScope untidy.tidy).run.run {}).2.reads =
        ["Count", "object"] := by
  obtain ⟨htidy, hagain, hruns⟩ := tidy_spec (s := untidy) (by decide)
  have hpage : Env.Tidied pageScope pageScope :=
    .of_isGiven (show Env.isGiven 2 pageScope = true by decide)
  have hrun := hruns _ (noting_lockstep environment_lockstep) 1 _ _ hpage {} {}
    ⟨.nil, rfl, rfl, rfl⟩
  refine ⟨htidy, hagain, hrun.2.reads.symm.trans ?_⟩
  decide +kernel

/-- Where a function can be told by its script, tidying shows. -/
theorem tidy_shows_sourced :
    let s : Script :=
      .binary {} .add (.literal {} (.text ∅)) (.arrow {} [] (.paren {} (.ident {} "a")))
    s.isFull ∧ ((environment.sourced.eval 1 [] s).run.run {}).1 = .ok (.text "()=>(a)") ∧
      ((environment.sourced.eval 1 [] s.tidy).run.run {}).1 = .ok (.text "()=>a") :=
  ⟨rfl, rfl, rfl⟩

end Bindery.Script
