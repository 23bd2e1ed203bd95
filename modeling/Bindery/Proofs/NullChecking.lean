import Bindery.Proofs.ScriptLikeness
import Bindery.Proofs.TrackedRuns
import Bindery.Script.NullChecks

/-!
# Null checks keep results

A script with null checks gives what the script itself gives (`Script.eval_checkNulls_ok`), in every
environment in which null and undefined have no members.

A chain under guards follows a run if the guards let pass whatever the run gives a result for, and
what is under them gives that result (`CheckChain.Follows`). An access or a call on the chain goes
under the guards, and the new guard is passed because an access of null throws
(`CheckChain.Follows.extend`).
-/

namespace Bindery.Client

/-- Accesses of null and undefined throw. -/
structure Host.RejectsNull (h : Host) : Prop where
  member {v : Value} {n : Text} {s s' : State} {a : Value} :
    (h.member v n).run.run s = (.ok a, s') → v.isNullish = false
  element {v k : Value} {s s' : State} {a : Value} :
    (h.element v k).run.run s = (.ok a, s') → v.isNullish = false

def Environment.RejectsNull (E : Environment) : Prop := ∀ c, (E.host c).RejectsNull

theorem environment_rejectsNull : environment.RejectsNull := by
  intro c
  constructor
  · intro v n s s' a h
    cases v <;> first | rfl | cases h
  · intro v k s s' a h
    cases v <;> first | rfl | cases h

theorem Host.looseEq_null (h : Host) (v : Value) : h.looseEq v .null = pure v.isNullish := by
  cases v <;> rfl

end Bindery.Client

namespace Bindery.Script

open Client

/-! ## Chains -/

namespace CheckChain

/-- The receivers that are compared with null, the outermost first. -/
def guards : CheckChain → List Script
  | .done _ => []
  | .guarded r rest => r :: rest.guards

def body : CheckChain → Script
  | .done s => s
  | .guarded _ rest => rest.body

variable {build : Script → Script} {check : Bool}

@[simp]
theorem body_extend (C : CheckChain) : (C.extend build check).body = build C.body := by
  induction C with
  | done s =>
    rw [extend]
    split <;> rfl
  | guarded r rest ih => exact ih

theorem mem_guards_extend {C : CheckChain} {g : Script} (h : g ∈ (C.extend build check).guards) :
    g ∈ C.guards ∨ check ∧ g = C.body := by
  induction C with
  | done s =>
    rw [extend] at h
    split at h
    · rename_i hcheck
      obtain rfl := List.mem_singleton.1 h
      exact .inr ⟨(Bool.and_eq_true _ _ ▸ hcheck).1, rfl⟩
    · cases h
  | guarded r rest ih =>
    rcases List.mem_cons.1 h with rfl | h
    · exact .inl List.mem_cons_self
    · exact (ih h).imp_left (List.mem_cons_of_mem r)

end CheckChain

/-! ## What the pass does at a node -/

/-- The script under the guards that the pass puts around it. -/
def checked (s : Script) : CheckChain := s.fold checkNode

def isLink : Script → Bool
  | .member .. | .index .. | .call .. => true
  | _ => false

/-- An access or a call goes under the guards of its receiver; other nodes get checked operands. -/
inductive CheckStep : Script → CheckChain → Prop
  | member (m : Marks) (x : Script) (n : Text) :
    CheckStep (.member m x n) (x.checked.extend (fun y => .member m y n) true)
  | index (m : Marks) (x k : Script) :
    CheckStep (.index m x k) (x.checked.extend (fun y => .index m y k.checkNulls) true)
  | call (m : Marks) (f : Script) (as : List Script) :
    CheckStep (.call m f as) (f.checked.extend (fun g => .call m g (as.map checkNulls)) false)
  | other {s out : Script} (hs : s.isLink = false)
      (h : Reshaped s (s.children.map checkNulls) out) :
    CheckStep s (.done out)

theorem checkStep (s : Script) : CheckStep s s.checked := by
  have hscripts : (s.children.map (fold checkNode)).map CheckChain.toScript =
      s.children.map checkNulls := by
    rw [List.map_map]
    rfl
  have hshape : Reshaped s (s.children.map checkNulls)
      (s.withChildren (s.children.map checkNulls)) :=
    reshaped (List.length_map _)
  rw [checked, fold_eq]
  cases s with
  | member m x n => exact .member m x n
  | index m x k => exact .index m x k
  | call m f as =>
    have hargs : (as.map (fold checkNode)).map CheckChain.toScript = as.map checkNulls := by
      rw [List.map_map]
      rfl
    have hcall := CheckStep.call m f as
    simp only [children, List.map_cons]
    rw [checked] at hcall
    cases hf : f.fold checkNode with
    | done g =>
      rw [hf] at hcall
      simpa [checkNode, CheckChain.extend, withChildren, CheckChain.toScript, hargs] using hcall
    | guarded r rest =>
      rw [hf] at hcall
      simpa [checkNode, hargs] using hcall
  | _ =>
    simp only [checkNode, hscripts]
    exact .other rfl hshape

theorem isFunction_checked {s : Script} (hs : ∀ m x, s ≠ .paren m x) :
    s.checked.body.core.isFunction = s.isFunction := by
  have hstep := checkStep s
  generalize s.checked = C at hstep
  cases hstep with
  | member | index | call => rw [CheckChain.body_extend]; rfl
  | other _ h =>
    generalize s.children.map checkNulls = ys at h
    cases h <;> first | rfl | exact absurd rfl (hs _ _)

/-- The node is as it is before null checks: it assigns nothing and is not in parentheses, and what
stands in for a symbol assigns nothing. -/
def IsCheckable : Script → Prop
  | .symbol _ _ d => ∀ x ∈ d, x.Everywhere (Steady fun _ => True)
  | .binary _ op _ _ => op ≠ .assign
  | .paren .. => False
  | _ => True

def Checkable (s : Script) : Prop := ∀ x ∈ s.nodes, x.IsCheckable

theorem Checkable.child {s x : Script} (hs : s.Checkable) (hx : x ∈ s.children) : x.Checkable :=
  fun y hy => hs y (nodes_subset hx hy)

theorem Checkable.node {s : Script} (hs : s.Checkable) : s.IsCheckable := hs s (mem_nodes_self s)

theorem IsCheckable.steady {s : Script} (hs : s.IsCheckable) : s.Steady fun _ => True := by
  cases s with
  | ident => trivial
  | function | arrow => exact fun _ _ => trivial
  | binary m op x y => cases op <;> first | rfl | exact absurd rfl hs
  | _ => rfl

/-! ## Conditions on nodes -/

/-- The condition does not depend on what the operands of a node are, and holds of the nodes that
passes add where they read cells and compare with null. -/
structure Kept (P : Script → Prop) : Prop where
  reshaped {s out : Script} {xs : List Script} : Reshaped s xs out → P s → P out
  mark {s : Script} {m : Marks} : m.temp = false → P s → P (s.mark m)
  library : P (Script.id "ko")
  unwrap (x : Script) : P (x.dot "unwrap")
  invoke (f : Script) (as : List Script) : P (Script.invoke f as)
  literal {v : Literal} : (∀ t, v ≠ .text t) → P (lit v)
  test (x y : Script) : P (bin .looseEq x y)
  cond (t : Option Ty) (c x y : Script) : P (.cond { type := t } c x y)

theorem CheckChain.default_ne_text (t : Option Ty) (u : Text) : default t ≠ .text u := by
  cases t with
  | none => rintro ⟨⟩
  | some t =>
    simp only [default, Option.map_some, Option.getD_some, Ty.default]
    repeat' split
    all_goals rintro ⟨⟩

namespace Kept

variable {P : Script → Prop} {s out : Script} {xs : List Script} (hP : Kept P)

include hP

theorem everywhere_reshaped (hs : s.Everywhere P) (h : Reshaped s xs out)
    (hxs : ∀ x ∈ xs, x.Everywhere P) : out.Everywhere P := by
  have hnode := hP.reshaped h hs.node
  have hchildren : ∀ x ∈ out.children, x.Everywhere P := h.children_eq ▸ hxs
  cases h with
  | symbol => exact hs
  | _ => exact .mk hnode hchildren

theorem toScript {C : CheckChain} (hguards : ∀ g ∈ C.guards, g.Everywhere P)
    (hbody : C.body.Everywhere P) : C.toScript.Everywhere P := by
  induction C with
  | done s => exact hbody
  | guarded r rest ih =>
    rw [CheckChain.guards, List.forall_mem_cons] at hguards
    have hnull : Script.null.Everywhere P := .mk (hP.literal nofun) nofun
    have htest : (bin .looseEq r Script.null).Everywhere P :=
      .mk (hP.test ..) (List.forall_mem_cons.2 ⟨hguards.1, List.forall_mem_singleton.2 hnull⟩)
    have hdefault : (lit (CheckChain.default rest.type?)).Everywhere P :=
      .mk (hP.literal (CheckChain.default_ne_text _)) nofun
    refine .mk (hP.cond ..) (List.forall_mem_cons.2 ⟨htest, List.forall_mem_cons.2 ⟨hdefault, ?_⟩⟩)
    exact List.forall_mem_singleton.2 (ih hguards.2 hbody)

theorem checked (hs : s.Everywhere P) :
    (∀ g ∈ s.checked.guards, g.Everywhere P) ∧ s.checked.body.Everywhere P := by
  induction s using induct_children with
  | h s ih =>
    have hchain : ∀ x ∈ s.children, (∀ g ∈ x.checked.guards, g.Everywhere P) ∧
        x.checked.body.Everywhere P := fun x hx => ih x hx (hs.part (mem_parts_of_mem_children hx))
    have hchecked : ∀ x ∈ s.children, x.checkNulls.Everywhere P := fun x hx =>
      hP.toScript (hchain x hx).1 (hchain x hx).2
    have extend {C : CheckChain} {build : Script → Script} {check : Bool}
        (hC : (∀ g ∈ C.guards, g.Everywhere P) ∧ C.body.Everywhere P)
        (hbuild : (build C.body).Everywhere P) :
        (∀ g ∈ (C.extend build check).guards, g.Everywhere P) ∧
          (C.extend build check).body.Everywhere P := by
      refine ⟨fun g hg => ?_, CheckChain.body_extend C ▸ hbuild⟩
      rcases CheckChain.mem_guards_extend hg with hg | ⟨-, rfl⟩
      · exact hC.1 g hg
      · exact hC.2
    have hstep := checkStep s
    generalize s.checked = C at hstep
    cases hstep with
    | member m x n =>
      have hx := hchain x List.mem_cons_self
      exact extend hx (hP.everywhere_reshaped hs (.member ..) (List.forall_mem_singleton.2 hx.2))
    | index m x k =>
      have hx := hchain x List.mem_cons_self
      have hk := hchecked k (List.mem_cons_of_mem x List.mem_cons_self)
      exact extend hx (hP.everywhere_reshaped hs (.index ..)
        (List.forall_mem_cons.2 ⟨hx.2, List.forall_mem_singleton.2 hk⟩))
    | call m f as =>
      have hf := hchain f List.mem_cons_self
      have has : ∀ y ∈ as.map checkNulls, y.Everywhere P := fun y hy => by
        obtain ⟨a, ha, rfl⟩ := List.mem_map.1 hy
        exact hchecked a (List.mem_cons_of_mem f ha)
      exact extend hf (hP.everywhere_reshaped hs (.call _ _ _ _ (List.length_map _))
        (List.forall_mem_cons.2 ⟨hf.2, has⟩))
    | other _ hshape =>
      refine ⟨nofun, hP.everywhere_reshaped hs hshape fun y hy => ?_⟩
      obtain ⟨x, hx, rfl⟩ := List.mem_map.1 hy
      exact hchecked x hx

theorem checkNulls (hs : s.Everywhere P) : s.checkNulls.Everywhere P :=
  hP.toScript (hP.checked hs).1 (hP.checked hs).2

end Kept

theorem isPure_kept : Kept fun s => s.isPure = true where
  reshaped {s out xs} h hs := by
    cases h with
    | binary m op => cases op <;> first | rfl | cases hs
    | _ => rfl
  mark {s m} _ hs := by
    cases s with
    | binary m op => cases op <;> first | rfl | cases hs
    | _ => rfl
  library := rfl
  unwrap _ := rfl
  invoke _ _ := rfl
  literal _ := rfl
  test _ _ := rfl
  cond _ _ _ _ := rfl

theorem Checkable.isPure {s : Script} (hs : s.Checkable) : s.Everywhere (·.isPure) := by
  induction s using induct_children with
  | h s ih =>
    have hnode := hs.node
    have hchildren : ∀ x ∈ s.children, x.Everywhere (·.isPure) := fun x hx =>
      ih x hx (hs.child hx)
    cases s with
    | symbol m n d =>
      cases d with
      | none => exact .mk rfl nofun
      | some d =>
        exact .mk rfl (List.forall_mem_singleton.2 ((hnode d rfl).mono fun _ h => h.isPure))
    | binary m op => exact .mk (by cases op <;> first | rfl | exact absurd rfl hnode) hchildren
    | _ => exact .mk rfl hchildren

theorem Checkable.assigned_eq_nil {s : Script} (hs : s.Checkable) :
    s.bare.assigned = [] ∧ s.checkNulls.bare.assigned = [] :=
  ⟨assigned_bare_of_pure _ hs.isPure, assigned_bare_of_pure _ (isPure_kept.checkNulls hs.isPure)⟩

/-! ## Chains that follow a run -/

section Chains

variable {K : Comparison} {w : K.World} {R : K.World → Client.Value → Client.Value → Prop}
  {h h' : Host} {ρ η : Env}

/-- The guards are passed where the run gives a result, and what is under them gives the same, now
and later. -/
structure CheckChain.Follows (K : Comparison) (w : K.World)
    (R : K.World → Client.Value → Client.Value → Prop) (h' : Host) (η : Env)
    (x : Run (Client.Value × Client.Value)) (C : CheckChain) : Prop where
  guards {w' : K.World} (hle : K.le w w') {g : Script} (hg : g ∈ C.guards) {s t s' : State}
    {p : Client.Value × Client.Value} (hfits : K.fits w' s t) (hx : x.run.run s = (.ok p, s')) :
    ∃ q t', (g.bare.evalRef h' η).run.run t = (.ok q, t') ∧ (¬ K.varies → Keeps t t') ∧
      q.2.isNullish = false
  body {w' : K.World} (hle : K.le w w') :
    K.Rel w' (fun w => PairRel (R w)) x (C.body.bare.evalRef h' η)

namespace CheckChain.Follows

variable {x : Run (Client.Value × Client.Value)} {C : CheckChain}

theorem mono (hC : C.Follows K w R h' η x) {w' : K.World} (hle : K.le w w') :
    C.Follows K w' R h' η x where
  guards hle' := hC.guards (K.le_trans hle hle')
  body hle' := hC.body (K.le_trans hle hle')

theorem run_guard {g rest : Script} {m : Marks} {d : Literal} {t t' : State}
    {q : Client.Value × Client.Value} (hg : (g.bare.evalRef h' η).run.run t = (.ok q, t'))
    (hq : q.2.isNullish = false) :
    ((Script.cond m (bin .looseEq g Script.null) (lit d) rest).bare.evalRef h' η).run.run t =
      (do
        let (_, v) ← rest.bare.evalRef h' η
        return (Client.Value.undefined, v)).run.run t' := by
  have htest : ((bin .looseEq g Script.null).bare.evalRef h' η).run.run t =
      (.ok (.undefined, .bool false), t') := by
    rw [bin, bare, evalRef_binary (by decide), run_bind_ok hg]
    simp only [needsRight, ↓reduceIte, Script.null, lit, bare, evalRef, pure_bind,
      Client.Value.ofLiteral, Host.binary, Host.looseEq_null, hq]
    rfl
  rw [bare, evalRef, run_bind_ok htest]
  rfl

/-- The whole chain gives what the run gives. -/
theorem toScript (hK : ¬ K.strict ∧ ¬ K.varies) (hC : C.Follows K w R h' η x) :
    K.Rel w (fun w p q => R w p.2 q.2) x (C.toScript.bare.evalRef h' η) := by
  induction C with
  | done s => exact (hC.body (K.le_refl w)).mono fun _ _ _ _ hpq => hpq.2
  | guarded g rest ih =>
    have hrest := ih
      { guards := fun hle _ hg => hC.guards hle (List.mem_cons_of_mem g hg)
        body := fun hle => hC.body hle }
    refine .of_ok hK.1 fun s t s' p hfits hx => ?_
    obtain ⟨q, t₁, hg, hkeeps, hq⟩ := hC.guards (K.le_refl w) List.mem_cons_self hfits hx
    have hkeeps := hkeeps hK.2
    have hfits₁ := K.fits_mono hK.2 hfits (Nat.le_refl _) hkeeps.fresh
    obtain ⟨r, t₂, w', hr, hcomes, hpr⟩ := hrest.ok hfits₁ hx
    refine ⟨(.undefined, r.2), t₂, w', ?_,
      { hcomes with right := fun h => hkeeps.trans (hcomes.right h) }, hpr⟩
    rw [CheckChain.toScript, run_guard hg hq, run_bind_ok hr]
    rfl

/-- A step that is done under the guards follows the step that is done after the run. The guard that
is put around the receiver is passed if the step fails on null. -/
theorem extend (hR : PathFamily (· = ·) K R) (hC : C.Follows K w R h' η x)
    {f : Client.Value × Client.Value → Run (Client.Value × Client.Value)} {build : Script → Script}
    {check : Bool}
    (hbuild : ∀ {w' : K.World}, K.le w w' →
      K.Rel w' (fun w => PairRel (R w)) (x >>= f) ((build C.body).bare.evalRef h' η))
    (hf : check → ∀ {p q : Client.Value × Client.Value} {s s' : State},
      (f p).run.run s = (.ok q, s') → p.2.isNullish = false) :
    (C.extend build check).Follows K w R h' η (x >>= f) where
  guards {w'} hle g hg s t s' q hfits hxf := by
    obtain ⟨p, s₁, hx, hfp⟩ := run_bind_eq_ok hxf
    rcases CheckChain.mem_guards_extend hg with hg | ⟨hcheck, rfl⟩
    · exact hC.guards hle hg hfits hx
    · obtain ⟨q, t', w'', hq, hcomes, hpq⟩ := (hC.body hle).ok hfits hx
      exact ⟨q, t', hq, hcomes.right, (hR.alike hpq.2).isNullish_eq ▸ hf hcheck hfp⟩
  body hle := by
    rw [CheckChain.body_extend]
    exact hbuild hle

end CheckChain.Follows

section Links

variable {s k : Script} {C : CheckChain} {R : K.World → Client.Value → Client.Value → Prop}

theorem CheckChain.Follows.done {x : Run (Client.Value × Client.Value)}
    (hs : ∀ {w' : K.World}, K.le w w' → K.Rel w' (fun w => PairRel (R w)) x (s.bare.evalRef h' η)) :
    (CheckChain.done s).Follows K w R h' η x where
  guards _ _ hg := nomatch hg
  body := hs

variable (hR : PathFamily (· = ·) K R) (hh : HostRel K w R h h')
  (hC : C.Follows K w R h' η (s.bare.evalRef h ρ))

include hR hh hC

theorem CheckChain.Follows.member (hnull : h.RejectsNull) (m : Marks) (n : Text) :
    (C.extend (fun y => .member m y n) true).Follows K w R h' η
      ((Script.member m s n).bare.evalRef h ρ) := by
  rw [bare, evalRef]
  refine hC.extend hR (fun hle => ?_) fun _ p q s₁ s₂ hp => ?_
  · rw [bare, evalRef]
    refine (hC.body hle).bind fun w₁ p q hle₁ hpq => ?_
    exact (hh.member (K.le_trans hle hle₁) n hpq.2).bind fun w₂ v v' hle₂ hv =>
      .pure ⟨hR.mono hle₂ hpq.2, hv⟩
  · obtain ⟨a, s₃, ha, -⟩ := run_bind_eq_ok hp
    exact hnull.member ha

theorem CheckChain.Follows.index (hnull : h.RejectsNull) {k' : Script}
    (hk : ValueFollows K w R h ρ h' η k k') (m : Marks) :
    (C.extend (fun y => .index m y k') true).Follows K w R h' η
      ((Script.index m s k).bare.evalRef h ρ) := by
  rw [bare, evalRef]
  refine hC.extend hR (fun hle => ?_) fun _ p q s₁ s₂ hp => ?_
  · rw [bare, evalRef]
    refine (hC.body hle).bind fun w₁ p q hle₁ hpq => ?_
    refine (hk w₁ (K.le_trans hle hle₁)).bind fun w₂ a b hle₂ hab => ?_
    have hle' := K.le_trans hle (K.le_trans hle₁ hle₂)
    exact (hh.element hle' (hR.mono hle₂ hpq.2) hab).bind fun w₃ v v' hle₃ hv =>
      .pure ⟨hR.mono (K.le_trans hle₂ hle₃) hpq.2, hv⟩
  · obtain ⟨a, s₃, -, ha⟩ := run_bind_eq_ok hp
    obtain ⟨b, s₄, hb, -⟩ := run_bind_eq_ok ha
    exact hnull.element hb

theorem CheckChain.Follows.call (hfun : s.core.isFunction = false)
    (hfun' : C.body.core.isFunction = false) {as bs : List Script}
    (has : List.Forall₂ (ValueFollows K w R h ρ h' η) as bs) (m : Marks) :
    (C.extend (fun g => .call m g bs) false).Follows K w R h' η
      ((Script.call m s as).bare.evalRef h ρ) := by
  rw [← isFunction_bare, ← core_bare] at hfun hfun'
  rw [bare, evalRef_call hfun]
  refine hC.extend hR (fun hle => ?_) (by rintro ⟨⟩)
  rw [bare, evalRef_call hfun']
  refine (hC.body hle).bind fun w₁ p q hle₁ hpq => ?_
  have hle' := K.le_trans hle hle₁
  refine (evalList_follows hR (has.imp fun _ _ hxy => hxy.mono hle')).bind
    fun w₂ vs us hle₂ hvs => ?_
  exact (hh.call (K.le_trans hle' hle₂) (hR.mono hle₂ hpq.2) (hR.mono hle₂ hpq.1) hvs).bind
    fun _ v v' _ hv => .pure ⟨hR.undefined, hv⟩

end Links

/-- Bodies of functions before and after null checks. What stands in for a symbol is not checked. -/
inductive CheckedBody : Script → Script → Prop
  | checked {s : Script} (hs : s.Checkable) : CheckedBody s.bare s.checkNulls.bare
  | same {s : Script} (hs : s.Everywhere (Steady fun _ => True)) : CheckedBody s.bare s.bare

/-- The relation between the values of a script and those of the checked one. -/
def CheckedRel (K : Comparison) (w : K.World) : Client.Value → Client.Value → Prop :=
  Counterpart (· = ·) (K.sameId w) (fun b _ c _ => CheckedBody b c) fun _ => True

theorem CheckedRel.family : Family K (CheckedRel K) := Counterpart.paths

theorem CheckedRel.closure {i j : Nat} (hij : K.sameId w i j) (ps : List Text) {b c : Script}
    (hbody : CheckedBody b c) (henv : Env.Rel (CheckedRel K w) (fun _ => True) ρ η) :
    CheckedRel K w (.closure i ps b ρ) (.closure j ps c η) :=
  Counterpart.closure hij hbody (fun _ _ => trivial) henv

section

variable (hh : HostRel K w (CheckedRel K) h h')
  (henv : Env.Rel (CheckedRel K w) (fun _ => True) ρ η)

include hh henv

theorem default_follows {s : Script} (hs : s.Everywhere (Steady fun _ => True)) :
    PairFollows K w (CheckedRel K) h ρ h' η s s :=
  evalRef_follows CheckedRel.family (fun hij hb _ henv => .closure hij _ (.same hb) henv) s hs hh
    henv

/-- The checked script follows the script itself. -/
theorem Checkable.follows (hK : ¬ K.strict ∧ ¬ K.varies) (hnull : h.RejectsNull) {s : Script}
    (hs : s.Checkable) :
    s.checked.Follows K w (CheckedRel K) h' η (s.bare.evalRef h ρ) := by
  have hR := CheckedRel.family (K := K)
  induction s using induct_size generalizing w ρ η with
  | h s ih =>
    have hchild : ∀ x ∈ s.children,
        x.checked.Follows K w (CheckedRel K) h' η (x.bare.evalRef h ρ) := fun x hx =>
      ih x (sizeOf_lt_of_mem_children hx) hh henv (hs.child hx)
    have hpair : ∀ x ∈ s.children, PairFollows K w (CheckedRel K) h ρ h' η x x.checked.body :=
      fun x hx _ hle => (hchild x hx).body hle
    have hvalue : ∀ x ∈ s.children, ValueFollows K w (CheckedRel K) h ρ h' η x x.checkNulls :=
      fun x hx _ hle => ((hchild x hx).mono hle).toScript hK
    have hvalues : ∀ xs : List Script, (∀ x ∈ xs, x ∈ s.children) →
        List.Forall₂ (ValueFollows K w (CheckedRel K) h ρ h' η) xs (xs.map checkNulls) := by
      intro xs hxs
      rw [List.forall₂_map_right_iff]
      exact List.forall₂_same.2 fun x hx => hvalue x (hxs x hx)
    have henv' {w' : K.World} (hle : K.le w w') : Env.Rel (CheckedRel K w') (fun _ => True) ρ η :=
      henv.mono fun _ _ => hR.mono hle
    -- A function literal that is called is evaluated in place; its body is an operand of an operand.
    have inPlace {m : Marks} {f b : Script} {ps : List Text} {as : List Script}
        (hcall : s = .call m f as) (hb : b ∈ f.children) {w' : K.World} (hle : K.le w w') :
        K.Rel w' (fun w => PairRel (CheckedRel K w))
          (evalList h ρ (bareList as) >>= evalInPlace h ρ ps b.bare)
          (evalList h' η (bareList (as.map checkNulls)) >>=
            evalInPlace h' η ps b.checkNulls.bare) := by
      subst hcall
      have hf : f ∈ (Script.call m f as).children := List.mem_cons_self
      have hcheckable := (hs.child hf).child hb
      have hsize := Nat.lt_trans (sizeOf_lt_of_mem_children hb) (sizeOf_lt_of_mem_children hf)
      have hargs := hvalues as fun x hx => List.mem_cons_of_mem f hx
      refine (evalList_follows hR (hargs.imp fun _ _ hxy => hxy.mono hle)).bind
        fun w₁ vs us hle₁ hvs => ?_
      refine inPlace_follows (X := fun _ => True) hR (by simp [hcheckable.assigned_eq_nil])
        (henv' (K.le_trans hle hle₁)) hvs fun henv₁ => ?_
      exact (ih b hsize (hh.mono (K.le_trans hle hle₁)) henv₁ hcheckable).toScript hK
    have hstep := checkStep s
    generalize hC : s.checked = C at hstep
    cases hstep with
    | member m x n => exact (hchild x List.mem_cons_self).member hR hh hnull m n
    | index m x k =>
      exact (hchild x List.mem_cons_self).index hR hh hnull
        (hvalue k (List.mem_cons_of_mem x List.mem_cons_self)) m
    | call m f as =>
      cases hfun : f.isFunction with
      | true =>
        cases f with
        | function m' ps b | arrow m' ps b => exact .done (inPlace rfl List.mem_cons_self)
        | _ => cases hfun
      | false =>
        have hparen : ∀ m x, f ≠ .paren m x := by
          rintro m x rfl
          exact (hs.child List.mem_cons_self).node
        exact (hchild f List.mem_cons_self).call hR hh (by rwa [core_eq hparen])
          ((isFunction_checked hparen).trans hfun)
          (hvalues as fun x hx => List.mem_cons_of_mem f hx) m
    | other hlink hshape =>
      refine .done fun hle => ?_
      have node (hfun : s.isFunction = false) (hsymbol : ∀ m n d, s ≠ .symbol m n d)
          (hparen : s.usesReceiver = false) := evalRef_reshaped (hh.mono hle) hR hshape
        (fun _ _ _ => (hh.mono hle).name (henv' hle) trivial) hs.node.steady.isPure hfun hsymbol
        ((hvalues _ fun _ hx => hx).imp fun _ _ hxy => hxy.mono hle)
        (fun h => absurd h (by simp [hparen])) (fun m f as m' g bs heq => by subst heq; cases hlink)
      cases s with
      | symbol m n d =>
        cases hshape
        cases d with
        | none => exact .throw _ _
        | some d => exact default_follows hh henv (hs.node d rfl) _ hle
      | function m ps b | arrow m ps b =>
        cases hshape
        exact closure_follows hR fun hle₁ hij =>
          .closure hij ps (.checked (hs.child List.mem_cons_self)) (henv' (K.le_trans hle hle₁))
      | member | index | call => cases hlink
      | paren => exact absurd hs.node not_false
      | _ => exact node rfl nofun rfl

theorem CheckedBody.rel (hK : ¬ K.strict ∧ ¬ K.varies) (hnull : h.RejectsNull) {b c : Script}
    (hb : CheckedBody b c) :
    K.Rel w (fun w p q => CheckedRel K w p.2 q.2) (b.evalRef h ρ) (c.evalRef h' η) := by
  cases hb with
  | checked hs => exact (hs.follows hh henv hK hnull).toScript hK
  | same hs => exact (default_follows hh henv hs).value w (K.le_refl w)

end

theorem CheckedBody.assigned_eq_nil {b c : Script} (hb : CheckedBody b c) :
    b.assigned = [] ∧ c.assigned = [] := by
  cases hb with
  | checked hs => exact hs.assigned_eq_nil
  | same hs =>
    have := assigned_bare_of_pure _ (hs.mono fun _ h => h.isPure)
    exact ⟨this, this⟩

/-- Calls of related functions agree, however deep calls may nest. -/
theorem callWithin_checked {E : Environment} (hK : ¬ K.strict ∧ ¬ K.varies) (hE : E.Parametric K)
    (hnull : E.RejectsNull) (depth : Nat) (w : K.World) :
    CallerRel K w (CheckedRel K) (E.callWithin depth) (E.callWithin depth) :=
  callWithin_counterpart hE (fun hb _ _ => by simp [hb.assigned_eq_nil])
    (fun _ hc hb _ henv => hb.rel (hE.host CheckedRel.family hc) henv hK (hnull _)) depth

end Chains

/-- Null checks keep what a script gives, in every environment whose operations depend on their
operands only and in which accesses of null throw: if the script gives a value, the checked script
gives the same value, up to the bodies of functions. -/
theorem eval_checkNulls_ok {E : Environment} {base : Nat} (hE : E.Parametric (.tracking base))
    (hnull : E.RejectsNull) {s : Script} (hs : s.Checkable) {env : Env}
    (henv : Env.isGiven base env) (depth : Nat) {σ σ' : State} (hσ : base ≤ σ.fresh)
    {v : Client.Value} (hv : (E.eval depth env s).run.run σ = (.ok v, σ')) :
    ∃ v' σ'', (E.eval depth env s.checkNulls).run.run σ = (.ok v', σ'') ∧ E.Follows base v v' := by
  have hK : ¬ (Comparison.tracking base).strict ∧ ¬ (Comparison.tracking base).varies :=
    ⟨not_false, not_false⟩
  have hcall := callWithin_checked hK hE hnull
  have hR := CheckedRel.family (K := .tracking base)
  have henv' := Env.Rel.of_isGiven (hR.likeness (.start base)) (fun _ hi => ⟨rfl, hi⟩)
    (fun _ => True) henv
  have hrel := (hs.follows (hE.host hR (hcall depth _)) henv' hK (hnull _)).toScript hK
  have heval : (Comparison.tracking base).Rel (.start base) (CheckedRel (.tracking base))
      (E.eval depth env s) (E.eval depth env s.checkNulls) :=
    hrel.bind fun _ p q _ hpq => .pure hpq
  obtain ⟨v', σ'', w, hv', -, hvv'⟩ := heval.ok (Pairing.start_below hσ hσ) hv
  exact ⟨v', σ'', hv', _, w, hR, fun depth => hcall depth w, hvv'⟩

/-- Some element of a list in a field has a field that holds; everything on the way may be null. -/
def anyDone : Script :=
  let mayBeNull : Marks := { type := some .any }
  .call {} (.member {} (.member mayBeNull (.ident mayBeNull "list") "items") "some")
    [.arrow {} ["x"] (.member {} (.ident mayBeNull "x") "done")]

def oneDone : Env :=
  [("list", .fixed (.object 0 [("items", .array 1 [.object 2 [("done", .bool true)]])]))]

theorem checkable_anyDone : anyDone.Checkable := by
  have hnodes : anyDone.nodes.all fun
      | .symbol .. | .binary .. | .paren .. => false
      | _ => true := rfl
  intro x hx
  have := List.all_eq_true.1 hnodes x hx
  cases x <;> trivial

/-- Three null checks come into the script, and it still gives true. -/
theorem eval_checkNulls_anyDone : (anyDone.checkNulls.nodes.countP fun
      | .cond .. => true
      | _ => false) = 3 ∧
      ∃ σ, (environment.eval 2 oneDone anyDone.checkNulls).run.run { fresh := 3 } =
        (.ok (.bool true), σ) := by
  refine ⟨by decide +kernel, ?_⟩
  have henv : Env.isGiven 3 oneDone := by decide
  obtain ⟨σ, hplain⟩ : ∃ σ, (environment.eval 2 oneDone anyDone).run.run { fresh := 3 } =
      (.ok (.bool true), σ) := ⟨_, rfl⟩
  obtain ⟨v, σ', hv, hfollows⟩ := eval_checkNulls_ok environment_parametric environment_rejectsNull
    checkable_anyDone henv 2 (Nat.le_refl 3) hplain
  exact ⟨σ', hfollows.eq_of_isPrimitive rfl ▸ hv⟩

end Bindery.Script
