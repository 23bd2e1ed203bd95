import Bindery.Proofs.NestedScopes
import Bindery.Proofs.NullChecking
import Bindery.Script.Cells
import Bindery.Script.Lowering

/-!
# Scripts in a scope inside their own

The script of an expression in a scope inside its own differs from its script in its own scope only
in the places where contexts are named (`Script.Place`): what was the innermost context is its
parent there. `Script.Moved` says this of whole scripts. Reading cells (`Moved.resolveCells`) and
null checks (`Moved.checkNulls`) keep it, as marks are the same on both sides, and scripts of
expressions have it (`Expr.lower_nested`).
-/

namespace Bindery.Script

def IsFree (n : Text) : Prop := n ≠ contextSlot ∧ n ≠ dataSlot

/-- The two ways to name a context, in a scope and in one inside it. The scope may be the outermost
one. -/
inductive Place (outermost : Bool) : Script → Script → Prop
  | data (m : Marks) (hm : m.cell = none) :
    Place outermost (.symbol m dataSlot (some (Script.id dataSlot)))
      (.member m context (if outermost then "$root" else "$parent"))
  | root (m : Marks) (hm : m.cell = none) :
    Place outermost (.member m context "$root") (.member m context "$root")
  | parent (m : Marks) (hm : m.cell = none) : Place outermost (.member m context "$parent")
      (.index m (context.dot "$parents") (lit (.int (Int64.ofNat 1))))
  | parents (m : Marks) (hm : m.cell = none) {k : Nat} (hk : k + 1 < Client.Number.limit) :
    Place outermost (.index m (context.dot "$parents") (lit (.int (Int64.ofNat k))))
      (.index m (context.dot "$parents") (lit (.int (Int64.ofNat (k + 1)))))
  | context (m : Marks) (hm : m.cell = none) :
    Place outermost (.symbol m contextSlot (some (Script.id contextSlot)))
      (.member m context "$parentContext")

/-- The scripts differ only in how they name contexts. -/
abbrev Moved (outermost : Bool) : Bool → Script → Script → Prop := Tracks IsFree (Place outermost)

variable {o b b' : Bool} {x y : Script}

/-! ## Nodes -/

variable (m : Marks)

theorem moved_ident {n : Text} (hn : IsFree n) : Moved o b (.ident m n) (.ident m n) :=
  .node b hn nofun (.ident m n) .nil nofun

theorem moved_literal (v : Literal) : Moved o b (.literal m v) (.literal m v) :=
  .node b rfl nofun (.literal m v) .nil nofun

namespace Moved

theorem member (h : Moved o false x y) (m : Marks) (n : Text) :
    Moved o b (.member m x n) (.member m y n) :=
  .node b rfl nofun (.member m x n y) (.cons h .nil) nofun

theorem index (h : Moved o false x y) {k l : Script} (hk : Moved o false k l) (m : Marks) :
    Moved o b (.index m x k) (.index m y l) :=
  .node b rfl nofun (.index m x k y l) (.cons h (.cons hk .nil)) nofun

theorem call (h : Moved o true x y) {as bs : List Script}
    (has : List.Forall₂ (Moved o false) as bs) (m : Marks) :
    Moved o b (.call m x as) (.call m y bs) := by
  refine .node b rfl nofun (.call m x as y has.length_eq.symm) (.cons h.value has) ?_
  rintro - a _ c _ ⟨⟩ ⟨⟩
  exact h

theorem unary (h : Moved o false x y) (m : Marks) (op : UnOp) :
    Moved o b (.unary m op x) (.unary m op y) :=
  .node b rfl nofun (.unary m op x y) (.cons h .nil) nofun

theorem binary (h : Moved o false x y) {z u : Script} (hz : Moved o false z u) (m : Marks)
    {op : BinOp} (hop : op ≠ .assign) : Moved o b (.binary m op x z) (.binary m op y u) := by
  refine .node b ?_ nofun (.binary m op x z y u) (.cons h (.cons hz .nil)) nofun
  cases op <;> first | rfl | exact absurd rfl hop

theorem cond {c c' : Script} (hc : Moved o false c c') (h : Moved o false x y) {z u : Script}
    (hz : Moved o false z u) (m : Marks) : Moved o b (.cond m c x z) (.cond m c' y u) :=
  .node b rfl nofun (.cond m c x z c' y u) (.cons hc (.cons h (.cons hz .nil))) nofun

theorem array {xs ys : List Script} (h : List.Forall₂ (Moved o false) xs ys) (m : Marks) :
    Moved o b (.array m xs) (.array m ys) :=
  .node b rfl nofun (.array m h.length_eq.symm) h nofun

theorem arrow (h : Moved o false x y) (m : Marks) {ps : List Text} (hps : ∀ p ∈ ps, IsFree p) :
    Moved o b (.arrow m ps x) (.arrow m ps y) :=
  .node b hps nofun (.arrow m ps x y) (.cons h .nil) nofun

theorem isNull (h : Moved o false x y) :
    Moved o b (bin .looseEq x Script.null) (bin .looseEq y Script.null) :=
  h.binary (moved_literal _ _) _ nofun

/-! ## Marks -/

theorem marks_eq (h : Moved o b x y) : y.marks = x.marks := by
  cases h with
  | leaf h => cases h <;> rfl
  | unset | symbol => rfl
  | node _ _ _ hshape => cases hshape <;> rfl

theorem isCell_eq (h : Moved o b x y) : y.isCell = x.isCell := by
  rw [isCell, isCell, h.marks_eq]

theorem setMarks (h : Moved o b x y) (m : Marks) (hm : Place o x y → m.cell = none) :
    Moved o b (x.setMarks m) (y.setMarks m) := by
  cases h with
  | leaf h =>
    have hcell := hm h
    cases h with
    | data => exact .leaf (.data m hcell)
    | root => exact .leaf (.root m hcell)
    | parent => exact .leaf (.parent m hcell)
    | parents _ _ hk => exact .leaf (.parents m hcell hk)
    | context => exact .leaf (.context m hcell)
  | unset _ _ n => exact .unset b m n
  | symbol _ _ n h => exact .symbol b m n h
  | node _ hsteady hsymbol hshape hops hfirst =>
    have hchildren : (x.setMarks m).children = x.children := by cases x <;> rfl
    refine .node b ?_ ?_ ?_ (hchildren ▸ hops) fun huses a as => ?_
    · cases x with
      | binary _ op => cases op <;> exact hsteady
      | _ => exact hsteady
    · cases x with
      | symbol m n d => exact absurd rfl (hsymbol m n d)
      | _ => exact nofun
    · cases hshape <;> constructor <;> assumption
    · rw [hchildren]
      exact hfirst (by cases x <;> first | rfl | cases huses) a as

theorem cell_none (h : Place o x y) : x.marks.cell = none := by cases h <;> assumption

theorem mark (h : Moved o b x y) {m : Marks} (hm : m.cell = none) :
    Moved o b (x.mark m) (y.mark m) := by
  rw [Script.mark, Script.mark, h.marks_eq]
  refine h.setMarks _ fun hplace => ?_
  simp [Marks.merge, hm, cell_none hplace]

theorem typed (h : Moved o b x y) (t : Ty) : Moved o b (x.typed t) (y.typed t) := h.mark rfl

theorem notNull (h : Moved o b x y) : Moved o b x.notNull y.notNull := h.mark rfl

/-! ## Cells -/

theorem force (h : Moved o true x y) : Moved o b x.force y.force := by
  have hunwrap : Moved o true (Script.dot (global "ko") "unwrap")
      (Script.dot (global "ko") "unwrap") :=
    member (moved_ident _ ⟨by decide, by decide⟩) _ _
  have hread : Moved o b (invoke x []) (invoke y []) := h.call .nil _
  have hask : Moved o b (invoke (Script.dot (global "ko") "unwrap") [x])
      (invoke (Script.dot (global "ko") "unwrap") [y]) := hunwrap.call (.cons h.value .nil) _
  simp only [Script.force, type?, h.marks_eq]
  split <;> split
  · exact hask.typed _
  · exact hread.typed _
  · exact hask
  · exact hread

theorem read (h : Moved o b x y) :
    Moved o b (if x.isCell then x.force else x) (if y.isCell then y.force else y) := by
  rw [h.isCell_eq]
  split
  · rename_i hcell
    rcases h.leaf_or with hplace | h
    · simp [isCell, cell_none hplace] at hcell
    · exact force (h true)
  · exact h

end Moved

theorem Reshaped.steady {X : Text → Prop} {s out : Script} {xs : List Script}
    (h : Reshaped s xs out) (hs : s.Steady X) : out.Steady X := by
  cases h with
  | binary m op => cases op <;> first | rfl | cases hs
  | _ => exact hs

theorem Moved.withChildren {s : Script} (hs : s.Steady IsFree)
    (hsymbol : ∀ m n d, s ≠ .symbol m n d)
    {xs ys : List Script} (hlen : xs.length = s.children.length)
    (h : List.Forall₂ (Moved o false) xs ys)
    (hfirst : s.usesReceiver → ∀ a as c cs, xs = a :: as → ys = c :: cs → Moved o true a c) :
    Moved o b (s.withChildren xs) (s.withChildren ys) := by
  have hx := reshaped hlen
  have hy : Reshaped (s.withChildren xs) ys (s.withChildren ys) := by
    have hlen' : ys.length = (s.withChildren xs).children.length := by
      rw [hx.children_eq, h.length_eq]
    have := reshaped hlen'
    rwa [hx.withChildren_eq h.length_eq.symm] at this
  refine .node b (hx.steady hs) ?_ hy (by rw [hx.children_eq]; exact h) ?_
  · rintro m n d heq
    rw [heq] at hx
    cases hx
    exact hsymbol _ _ _ rfl
  · intro huses a as c cs ha hc
    rw [hx.children_eq] at ha
    refine hfirst ?_ a as c cs ha hc
    generalize s.withChildren xs = out at hx huses
    cases hx <;> first | rfl | cases huses

theorem Place.transform_readOperands (h : Place o x y) :
    x.transform readOperands = x ∧ y.transform readOperands = y := by
  cases h <;> exact ⟨rfl, rfl⟩

theorem Moved.transform_readOperands (h : Moved o b x y) :
    Moved o b (x.transform readOperands) (y.transform readOperands) := by
  induction x using induct_children generalizing b y with
  | h x ih =>
    cases h with
    | leaf h =>
      obtain ⟨hx, hy⟩ := h.transform_readOperands
      rw [hx, hy]
      exact .leaf h
    | unset _ m n => exact .unset b m n
    | symbol _ m n h => exact .symbol b m n h
    | @node _ _ _ ys hsteady hsymbol hshape hops hfirst =>
      have hkids : List.Forall₂ (Moved o false) (x.children.map (transform readOperands))
          (ys.map (transform readOperands)) := by
        rw [List.forall₂_map_left_iff, List.forall₂_map_right_iff]
        exact Client.forall₂_imp_mem hops fun z hz z' h => ih z hz h
      have hfirst' : x.usesReceiver → ∀ a as c cs,
          x.children.map (transform readOperands) = a :: as →
          ys.map (transform readOperands) = c :: cs → Moved o true a c := by
        intro huses a as c cs ha hc
        obtain ⟨a', as', ha', rfl, -⟩ := List.map_eq_cons_iff.1 ha
        obtain ⟨c', cs', rfl, rfl, -⟩ := List.map_eq_cons_iff.1 hc
        exact ih a' (by simp [ha']) (hfirst huses a' as' c' cs' ha' rfl)
      have hxlen : (x.children.map (transform readOperands)).length = x.children.length :=
        List.length_map _
      have hylen : (ys.map (transform readOperands)).length = ys.length := List.length_map _
      have htransform (z : Script) : z.transform readOperands =
          readOperands (z.withChildren (z.children.map (transform readOperands))) := by
        rw [transform, fold_eq]
      rw [htransform x, htransform y, hshape.children_eq, hshape.withChildren_eq hylen]
      generalize x.children.map (transform readOperands) = xs at *
      generalize ys.map (transform readOperands) = zs at *
      have hx := reshaped hxlen
      have hy := reshaped (hkids.length_eq.symm.trans hxlen)
      have operands (hparen : ∀ m z, x ≠ .paren m z) :
          Moved o b (readOperands (x.withChildren xs)) (readOperands (x.withChildren zs)) := by
        have read {zs : List Script} {out : Script} (hz : Reshaped x zs out) : out.readOperands =
            x.withChildren (zs.map fun k => if k.isCell then k.force else k) := by
          have hout : out.readOperands = out.withChildren
              (out.children.map fun k => if k.isCell then k.force else k) := by
            cases hz <;> first | rfl | exact absurd rfl (hparen _ _)
          rw [hout, hz.children_eq, hz.withChildren_eq (by simp)]
        rw [read hx, read hy]
        refine withChildren hsteady hsymbol (by simp [hxlen]) ?_ ?_
        · rw [List.forall₂_map_left_iff, List.forall₂_map_right_iff]
          exact hkids.imp fun _ _ h => h.read
        · intro huses a as c cs ha hc
          obtain ⟨a', as', rfl, rfl, -⟩ := List.map_eq_cons_iff.1 ha
          obtain ⟨c', cs', rfl, rfl, -⟩ := List.map_eq_cons_iff.1 hc
          exact (hfirst' huses a' as' c' cs' rfl rfl).read
      cases x with
      | paren m z =>
        obtain ⟨a, rfl⟩ := List.length_eq_one_iff.1 hxlen
        obtain ⟨c, rfl⟩ := List.length_eq_one_iff.1 (hkids.length_eq.symm.trans hxlen)
        have hac := hfirst' rfl a [] c [] rfl rfl
        change Moved o b (.paren _ a) (.paren _ c)
        rw [hac.marks_eq]
        refine .node b rfl nofun (.paren _ a c) (.cons hac.value .nil) ?_
        rintro - _ _ _ _ ⟨⟩ ⟨⟩
        exact hac
      | _ => exact operands nofun

/-- Reading cells keeps it that scripts differ only in how they name contexts. -/
theorem Moved.resolveCells (h : Moved o false x y) (allowCell : Bool) :
    Moved o false (x.resolveCells.variant allowCell) (y.resolveCells.variant allowCell) := by
  have hroot := h.transform_readOperands
  simp only [Script.resolveCells, Resolved.variant, hroot.isCell_eq]
  have hread := hroot.read
  rw [hroot.isCell_eq] at hread
  cases allowCell with
  | true => exact hroot
  | false => by_cases hcell : (x.transform readOperands).isCell = true <;> simpa [hcell] using hread

/-! ## Null checks -/

theorem checked_member (x : Script) (n : Text) :
    (Script.member m x n).checked = x.checked.extend (fun y => .member m y n) true := by
  rw [Script.checked, fold_eq]
  rfl

theorem checked_index (x k : Script) : (Script.index m x k).checked =
    x.checked.extend (fun y => .index m y k.checkNulls) true := by
  rw [Script.checked, fold_eq]
  rfl

theorem checked_call (f : Script) (as : List Script) : (Script.call m f as).checked =
    f.checked.extend (fun g => .call m g (as.map checkNulls)) false := by
  have h := checkStep (.call m f as)
  generalize (Script.call m f as).checked = C at h
  cases h with
  | call => rfl
  | other hlink => cases hlink

theorem checked_of_not_link {s : Script} (h : s.isLink = false) :
    s.checked = .done (s.withChildren (s.children.map Script.checkNulls)) := by
  rw [Script.checked, fold_eq]
  cases s with
  | member | index | call => cases h
  | _ =>
    simp only [checkNode, List.map_map]
    rfl

/-- Chains whose guards and bodies differ only in how they name contexts. -/
inductive ChainMoved (o b : Bool) : CheckChain → CheckChain → Prop
  | done {x y : Script} (h : Moved o b x y) : ChainMoved o b (.done x) (.done y)
  | guarded {x y : Script} {C D : CheckChain} (h : Moved o false x y) (hrest : ChainMoved o b C D) :
    ChainMoved o b (.guarded x C) (.guarded y D)

namespace ChainMoved

variable {C D : CheckChain}

theorem type?_eq (h : ChainMoved o b C D) : D.type? = C.type? := by
  induction h with
  | done h => exact congrArg Marks.type h.marks_eq
  | guarded _ _ ih => exact ih

theorem toScript (h : ChainMoved o b C D) : Moved o b C.toScript D.toScript := by
  induction h with
  | done h => exact h
  | guarded h hrest ih =>
    rw [CheckChain.toScript, CheckChain.toScript, hrest.type?_eq]
    exact Moved.cond h.isNull (moved_literal _ _) ih.value _

theorem extend (h : ChainMoved o b C D) {build build' : Script → Script}
    (hbuild : ∀ {x y : Script}, Moved o b x y → Moved o b' (build x) (build' y)) (check : Bool) :
    ChainMoved o b' (C.extend build check) (D.extend build' check) := by
  induction h with
  | @done x y h =>
    have hnull : y.mayBeNull = x.mayBeNull := by
      simp only [mayBeNull, type?, h.isCell_eq, h.marks_eq]
    rw [CheckChain.extend, CheckChain.extend, hnull]
    split
    · exact .guarded h.value (.done (hbuild h))
    · exact .done (hbuild h)
  | guarded h _ ih => exact .guarded h ih

end ChainMoved

theorem Place.checked (h : Place o x y) : x.checked = .done x ∧ y.checked = .done y := by
  cases h <;> exact ⟨rfl, rfl⟩

theorem Moved.checked (h : Moved o b x y) : ChainMoved o b x.checked y.checked := by
  induction x using induct_children generalizing b y with
  | h x ih =>
    cases h with
    | leaf h =>
      rw [h.checked.1, h.checked.2]
      exact .done (.leaf h)
    | unset _ m n => exact .done (.unset b m n)
    | symbol _ m n h => exact .done (.symbol b m n h)
    | @node _ _ _ ys hsteady hsymbol hshape hops hfirst =>
      have hvalues {xs zs : List Script} (hxs : ∀ z ∈ xs, z ∈ x.children)
          (h : List.Forall₂ (Moved o false) xs zs) :
          List.Forall₂ (Moved o false) (xs.map checkNulls) (zs.map checkNulls) := by
        rw [List.forall₂_map_left_iff, List.forall₂_map_right_iff]
        exact Client.forall₂_imp_mem h fun z hz z' h =>
          (ih z (hxs z hz) h).toScript
      have hchild {b' : Bool} {z z' : Script} (hz : z ∈ x.children) (h : Moved o b' z z') :
          ChainMoved o b' z.checked z'.checked := ih z hz h
      have other (hlink : x.isLink = false) (hlink' : y.isLink = false) :
          ChainMoved o b x.checked y.checked := by
        rw [checked_of_not_link hlink, checked_of_not_link hlink', hshape.children_eq,
          hshape.withChildren_eq (List.length_map _)]
        refine .done (withChildren hsteady hsymbol (List.length_map _)
          (hvalues (fun _ h => h) hops) ?_)
        intro huses a as c cs ha hc
        obtain ⟨a', as', ha', rfl, -⟩ := List.map_eq_cons_iff.1 ha
        obtain ⟨c', cs', rfl, rfl, -⟩ := List.map_eq_cons_iff.1 hc
        exact (hchild (by simp [ha']) (hfirst huses a' as' c' cs' ha' rfl)).toScript
      cases hshape with
      | member m z n z' =>
        obtain _ | ⟨hz, -⟩ := hops
        rw [checked_member, checked_member]
        exact (hchild List.mem_cons_self hz).extend (fun h => h.member m n) true
      | index m z k z' k' =>
        obtain _ | ⟨hz, _ | ⟨hk, -⟩⟩ := hops
        rw [checked_index, checked_index]
        exact (hchild List.mem_cons_self hz).extend
          (fun h => h.index (hchild (by simp [children]) hk).toScript m) true
      | call m f as g hlen =>
        have hf := hfirst rfl f as g _ rfl rfl
        obtain _ | ⟨-, hargs⟩ := hops
        rw [checked_call, checked_call]
        exact (hchild List.mem_cons_self hf).extend
          (fun h => h.call (hvalues (fun z hz => List.mem_cons_of_mem f hz) hargs) m) false
      | _ => exact other rfl rfl

theorem Moved.checkNulls (h : Moved o b x y) : Moved o b x.checkNulls y.checkNulls :=
  h.checked.toScript

/-! ## Forms -/

theorem Moved.toText (h : Moved o false x y) : Moved o b x.toText y.toText :=
  cond h.isNull (moved_literal _ _)
    (call (moved_ident _ ⟨by decide, by decide⟩) (.cons h .nil) _) _

theorem Moved.orEmpty (h : Moved o false x y) : Moved o b x.orEmpty y.orEmpty :=
  h.binary (moved_literal _ _) _ nofun

theorem moved_contextAt (k : Nat) : Moved o false (contextAt k) (contextAt (k + 1)) := by
  induction k with
  | zero => exact .leaf (.context _ rfl)
  | succ k ih => exact ih.member _ _

end Bindery.Script

namespace Bindery

open Script

/-! ## Client forms -/

/-- The form does not depend on how contexts are named in the receiver. -/
def MemberForm.Uniform (form : MemberForm) : Prop :=
  ∀ ⦃o x y⦄, Moved o false x y → OkRel (Moved o false) (form x) (form y)

def MethodForm.Uniform (form : MethodForm) : Prop :=
  ∀ ⦃o x y⦄, Option.Rel (Moved o false) x y → ∀ ⦃as bs⦄, List.Forall₂ (Moved o false) as bs →
    OkRel (Moved o false) (form x as) (form y bs)

/-- No form depends on how contexts are named. -/
structure Registry.Uniform (r : Registry) : Prop where
  member : ∀ e ∈ r.members, MemberForm.Uniform e.2
  method : ∀ e ∈ r.methods, MethodForm.Uniform e.2

namespace Registry

theorem uniform_ofReceiver {form : Script → List Script → Script}
    (h : ∀ ⦃o x y⦄, Moved o false x y → ∀ ⦃as bs⦄, List.Forall₂ (Moved o false) as bs →
      Moved o false (form x as) (form y bs)) : MethodForm.Uniform (ofReceiver form) := by
  intro o x y hxy as bs has
  cases hxy with
  | none => exact .error
  | some hxy => exact .ok (h hxy has)

theorem uniform_renamed (name : Text) : MethodForm.Uniform (renamed name) :=
  uniform_ofReceiver fun _ _ _ h _ _ has => Moved.call (h.member _ _) has _

theorem uniform_ofFirst {form : Script → Except Fault Script} (h : MemberForm.Uniform form) :
    MethodForm.Uniform (ofFirst form) := by
  intro o x y _ as bs has
  cases has with
  | nil => exact .error
  | cons hxy => exact h hxy

theorem uniform_resourceUrl : MemberForm.Uniform resourceUrl := by
  intro o x y h
  cases h with
  | leaf h => cases h <;> exact .error
  | unset | symbol => exact .error
  | node _ _ _ hshape =>
    cases hshape with
    | literal m v =>
      cases v with
      | text n =>
        simp only [resourceUrl]
        split
        · exact .error
        · exact .ok (.unset _ _ _)
      | _ => exact .error
    | _ => exact .error

theorem uniform_defaultMembers : ∀ e ∈ defaultMembers, MemberForm.Uniform e.2 := by
  have hproperty (name : Text) : MemberForm.Uniform (property name) :=
    fun _ _ _ h => .ok (h.member _ _)
  simp only [defaultMembers, List.forall_mem_cons, hproperty]
  exact ⟨trivial, trivial, by simp⟩

theorem uniform_defaultMethods : ∀ e ∈ defaultMethods, MethodForm.Uniform e.2 := by
  have hempty : MemberForm.Uniform fun x => .ok (.unary {} .not x) :=
    fun _ _ _ h => .ok (h.unary _ _)
  have hblank : MemberForm.Uniform fun x =>
      .ok (.unary {} .not (Script.invoke (x.orEmpty.dot "trim") [])) :=
    fun _ _ _ h => .ok (Moved.unary (Moved.call (Moved.member h.orEmpty _ _) .nil _) _ _)
  have htext : MethodForm.Uniform (ofReceiver fun x _ => x.toText) :=
    uniform_ofReceiver fun _ _ _ h _ _ _ => h.toText
  have hmath (name : Text) : MethodForm.Uniform (globalCall "Math" name) := fun _ _ _ _ _ _ has =>
    .ok (Moved.call (Moved.member (moved_ident _ ⟨by decide, by decide⟩) _ _) has _)
  simp only [defaultMethods, List.forall_mem_cons, List.not_mem_nil, false_implies, implies_true,
    and_true, uniform_renamed, hmath, uniform_ofFirst hblank, uniform_ofFirst hempty,
    uniform_ofFirst uniform_resourceUrl, htext]

/-- The standard registry has no other forms than those of the predeclared members. -/
theorem standard_forms : (∀ e ∈ standard.members, e ∈ defaultMembers) ∧
    ∀ e ∈ standard.methods, e ∈ defaultMethods := by
  let IsDefault (r : Registry) : Prop := (∀ e ∈ r.members, e ∈ defaultMembers) ∧
    ∀ e ∈ r.methods, e ∈ defaultMethods
  change IsDefault (addDefaults {})
  unfold addDefaults
  refine List.foldlRecOn (motive := IsDefault) _ _ ?_ ?_
  · refine List.foldlRecOn (motive := IsDefault) _ _ ⟨nofun, nofun⟩ ?_
    exact fun r hr e he =>
      ⟨List.forall_mem_cons.2 ⟨he, fun e he => hr.1 e (List.mem_filter.1 he).1⟩, hr.2⟩
  · exact fun r hr e he =>
      ⟨hr.1, List.forall_mem_cons.2 ⟨he, fun e he => hr.2 e (List.mem_filter.1 he).1⟩⟩

theorem standard_uniform : standard.Uniform where
  member e he := uniform_defaultMembers e (standard_forms.1 e he)
  method e he := uniform_defaultMethods e (standard_forms.2 e he)

variable {r : Registry}

theorem Uniform.member? (hr : r.Uniform) {f : Field} {form : MemberForm}
    (h : r.member? f = some form) : MemberForm.Uniform form := by
  obtain ⟨e, he, rfl⟩ := Option.map_eq_some_iff.1 h
  exact hr.member e (List.mem_of_find?_eq_some he)

theorem Uniform.method? (hr : r.Uniform) {m : Method} {form : MethodForm}
    (h : r.method? m = some form) : MethodForm.Uniform form := by
  obtain ⟨e, he, rfl⟩ := Option.map_eq_some_iff.1 h
  exact hr.method e (List.mem_of_find?_eq_some he)

end Registry

/-! ## Expressions -/

namespace Expr

mutual

/-- The expression uses no custom parameter and no collection, and its variables are not named as
contexts. -/
def IsPortable : Expr → Prop
  | .param _ _ special => ∀ p ∈ special, p.kind ≠ .custom ∧ p.kind ≠ .collection
  | .var l => IsFree l.name
  | .const .. | .typeRef _ => True
  | .member x _ => x.IsPortable
  | .call x _ args => x.IsPortable ∧ ArePortable args
  | .callStatic _ args => ArePortable args
  | .index x k _ => x.IsPortable ∧ k.IsPortable
  | .unary _ x => x.IsPortable
  | .binary _ x y _ => x.IsPortable ∧ y.IsPortable
  | .cond c x y _ => c.IsPortable ∧ x.IsPortable ∧ y.IsPortable
  | .convert _ x _ => x.IsPortable
  | .lambda ps b _ => (∀ p ∈ ps, IsFree p.name) ∧ b.IsPortable
  | .list xs _ => ArePortable xs
  | .guard x v b _ => IsFree v.name ∧ x.IsPortable ∧ b.IsPortable

def ArePortable : List Expr → Prop
  | [] => True
  | x :: xs => x.IsPortable ∧ ArePortable xs

end

variable {r : Registry} {s t : Scope} {o : Bool} {x y z u : Script}

theorem lowerContext_nested {owner : Scope} {k : Nat} (hdepth : owner.depth + k = t.depth)
    (hlimit : t.depth < Client.Number.limit) :
    Moved t.outer.isEmpty false (lowerContext owner k).notNull
      (lowerContext owner (k + 1)).notNull := by
  have hlevels (j : Nat) : lowerContext owner (j + 1) =
      if owner.outer.isEmpty then context.dot "$root"
      else if j = 0 then context.dot "$parent"
      else .index {} (context.dot "$parents") (lit (.int (Int64.ofNat j))) := by
    cases j <;> simp [lowerContext]
  cases k with
  | zero =>
    have hempty : owner.outer.isEmpty = t.outer.isEmpty := by
      rw [Bool.eq_iff_iff, List.isEmpty_iff_length_eq_zero, List.isEmpty_iff_length_eq_zero]
      simp only [Scope.depth] at hdepth
      omega
    rw [hlevels, hempty]
    generalize t.outer.isEmpty = outermost
    cases outermost <;> exact .leaf (.data _ rfl)
  | succ k =>
    rw [hlevels, hlevels]
    split
    · exact .leaf (.root _ rfl)
    · cases k with
      | zero => exact .leaf (.parent _ rfl)
      | succ k => exact .leaf (.parents _ rfl (by omega))

theorem lowerSpecial_nested (n : Text) {p : Param} (hp : p.kind ≠ .custom ∧ p.kind ≠ .collection)
    (k : Nat) : OkRel (Moved o false) (lowerSpecial n p k) (lowerSpecial n p (k + 1)) := by
  unfold lowerSpecial
  cases hkind : p.kind with
  | index => exact .ok (Moved.notNull ((moved_contextAt k).member _ _))
  | control => exact .ok (Moved.notNull (moved_ident _ ⟨by decide, by decide⟩))
  | collection => exact absurd hkind hp.2
  | custom => exact absurd hkind hp.1

theorem lowerParam_nested (hs : s.parent? = some t) (hlimit : t.depth < Client.Number.limit)
    (n : Text) (owner : Scope) {special : Option Param}
    (hp : ∀ p ∈ special, p.kind ≠ .custom ∧ p.kind ≠ .collection) :
    OkRel (Moved t.outer.isEmpty false) (lowerParam t n owner special)
      (lowerParam s n owner special) := by
  unfold lowerParam
  cases hk : levelsOut t n owner with
  | error e => exact .error
  | ok k =>
    obtain ⟨hk', hdepth⟩ := levelsOut_nested hs hk
    rw [hk']
    cases special with
    | none => exact .ok (Moved.mark (Moved.typed (lowerContext_nested hdepth hlimit) _) rfl)
    | some p =>
      exact (lowerSpecial_nested n (hp p rfl) k).bind fun _ _ h => .ok (Moved.mark (h.typed _) rfl)

theorem concatOperand_nested (h : Moved o false x y) (ty : Ty) :
    Moved o false (concatOperand x ty) (concatOperand y ty) := by
  unfold concatOperand
  rw [h.marks_eq]
  split
  · exact h
  · exact Moved.typed (Moved.notNull h.orEmpty) _

theorem nullIfNull_nested (h : Moved o false x y) (hz : Moved o false z u) (ty : Ty) :
    Moved o false (nullIfNull ty x z) (nullIfNull ty y u) := by
  unfold nullIfNull
  rw [type?, type?, h.marks_eq]
  split
  · exact Moved.typed (Moved.cond h.isNull (moved_literal _ _) hz _) _
  · exact hz

theorem lowerBinary_nested (h : Moved o false x y) (hz : Moved o false z u) (op : BinaryOp)
    (ty ty₁ ty₂ : Ty) :
    Moved o false (lowerBinary op ty ty₁ ty₂ x z) (lowerBinary op ty ty₁ ty₂ y u) := by
  have hplain : Moved o false (bin (lowerBinaryOp op) x z) (bin (lowerBinaryOp op) y u) :=
    h.binary hz _ (by cases op <;> exact nofun)
  have htrunc : Moved o true ((Script.id "Math").notNull.dot "trunc")
      ((Script.id "Math").notNull.dot "trunc") :=
    Moved.member (moved_ident _ ⟨by decide, by decide⟩) _ _
  have hconcat : Moved o false (bin .add (concatOperand x ty₁) (concatOperand z ty₂))
      (bin .add (concatOperand y ty₁) (concatOperand u ty₂)) :=
    (concatOperand_nested h _).binary (concatOperand_nested hz _) _ nofun
  unfold lowerBinary
  simp only
  split
  · exact hconcat.typed _
  · refine if_rel op.isArithmetic (fun h' => nullIfNull_nested h (nullIfNull_nested hz h' _) _) ?_
    split
    · exact Moved.typed (htrunc.call (.cons hplain .nil) _) _
    · exact hplain.typed _
where
  /-- Both branches are made from a script that is the same up to contexts. -/
  if_rel {a b a' b' : Script} (c : Bool) (h : Moved o false a b → Moved o false a' b')
      (hab : Moved o false a b) : Moved o false (if c then a' else a) (if c then b' else b) := by
    split
    · exact h hab
    · exact hab

theorem lowerValue_nested (v : Value) :
    OkRel (fun x y => ∃ l, x = lit l ∧ y = lit l) (lowerValue v) (lowerValue v) := by
  unfold lowerValue
  split
  · exact .ok ⟨_, rfl, rfl⟩
  · exact .error

mutual

/-- The script of an expression in a scope inside its own differs only in how it names contexts. -/
theorem lower_nested (hr : r.Uniform) (hs : s.parent? = some t)
    (hlimit : t.depth < Client.Number.limit) : (e : Expr) → e.IsPortable →
    OkRel (Moved t.outer.isEmpty false) (e.lower r t) (e.lower r s)
  | .param n owner _, hp => lowerParam_nested hs hlimit n owner hp
  | .var _, hp => .ok (moved_ident _ hp)
  | .const v ty, _ => (lowerValue_nested v).bind fun _ _ ⟨l, hx, hy⟩ => by
    subst hx hy
    refine .ok ?_
    split <;> exact moved_literal _ _
  | .typeRef _, _ => .error
  | .member z f, hp => by
    refine (lower_nested hr hs hlimit z hp).bind fun a b hab => ?_
    cases hform : r.member? f with
    | some form => exact (hr.member? hform hab).bind fun _ _ h => .ok (h.typed _)
    | none =>
      simp only
      split
      · exact .error
      · exact .ok (Moved.typed (hab.member _ _) _)
  | .call z m args, hp => by
    rw [lower, lower]
    cases hform : r.method? m with
    | none => exact .error
    | some form =>
      refine (lower_nested hr hs hlimit z hp.1).bind fun a b hab => ?_
      refine (lowerList_nested hr hs hlimit args hp.2).bind fun as bs has => ?_
      exact (hr.method? hform (.some hab) has).bind fun _ _ h => .ok (h.typed _)
  | .callStatic m args, hp => by
    rw [lower, lower]
    cases hform : r.method? m with
    | none => exact .error
    | some form =>
      refine (lowerList_nested hr hs hlimit args hp).bind fun as bs has => ?_
      exact (hr.method? hform .none has).bind fun _ _ h => .ok (h.typed _)
  | .index z k _, hp => (lower_nested hr hs hlimit z hp.1).bind fun _ _ h =>
    (lower_nested hr hs hlimit k hp.2).bind fun _ _ hk => .ok (Moved.typed (h.index hk _) _)
  | .unary _ z, hp => (lower_nested hr hs hlimit z hp).bind fun _ _ h =>
    .ok (Moved.typed (h.unary _ _) _)
  | .binary op z u _, hp => (lower_nested hr hs hlimit z hp.1).bind fun _ _ h =>
    (lower_nested hr hs hlimit u hp.2).bind fun _ _ hu => .ok (lowerBinary_nested h hu op _ _ _)
  | .cond c z u _, hp => (lower_nested hr hs hlimit c hp.1).bind fun _ _ hc =>
    (lower_nested hr hs hlimit z hp.2.1).bind fun _ _ h =>
      (lower_nested hr hs hlimit u hp.2.2).bind fun _ _ hu => .ok (Moved.typed (hc.cond h hu _) _)
  | .convert kind z _, hp => (lower_nested hr hs hlimit z hp).bind fun _ _ h => by
    cases kind with
    | toText => exact .ok (Moved.typed h.toText _)
    | box | lift => exact .ok h
    | numeric | unbox => exact .ok (h.typed _)
  | .lambda ps b _, hp => (lower_nested hr hs hlimit b hp.2).bind fun _ _ h => by
    refine .ok (Moved.typed (Moved.notNull (h.arrow _ fun n hn => ?_)) _)
    obtain ⟨l, hl, rfl⟩ := List.mem_map.1 hn
    exact hp.1 l hl
  | .list xs _, hp => (lowerList_nested hr hs hlimit xs hp).bind fun _ _ h =>
    .ok (Moved.typed (Moved.notNull (Moved.array h _)) _)
  | .guard z v b ty, hp => (lower_nested hr hs hlimit z hp.2.1).bind fun _ _ h =>
    (lower_nested hr hs hlimit b hp.2.2).bind fun x y hb =>
      (lowerValue_nested ty.default).bind fun _ _ ⟨l, hx, hy⟩ => by
        subst hx hy
        have hbody : Moved t.outer.isEmpty true
            (.arrow {} [v.name] (.cond {} (bin .looseEq (Script.id v.name) Script.null) (lit l) x))
            (.arrow {} [v.name] (.cond {} (bin .looseEq (Script.id v.name) Script.null)
              (lit l) y)) :=
          Moved.arrow (Moved.cond (Moved.isNull (moved_ident _ hp.1)) (moved_literal _ _) hb _) _
            (List.forall_mem_singleton.2 hp.1)
        exact .ok (Moved.typed (hbody.call (.cons h .nil) _) _)

theorem lowerList_nested (hr : r.Uniform) (hs : s.parent? = some t)
    (hlimit : t.depth < Client.Number.limit) : (es : List Expr) → ArePortable es →
    OkRel (List.Forall₂ (Moved t.outer.isEmpty false)) (lowerList r t es) (lowerList r s es)
  | [], _ => .ok .nil
  | e :: es, hp => (lower_nested hr hs hlimit e hp.1).bind fun _ _ h =>
    (lowerList_nested hr hs hlimit es hp.2).bind fun _ _ hes => .ok (.cons h hes)

end

end Expr

end Bindery
