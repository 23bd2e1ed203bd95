import Bindery.Proofs.Outcome
import Bindery.Server.Eval

/-!
# What null guards mean

`Expr.chain` is a reference semantics of expressions without guards. It evaluates a chain of member
accesses, instance calls and element accesses link by link: a receiver that is null where its type
admits null and nothing says that it is not null (`Expr.stopsAt`) breaks the chain, and what is left
of the chain is not evaluated. A broken chain has the default value of its type (`Link.getD`).

`Expr.guardNulls_eval` says that the guards that `Expr.guardNulls` puts into an expression give it
this meaning, errors included.
-/

namespace Bindery

namespace Expr

/-! ## The reference semantics -/

/-- The expression is never null, whatever its type admits: a parameter of the scope, a literal
other than null, a function or list literal, a variable known not to be null, or a conversion of one
of these or of an operand whose type does not admit null. -/
def knownNonNull : Expr → Bool
  | .param .. | .typeRef _ => true
  | .const v _ => !v.isNull
  | .lambda .. | .list .. => true
  | .var l => l.nonNull
  | .convert _ x _ => x.knownNonNull || !x.type.isNullable
  | _ => false

/-- A chain breaks at the receiver `x` with the value `v`. -/
def stopsAt (x : Expr) (v : Operand) : Bool := v.isNull && x.type.isNullable && !x.knownNonNull

end Expr

/-- How a chain ends: with a value, or at a link that is null. -/
inductive Link where
  | reached (v : Operand)
  | broken

namespace Link

/-- The value of a chain of the given type. -/
def getD (t : Ty) : Link → Operand
  | .reached v => v
  | .broken => t.default

/-- A chain continued by an access of its value, unless it stops there. -/
def access (stops : Operand → Bool) (act : Operand → Except Fault Operand) :
    Link → Except Fault Link
  | .broken => return .broken
  | .reached v => do
    if stops v then return .broken
    else return .reached (← act v)

theorem getD_reached (t : Ty) (v : Operand) : (reached v).getD t = v := rfl

end Link

def GuardChain.inner : GuardChain → Expr
  | .done e => e
  | .guarded _ _ rest => rest.inner

namespace Expr

variable (base n : Nat)

/-- The expression as errors show it, when guard variables are numbered from `n`: receivers that are
guarded go by the names of their variables. -/
def label (e : Expr) : Expr := ((guardChain base e).run n).1.inner

/-- The expression with its guards, when guard variables are numbered from `n`. -/
def guarded (e : Expr) : Expr := ((guardChain base e).run n).1.toExpr

def guardedList (es : List Expr) : List Expr := ((guardList base es).run n).1

def after (e : Expr) : Nat := ((guardChain base e).run n).2

def afterList (es : List Expr) : Nat := ((guardList base es).run n).2

mutual

/-- How the chain of an expression ends. The numbers `base` and `n` of variables only matter for the
texts of errors. -/
def chain (s : Scope) (base : Nat) (fr : Frame) (n : Nat) : Expr → Except Fault Link
  | .member x f => do
    (← chain s base fr n x).access x.stopsAt (readField (label base n (.member x f)) f)
  | .call x m args => do
    (← chain s base fr (afterList base n args) x).access x.stopsAt fun v => do
      if v.isNull then throw (failed (label base n (.call x m args)) (.callOnNull m.name))
      else applyMethod (label base n (.call x m args)) m v (← chainList s base fr n args)
  | .index x k t => do
    (← chain s base fr (after base n k) x).access x.stopsAt fun v => do
      let key ← chain s base fr n k
      readElement (label base n (.index x k t)) v (key.getD k.type)
  | .callStatic m args => do
    let vals ← chainList s base fr n args
    return .reached (← applyMethod (label base n (.callStatic m args)) m (.value .null) vals)
  | .unary op x => do
    let v := (← chain s base fr n x).getD x.type
    if v.isNull then return .reached v
    else return .reached (← applyUnary (label base n (.unary op x)) op v)
  | .binary op x y t => do
    let l := (← chain s base fr n x).getD x.type
    return .reached (← applyBinary (label base n (.binary op x y t)) op t l fun _ => do
      return (← chain s base fr (after base n x) y).getD y.type)
  | .cond c t e _ => do
    let n' := after base n c
    if ((← chain s base fr n c).getD c.type).isTrue then
      return .reached ((← chain s base fr n' t).getD t.type)
    else return .reached ((← chain s base fr (after base n' t) e).getD e.type)
  | .convert kind x t => do
    return .reached (applyConversion kind t ((← chain s base fr n x).getD x.type))
  | .lambda ps b _ => return .reached (.func fun args => do
      return (← chain s base (fr.bindAll ps args) n b).getD b.type)
  | .list xs _ => do
    let vs ← chainList s base fr n xs
    return .reached (Value.list none (vs.map Operand.toValue))
  | .guard x v b t => do
    let recv := (← chain s base fr n x).getD x.type
    if recv.isNull then return .reached t.default
    else return .reached ((← chain s base (fr.bind v recv) (after base n x) b).getD b.type)
  | e => do return .reached (← eval s fr e)

def chainList (s : Scope) (base : Nat) (fr : Frame) (n : Nat) :
    List Expr → Except Fault (List Operand)
  | [] => .ok []
  | x :: xs => do
    let v := (← chain s base fr n x).getD x.type
    return v :: (← chainList s base fr (after base n x) xs)

end

/-- The value of an expression in which null links break chains. -/
def meaning (s : Scope) (fr : Frame) (e : Expr) : Except Fault Operand := do
  return (← chain s e.nextLocal fr 0 e).getD e.type

theorem mayBeNull_eq (e : Expr) : e.mayBeNull = (e.type.isNullable && !e.knownNonNull) := by
  cases e with
  | convert k x t =>
    simp only [mayBeNull, type, knownNonNull, mayBeNull_eq x]
    cases t.isNullable <;> cases x.type.isNullable <;> cases x.knownNonNull <;> rfl
  | _ => simp [mayBeNull, type, knownNonNull]

end Expr

/-! ## Evaluation of guard chains -/

namespace GuardChain

/-- The frame in which the innermost expression is evaluated, if no guard stops before it. -/
def reach (s : Scope) (fr : Frame) : GuardChain → Except Fault (Option Frame)
  | .done _ => .ok (some fr)
  | .guarded x v rest => do
    let recv ← x.eval s fr
    if recv.isNull then .ok none else rest.reach s (fr.bind v recv)

def run (s : Scope) (fr : Frame) (c : GuardChain) : Except Fault Link := do
  match ← c.reach s fr with
  | none => return .broken
  | some fr' => return .reached (← c.inner.eval s fr')

theorem run_done (s : Scope) (fr : Frame) (e : Expr) :
    run s fr (.done e) = (do return .reached (← e.eval s fr)) := rfl

theorem run_guarded (s : Scope) (fr : Frame) (x : Expr) (v : Local) (rest : GuardChain) :
    run s fr (.guarded x v rest) = (do
      let recv ← x.eval s fr
      if recv.isNull then return .broken else run s (fr.bind v recv) rest) := by
  simp only [run, reach, inner]
  cases x.eval s fr with
  | error _ => rfl
  | ok recv =>
    simp only [ok_bind]
    cases recv.isNull <;> rfl

@[simp] theorem toExpr_type (c : GuardChain) : c.toExpr.type = c.inner.type := by
  induction c with
  | done e => rfl
  | guarded x v rest ih => simpa [toExpr, inner, Expr.type] using ih

theorem toExpr_eval (s : Scope) (fr : Frame) (c : GuardChain) :
    c.toExpr.eval s fr = do return (← c.run s fr).getD c.inner.type := by
  induction c generalizing fr with
  | done e =>
    simp only [toExpr, run, reach, inner, ok_bind]
    cases e.eval s fr <;> rfl
  | guarded x v rest ih =>
    simp only [toExpr, Expr.eval, run_guarded, inner, toExpr_type, ih]
    cases x.eval s fr with
    | error _ => rfl
    | ok recv =>
      simp only [ok_bind]
      cases recv.isNull <;> rfl

/-- The variables of the guards are numbered from `base`. -/
def From (base : Nat) : GuardChain → Prop
  | .done _ => True
  | .guarded _ v rest => base ≤ v.id ∧ rest.From base

end GuardChain

namespace Frame

theorem get_bind (fr : Frame) (l : Local) (x : Operand) (id : Nat) :
    (fr.bind l x).get id = if l.id = id then x else fr.get id := by
  simp only [Frame.get, Frame.bind, List.find?_cons]
  by_cases h : l.id = id
  · simp [h]
  · simp [h, beq_false_of_ne h]

/-- The frames differ in variables numbered from `base` at most. -/
structure Agree (base : Nat) (fr fr' : Frame) : Prop where
  vms : fr.vms = fr'.vms
  control : fr.control = fr'.control
  get : ∀ id < base, fr.get id = fr'.get id

namespace Agree

variable {base : Nat} {fr fr' : Frame}

theorem refl (base : Nat) (fr : Frame) : Agree base fr fr := ⟨rfl, rfl, fun _ _ => rfl⟩

theorem bind (h : Agree base fr fr') (l : Local) (x : Operand) :
    Agree base (fr.bind l x) (fr'.bind l x) where
  vms := h.vms
  control := h.control
  get id hid := by rw [get_bind, get_bind, h.get id hid]

theorem bindAll (h : Agree base fr fr') (ls : List Local) (vs : List Value) :
    Agree base (fr.bindAll ls vs) (fr'.bindAll ls vs) := by
  induction ls generalizing fr fr' vs with
  | nil => exact h
  | cons l ls ih =>
    cases vs with
    | nil => exact h
    | cons v vs => exact ih (h.bind l v) vs

theorem bind_right (h : Agree base fr fr') {l : Local} (hl : base ≤ l.id) (x : Operand) :
    Agree base fr (fr'.bind l x) where
  vms := h.vms
  control := h.control
  get id hid := by rw [get_bind, if_neg (by omega), h.get id hid]

end Agree

end Frame

namespace Expr

variable {s : Scope} {fr fr' : Frame}

/-- An access inside the innermost guard continues the chain: the access is not evaluated where the
chain is broken or its receiver may be null and is. -/
theorem accessGuarded_run {base k : Nat} {build : Expr → Expr}
    (act : Expr → Operand → Except Fault Operand) (c : GuardChain)
    (hbuild : ∀ x fr₁, fr.Agree base fr₁ → (build x).eval s fr₁ = x.eval s fr₁ >>= act (build x))
    (hc : c.From base) (hfr : fr.Agree base fr') :
    ((accessGuarded base build c).run k).1.run s fr' = (do
      (← c.run s fr').access (fun v => v.isNull && c.inner.mayBeNull)
        (act ((accessGuarded base build c).run k).1.inner)) := by
  induction c generalizing fr' with
  | done e =>
    cases he : e.mayBeNull with
    | true =>
      let v := guardVar base k e.type
      have hrun : ((accessGuarded base build (.done e)).run k).1 =
          .guarded e v (.done (build (.var v))) := by
        simp only [accessGuarded, he]; rfl
      simp only [hrun, GuardChain.run_guarded, GuardChain.run_done, GuardChain.inner, he]
      cases e.eval s fr' with
      | error _ => rfl
      | ok recv =>
        have hget : (Expr.var v).eval s (fr'.bind v recv) = .ok recv := by
          rw [eval, Frame.get_bind, if_pos rfl]
        have hv := hbuild (.var v) _ (hfr.bind_right (l := v) (Nat.le_add_right base k) recv)
        rw [hget, ok_bind] at hv
        simp only [ok_bind, pure_ok, Link.access, Bool.and_true, hv]
    | false =>
      have hrun : ((accessGuarded base build (.done e)).run k).1 = .done (build e) := by
        simp only [accessGuarded, he]; rfl
      simp only [hrun, GuardChain.run_done, GuardChain.inner, he, hbuild e fr' hfr]
      cases e.eval s fr' with
      | error _ => rfl
      | ok recv =>
        simp only [ok_bind, pure_ok, Link.access, Bool.and_false, Bool.false_eq_true, if_false]
  | guarded x v rest ih =>
    have hrun : ((accessGuarded base build (.guarded x v rest)).run k).1 =
        .guarded x v ((accessGuarded base build rest).run k).1 := rfl
    simp only [hrun, GuardChain.run_guarded, GuardChain.inner]
    cases x.eval s fr' with
    | error _ => rfl
    | ok recv =>
      simp only [ok_bind]
      split
      · rfl
      · exact ih hc.2 (hfr.bind_right hc.1 recv)

/-! ## The chain of an expression -/

section Chain

variable {base : Nat} {build : Expr → Expr}

theorem accessGuarded_from {c : GuardChain} (hc : c.From base) (k : Nat) :
    ((accessGuarded base build c).run k).1.From base := by
  induction c with
  | done e =>
    simp only [accessGuarded]
    split
    · exact ⟨Nat.le_add_right base k, trivial⟩
    · trivial
  | guarded x v rest ih => exact ⟨hc.1, ih hc.2⟩

theorem accessGuarded_inner (base : Nat) (build : Expr → Expr) (c : GuardChain) (k : Nat) :
    ∃ x, ((accessGuarded base build c).run k).1.inner = build x := by
  induction c with
  | done e =>
    simp only [accessGuarded]
    split
    · exact ⟨_, rfl⟩
    · exact ⟨_, rfl⟩
  | guarded x v rest ih => exact ih

theorem guardChain_from (base : Nat) (e : Expr) (n : Nat) :
    ((guardChain base e).run n).1.From base := by
  cases e with
  | member x | call x | index x => exact accessGuarded_from (guardChain_from base x _) _
  | _ => trivial

@[simp] theorem label_type (base n : Nat) (e : Expr) : (e.label base n).type = e.type := by
  cases e with
  | member x f =>
    obtain ⟨y, hy⟩ := accessGuarded_inner base (.member · f) ((guardChain base x).run n).1 _
    exact (congrArg type hy).trans rfl
  | call x m args =>
    obtain ⟨y, hy⟩ := accessGuarded_inner base (.call · m ((guardList base args).run n).1)
      ((guardChain base x).run (afterList base n args)).1 _
    exact (congrArg type hy).trans rfl
  | index x k t =>
    obtain ⟨y, hy⟩ := accessGuarded_inner base (.index · ((guardChain base k).run n).1.toExpr t)
      ((guardChain base x).run (after base n k)).1 _
    exact (congrArg type hy).trans rfl
  | unary op x => exact (GuardChain.toExpr_type _).trans (label_type base n x)
  | _ => rfl

theorem toExpr_mayBeNull {c : GuardChain} (h : c.inner.mayBeNull = c.inner.type.isNullable) :
    c.toExpr.mayBeNull = c.inner.mayBeNull := by
  cases c with
  | done e => rfl
  | guarded x v rest => rw [h, ← GuardChain.toExpr_type]; rfl

theorem accessGuarded_mayBeNull {t : Ty} (hm : ∀ x, (build x).mayBeNull = t.isNullable)
    (ht : ∀ x, (build x).type = t) (c : GuardChain) (k : Nat) :
    ((accessGuarded base build c).run k).1.inner.mayBeNull = t.isNullable ∧
      ((accessGuarded base build c).run k).1.toExpr.mayBeNull = t.isNullable := by
  obtain ⟨x, hx⟩ := accessGuarded_inner base build c k
  have hi : ((accessGuarded base build c).run k).1.inner.mayBeNull = t.isNullable := by rw [hx, hm]
  refine ⟨hi, ?_⟩
  rw [toExpr_mayBeNull (by rw [hx, hm, ht]), hi]

theorem guardChain_mayBeNull (base : Nat) (e : Expr) (n : Nat) :
    (e.label base n).mayBeNull = e.mayBeNull ∧
      ((guardChain base e).run n).1.toExpr.mayBeNull = e.mayBeNull := by
  cases e with
  | member _ f => exact accessGuarded_mayBeNull (t := f.type) (fun _ => rfl) (fun _ => rfl) _ _
  | call _ m => exact accessGuarded_mayBeNull (t := m.result) (fun _ => rfl) (fun _ => rfl) _ _
  | index _ _ t => exact accessGuarded_mayBeNull (t := t) (fun _ => rfl) (fun _ => rfl) _ _
  | unary op x =>
    have h := label_type base n (.unary op x)
    exact ⟨congrArg Ty.isNullable h, congrArg Ty.isNullable h⟩
  | convert k x t =>
    have h := congrArg (t.isNullable && ·) (guardChain_mayBeNull base x n).2
    exact ⟨h, h⟩
  | _ => exact ⟨rfl, rfl⟩

theorem stopsAt_eq (base n : Nat) (x : Expr) (v : Operand) :
    x.stopsAt v = (v.isNull && (x.label base n).mayBeNull) := by
  rw [(guardChain_mayBeNull base x n).1, mayBeNull_eq, stopsAt, Bool.and_assoc]

end Chain

theorem chain_access {base n k : Nat} {x : Expr} (build : Expr → Expr)
    (act : Expr → Operand → Except Fault Operand)
    (hbuild : ∀ y fr₁, fr.Agree base fr₁ → (build y).eval s fr₁ = y.eval s fr₁ >>= act (build y))
    (hfr : fr.Agree base fr') (hx : ((guardChain base x).run n).1.run s fr' = chain s base fr n x) :
    ((accessGuarded base build ((guardChain base x).run n).1).run k).1.run s fr' = (do
      (← chain s base fr n x).access x.stopsAt
        (act ((accessGuarded base build ((guardChain base x).run n).1).run k).1.inner)) := by
  rw [accessGuarded_run act _ hbuild (guardChain_from base x n) hfr, hx]
  simp only [funext (stopsAt_eq base n x), label]

theorem le_foldl_locals (ps : List Local) (n : Nat) :
    n ≤ ps.foldl (fun n l => max n (l.id + 1)) n := by
  induction ps generalizing n with
  | nil => exact Nat.le_refl n
  | cons l ps ih => exact Nat.le_trans (Nat.le_max_left ..) (ih _)

theorem guarded_eval_of_run {base n : Nat} {e : Expr}
    (h : ((guardChain base e).run n).1.run s fr' = chain s base fr n e) :
    (e.guarded base n).eval s fr' = (do return (← chain s base fr n e).getD e.type) := by
  rw [guarded, GuardChain.toExpr_eval, h]
  exact congrArg (fun t => (do return (← chain s base fr n e).getD t)) (label_type base n e)

mutual

/-- The guards of an expression stop where its chain breaks, and the expression under the guards
ends the chain. -/
theorem guardChain_run (s : Scope) {fr fr' : Frame} {base : Nat} (hfr : fr.Agree base fr')
    (e : Expr) (n : Nat) (hb : e.nextLocal ≤ base) :
    ((guardChain base e).run n).1.run s fr' = chain s base fr n e := by
  cases e with
  | member x f =>
    have hx := guardChain_run s hfr x n hb
    rw [chain]
    exact chain_access (.member · f) (fun e v => readField e f v) (fun _ _ _ => rfl) hfr hx
  | call x m args =>
    simp only [nextLocal, Nat.max_le] at hb
    have hx := guardChain_run s hfr x (afterList base n args) hb.1
    rw [chain]
    refine chain_access (.call · m (guardedList base n args))
      (fun e v => if v.isNull then .error (failed e (.callOnNull m.name))
        else do applyMethod e m v (← chainList s base fr n args)) (fun y fr₁ h => ?_) hfr hx
    simp only [eval, guardList_run s h args n hb.2]
  | index x k t =>
    simp only [nextLocal, Nat.max_le] at hb
    have hx := guardChain_run s hfr x (after base n k) hb.1
    rw [chain]
    refine chain_access (.index · (k.guarded base n) t) (fun e v => do
      readElement e v ((← chain s base fr n k).getD k.type)) (fun y fr₁ h => ?_) hfr hx
    simp only [eval, guarded_eval_of_run (guardChain_run s h k n hb.2)]
    cases chain s base fr n k <;> rfl
  | callStatic m args =>
    have hargs := guardList_run s hfr args n hb
    refine (GuardChain.run_done s fr' (.callStatic m (guardedList base n args))).trans ?_
    rw [eval, chain, hargs]
    cases chainList s base fr n args <;> rfl
  | unary op x =>
    have hx := guarded_eval_of_run (guardChain_run s hfr x n hb)
    refine (GuardChain.run_done s fr' (.unary op (x.guarded base n))).trans ?_
    rw [eval, chain, hx]
    cases chain s base fr n x with
    | error _ => rfl
    | ok l =>
      simp only [ok_bind, pure_ok]
      cases (l.getD x.type).isNull <;> rfl
  | binary op x y t =>
    simp only [nextLocal, Nat.max_le] at hb
    have hx := guarded_eval_of_run (guardChain_run s hfr x n hb.1)
    have hy := guarded_eval_of_run (guardChain_run s hfr y (after base n x) hb.2)
    refine (GuardChain.run_done s fr' (.binary op (x.guarded base n)
      (y.guarded base (after base n x)) t)).trans ?_
    rw [eval, chain, hx, hy]
    cases chain s base fr n x <;> rfl
  | cond c t e ty =>
    simp only [nextLocal, Nat.max_le] at hb
    have hc := guarded_eval_of_run (guardChain_run s hfr c n hb.1)
    have ht := guarded_eval_of_run (guardChain_run s hfr t (after base n c) hb.2.1)
    have he := guarded_eval_of_run
      (guardChain_run s hfr e (after base (after base n c) t) hb.2.2)
    refine (GuardChain.run_done s fr' (.cond (c.guarded base n) (t.guarded base (after base n c))
      (e.guarded base (after base (after base n c) t)) ty)).trans ?_
    rw [eval, chain, hc, ht, he]
    cases chain s base fr n c with
    | error _ => rfl
    | ok l =>
      simp only [ok_bind, pure_ok]
      cases (l.getD c.type).isTrue with
      | true => cases chain s base fr (after base n c) t <;> rfl
      | false => cases chain s base fr (after base (after base n c) t) e <;> rfl
  | convert k x t =>
    have hx := guarded_eval_of_run (guardChain_run s hfr x n hb)
    refine (GuardChain.run_done s fr' (.convert k (x.guarded base n) t)).trans ?_
    rw [eval, chain, hx]
    cases chain s base fr n x <;> rfl
  | lambda ps b t =>
    have hb : b.nextLocal ≤ base := Nat.le_trans (le_foldl_locals ps _) hb
    refine (GuardChain.run_done s fr' (.lambda ps (b.guarded base n) t)).trans ?_
    simp only [eval, chain, fun args =>
      guarded_eval_of_run (guardChain_run s (hfr.bindAll ps args) b n hb)]
    rfl
  | list xs t =>
    have hxs := guardList_run s hfr xs n hb
    refine (GuardChain.run_done s fr' (.list (guardedList base n xs) t)).trans ?_
    rw [eval, chain, hxs]
    cases chainList s base fr n xs <;> rfl
  | guard x v b t =>
    simp only [nextLocal, Nat.max_le] at hb
    have hx := guarded_eval_of_run (guardChain_run s hfr x n hb.2.1)
    have hv recv := guarded_eval_of_run
      (guardChain_run s (hfr.bind v recv) b (after base n x) hb.2.2)
    refine (GuardChain.run_done s fr' (.guard (x.guarded base n) v
      (b.guarded base (after base n x)) t)).trans ?_
    rw [eval, chain, hx]
    simp only [hv]
    cases chain s base fr n x with
    | error _ => rfl
    | ok l =>
      simp only [ok_bind, pure_ok]
      cases (l.getD x.type).isNull with
      | true => rfl
      | false => cases chain s base (fr.bind v (l.getD x.type)) (after base n x) b <;> rfl
  | param name owner special =>
    refine (GuardChain.run_done s fr' (.param name owner special)).trans ?_
    simp only [chain, eval, readParam, hfr.vms, hfr.control]
  | var l =>
    refine (GuardChain.run_done s fr' (.var l)).trans ?_
    simp only [chain, eval, hfr.get l.id hb]
  | const | typeRef => rfl

theorem guardList_run (s : Scope) {fr fr' : Frame} {base : Nat} (hfr : fr.Agree base fr')
    (es : List Expr) (n : Nat) (hb : nextLocalList es ≤ base) :
    evalList s fr' (guardedList base n es) = chainList s base fr n es := by
  cases es with
  | nil => rfl
  | cons x xs =>
    simp only [nextLocalList, Nat.max_le] at hb
    have hx := guarded_eval_of_run (guardChain_run s hfr x n hb.1)
    have hxs := guardList_run s hfr xs (after base n x) hb.2
    rw [chainList, ← hxs]
    change evalList s fr' (x.guarded base n :: (guardedList base (after base n x) xs)) = _
    rw [evalList, hx]
    cases chain s base fr n x <;> rfl

end

/-- An expression under its guards has the value, or the error, that its chains have. -/
theorem guardNulls_eval (s : Scope) (fr : Frame) (e : Expr) :
    e.guardNulls.eval s fr = e.meaning s fr :=
  guarded_eval_of_run (guardChain_run s (.refl _ fr) e 0 (Nat.le_refl _))

/-! Guards stay inside conversions and unary operators. -/

@[simp] theorem guardNulls_type (e : Expr) : e.guardNulls.type = e.type :=
  (GuardChain.toExpr_type _).trans (label_type _ _ e)

theorem guardNulls_convert (k : Conversion) (x : Expr) (t : Ty) :
    (convert k x t).guardNulls = .convert k x.guardNulls t := rfl

theorem guardNulls_unary (op : UnaryOp) (x : Expr) :
    (unary op x).guardNulls = .unary op x.guardNulls := rfl

end Expr

end Bindery
