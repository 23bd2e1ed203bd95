import Bindery.Proofs.PureEnvironment
import Bindery.Proofs.ScriptParts

/-!
# Evaluation in environments that correspond

Two functions that scripts define are counterparts if their bodies are and the names in scope stand
for counterparts. `Client.Counterpart` extends this to all values, for a relation `B` of bodies and
a set `X` of names. Nodes of one kind evaluate alike if their operands do
(`Script.evalRef_reshaped`), so scripts that are built alike from leaves that evaluate alike do so
themselves (`Script.evalRef_tracks`), and a script that mentions no other names and assigns nothing
evaluates alike where the names in `X` stand for counterparts (`Script.evalRef_follows`).
-/

namespace Bindery.Client

/-- What a name stands for: nothing, or related values that no assignment changes. -/
inductive SlotRel (R : Value → Value → Prop) : Option Slot → Option Slot → Prop
  | none : SlotRel R none none
  | fixed {v w : Value} : R v w → SlotRel R (some (.fixed v)) (some (.fixed w))

/-- The names in `X` stand for related values. -/
def Env.Rel (R : Value → Value → Prop) (X : Text → Prop) (ρ η : Env) : Prop :=
  ∀ n, X n → SlotRel R (ρ.lookup n) (η.lookup n)

/-- The values are alike, with functions whose bodies and scopes are related by `B` and in whose
scopes the names in `X` stand for counterparts. -/
inductive Counterpart (P : Text → Text → Prop) (I : Nat → Nat → Prop)
    (B : Script → Env → Script → Env → Prop) (X : Text → Prop) : Value → Value → Prop
  | of_alike {v w : Value} (hclosure : v.isClosure = false)
    (h : PathAlike P I (Counterpart P I B X) v w) : Counterpart P I B X v w
  | closure {i j : Nat} (hid : I i j) {ps : List Text} {b c : Script} {ρ η : Env}
      (hbody : B b ρ c η)
    (hparams : ∀ p ∈ ps, X p)
    (henv : ∀ n, X n → SlotRel (Counterpart P I B X) (List.lookup n ρ) (List.lookup n η)) :
    Counterpart P I B X (.closure i ps b ρ) (.closure j ps c η)

variable {P : Text → Text → Prop} {B : Script → Env → Script → Env → Prop} {X : Text → Prop}

theorem forall₂_imp_mem {α β : Type} {R R' : α → β → Prop} {vs : List α} {ws : List β}
    (h : List.Forall₂ R vs ws) (himp : ∀ v ∈ vs, ∀ w, R v w → R' v w) : List.Forall₂ R' vs ws := by
  induction h with
  | nil => exact .nil
  | cons hv _ ih =>
    exact .cons (himp _ List.mem_cons_self _ hv) (ih fun v hv => himp v (List.mem_cons_of_mem _ hv))

theorem forall_mem_of_forall₂ {α β : Type} {p : β → Prop} {vs : List α} {ws : List β}
    (h : List.Forall₂ (fun _ w => p w) vs ws) : ∀ w ∈ ws, p w := by
  induction h with
  | nil => exact nofun
  | cons hw _ ih => exact List.forall_mem_cons.2 ⟨hw, ih⟩

theorem Counterpart.imp {I J : Nat → Nat → Prop} (hIJ : ∀ i j, I i j → J i j)
    {B' : Script → Env → Script → Env → Prop} (hB : ∀ b ρ c η, B b ρ c η → B' b ρ c η) {v w : Value}
    (h : Counterpart P I B X v w) : Counterpart P J B' X v w := by
  -- The induction is on the size of the value: what a function has in scope is smaller than it is.
  induction hn : sizeOf v using Nat.strongRecOn generalizing v w with
  | ind n ih =>
    subst hn
    have smaller {u u' : Value} (hlt : sizeOf u < sizeOf v) (hu : Counterpart P I B X u u') :
        Counterpart P J B' X u u' := ih _ hlt hu rfl
    cases h with
    | of_alike hclosure h =>
      refine .of_alike hclosure ?_
      cases h with
      | undefined => exact .undefined
      | null => exact .null
      | bool b => exact .bool b
      | number n => exact .number n
      | text t => exact .text t
      | native f => exact .native f
      | array hid h =>
        refine .array (hIJ _ _ hid) (forall₂_imp_mem h fun u hu u' => smaller ?_)
        have := List.sizeOf_lt_of_mem hu
        simp only [Value.array.sizeOf_spec]
        omega
      | object hid hkeys h =>
        refine .object (hIJ _ _ hid) hkeys (forall₂_imp_mem h fun u hu u' => smaller ?_)
        obtain ⟨⟨k, u⟩, hp, rfl⟩ := List.mem_map.1 hu
        have := List.sizeOf_lt_of_mem hp
        simp only [Value.object.sizeOf_spec, Prod.mk.sizeOf_spec] at this ⊢
        omega
      | cell hid hpath h =>
        exact .cell (hIJ _ _ hid) hpath (smaller (by simp only [Value.cell.sizeOf_spec]; omega) h)
      | computed hid h =>
        exact .computed (hIJ _ _ hid) (smaller (by simp only [Value.computed.sizeOf_spec]; omega) h)
      | closure => cases hclosure
    | @closure i j hid ps b c ρ η hbody hparams henv =>
      refine .closure (hIJ _ _ hid) (hB _ _ _ _ hbody) hparams fun n hn => ?_
      have hslot := henv n hn
      cases hρ : List.lookup n ρ with
      | none =>
        rw [hρ] at hslot
        generalize List.lookup n η = b at hslot
        cases hslot
        exact .none
      | some slot =>
        rw [hρ] at hslot
        generalize List.lookup n η = b at hslot
        cases hslot with
        | @fixed u u' hu =>
          obtain ⟨l₁, l₂, heq, -⟩ := List.lookup_eq_some_iff.1 hρ
          have hmem : (n, Slot.fixed u) ∈ ρ := by simp [heq]
          have := List.sizeOf_lt_of_mem hmem
          refine .fixed (smaller ?_ hu)
          simp only [Value.closure.sizeOf_spec, Prod.mk.sizeOf_spec,
            Slot.fixed.sizeOf_spec] at this ⊢
          omega

theorem Counterpart.paths {K : Comparison} :
    PathFamily P K fun w => Counterpart P (K.sameId w) B X where
  alike h := by
    cases h with
    | of_alike _ h => exact h
    | closure hid => exact .closure hid ..
  of_alike := .of_alike
  mono hle h := h.imp (fun _ _ => K.sameId_mono hle) fun _ _ _ _ hb => hb

theorem Counterpart.likeness {I : Nat → Nat → Prop} : Likeness I (Counterpart (· = ·) I B X) where
  alike h := by
    cases h with
    | of_alike _ h => exact h
    | closure hid => exact .closure hid ..
  of_alike := .of_alike

/-! ## Parameters -/

/-- The parameters of a function that assigns to none of them. -/
def bindFixed : List Text → List Value → Env → Env
  | [], _, env => env
  | p :: ps, args, env => bindFixed ps args.tail ((p, .fixed (args.headD .undefined)) :: env)

theorem bindParams_of_disjoint {assigned ps : List Text} (h : ∀ p ∈ ps, p ∉ assigned)
    (args : List Value) (env : Env) :
    bindParams assigned ps args env = pure (bindFixed ps args env) := by
  induction ps generalizing args env with
  | nil => rfl
  | cons p ps ih =>
    have hp : assigned.contains p = false := by simpa using h p (by simp)
    rw [bindParams, hp]
    exact ih (fun q hq => h q (by simp [hq])) _ _

namespace Env.Rel

variable {R : Value → Value → Prop} {ρ η : Env}

theorem mono {R' : Value → Value → Prop} (h : Env.Rel R X ρ η) (hR : ∀ v w, R v w → R' v w) :
    Env.Rel R' X ρ η := by
  intro n hn
  have hslot := h n hn
  generalize List.lookup n ρ = a at hslot
  generalize List.lookup n η = b at hslot
  cases hslot with
  | none => exact .none
  | fixed hv => exact .fixed (hR _ _ hv)

theorem cons (h : Env.Rel R X ρ η) (p : Text) {v w : Value} (hv : R v w) :
    Env.Rel R X ((p, .fixed v) :: ρ) ((p, .fixed w) :: η) := by
  intro n hn
  simp only [List.lookup_cons]
  split
  · exact .fixed hv
  · exact h n hn

theorem bindFixed (h : Env.Rel R X ρ η) (hundef : R .undefined .undefined)
    (ps : List Text) {args args' : List Value} (hargs : List.Forall₂ R args args') :
    Env.Rel R X (bindFixed ps args ρ) (bindFixed ps args' η) := by
  induction ps generalizing ρ η args args' with
  | nil => exact h
  | cons p ps ih =>
    cases hargs with
    | nil => exact ih (h.cons p hundef) .nil
    | cons hv hrest => exact ih (h.cons p hv) hrest

theorem of_isGiven {base : Nat} {I : Nat → Nat → Prop} (hR : Likeness I R) (hI : ∀ i < base, I i i)
    (X : Text → Prop) {env : Env} (henv : Env.isGiven base env) : Env.Rel R X env env := by
  intro n _
  cases hlookup : env.lookup n with
  | none => exact .none
  | some slot =>
    obtain ⟨l₁, l₂, heq, -⟩ := List.lookup_eq_some_iff.1 hlookup
    have hslot := List.all_eq_true.1 henv (n, slot) (by simp [heq])
    cases slot with
    | fixed v => exact .fixed (hR.of_isGiven hI v hslot)
    | place i => cases hslot

end Env.Rel

theorem HostRel.name {K : Comparison} {w : K.World} {R : K.World → Value → Value → Prop}
    {h h' : Host} (hh : HostRel K w R h h') {ρ η : Env} (henv : Env.Rel (R w) X ρ η) {n : Text}
    (hn : X n) : K.Rel w R (h.name ρ n) (h'.name η n) := by
  have hslot := henv n hn
  have hglobal := hh.global (K.le_refl w) n
  unfold Host.name
  generalize List.lookup n ρ = a at hslot
  generalize List.lookup n η = b at hslot
  cases hslot with
  | fixed hv => exact .pure hv
  | none =>
    simp only
    generalize h.global n = a at hglobal
    generalize h'.global n = b at hglobal
    cases hglobal with
    | some hv => exact .pure hv
    | none => exact .throw _ _

end Bindery.Client

namespace Bindery.Script

open Client

variable {P : Text → Text → Prop} {X : Text → Prop}

/-- The node assigns nothing and mentions only names in `X`. -/
def Steady (X : Text → Prop) : Script → Prop
  | .ident _ n => X n
  | .function _ ps _ => ∀ p ∈ ps, X p
  | .arrow _ ps _ => ∀ p ∈ ps, X p
  | s => s.isPure

theorem Steady.isPure {s : Script} (h : s.Steady X) : s.isPure := by
  cases s <;> first | rfl | exact h

def PairRel (R : Client.Value → Client.Value → Prop) (p q : Client.Value × Client.Value) : Prop :=
  R p.1 q.1 ∧ R p.2 q.2

theorem getLastD_rel {R : Client.Value → Client.Value → Prop} {vs ws : List Client.Value}
    (h : List.Forall₂ R vs ws) {d e : Client.Value} (hd : R d e) :
    R (vs.getLastD d) (ws.getLastD e) := by
  induction h generalizing d e with
  | nil => exact hd
  | cons hv _ ih =>
    rw [List.getLastD_cons, List.getLastD_cons]
    exact ih hv

theorem evalRef_binary {op : BinOp} (hop : op ≠ .assign) (h : Host) (env : Env) (m : Marks)
    (x y : Script) : evalRef h env (.binary m op x y) = (do
      let (_, v) ← evalRef h env x
      if needsRight op v then
        let (_, w) ← evalRef h env y
        return (.undefined, ← h.binary op v w)
      else return (.undefined, v)) := by
  cases op <;> first | exact absurd rfl hop | rfl

theorem evalCall_core (h : Host) (env : Env) (callee : Run (Client.Value × Client.Value))
    (args : Run (List Client.Value)) (f : Script) :
    evalCall h env callee args f = evalCall h env callee args f.core := by
  cases f with
  | paren m f => exact evalCall_core h env callee args f
  | _ => rfl

/-- Parentheses around the callee of a call have no part in it. -/
theorem evalRef_call_core (h : Host) (env : Env) (m : Marks) (f : Script) (args : List Script) :
    evalRef h env (.call m f args) =
      evalCall h env (evalRef h env f) (evalList h env args) f.core :=
  evalCall_core ..

theorem evalRef_call {f : Script} (hf : f.core.isFunction = false) (h : Host)
    (env : Env) (m : Marks) (args : List Script) : evalRef h env (.call m f args) = (do
      let (receiver, fn) ← evalRef h env f
      let vs ← evalList h env args
      return (.undefined, ← h.call fn receiver vs)) := by
  rw [evalRef_call_core]
  generalize hg : f.core = g at hf
  cases g <;> first | rfl | exact absurd hg (f.core_ne_paren _ _) | cases hf

/-! ## Nodes -/

section Nodes

variable {K : Comparison} {w : K.World} {R : K.World → Client.Value → Client.Value → Prop}
  {h h' : Host} {ρ η : Env}

def evalClosure (ρ : Env) (ps : List Text) (b : Script) : Run (Client.Value × Client.Value) := do
  return (.undefined, .closure (← Run.fresh) ps b ρ)

/-- The call of a function literal, without a function value. -/
def evalInPlace (h : Host) (ρ : Env) (ps : List Text) (b : Script) (vs : List Client.Value) :
    Run (Client.Value × Client.Value) := do
  let (_, v) ← b.evalRef h (← bindParams b.assigned ps vs ρ)
  return (.undefined, v)

/-- The second script gives a related value, now and later. -/
def ValueFollows (K : Comparison) (w : K.World) (R : K.World → Client.Value → Client.Value → Prop)
    (h : Host) (ρ : Env) (h' : Host) (η : Env) (x y : Script) : Prop :=
  ∀ w' : K.World, K.le w w' →
    K.Rel w' (fun w p q => R w p.2 q.2) (x.bare.evalRef h ρ) (y.bare.evalRef h' η)

/-- The second script gives a related value with a related receiver, now and later. -/
def PairFollows (K : Comparison) (w : K.World) (R : K.World → Client.Value → Client.Value → Prop)
    (h : Host) (ρ : Env) (h' : Host) (η : Env) (x y : Script) : Prop :=
  ∀ w' : K.World, K.le w w' →
    K.Rel w' (fun w => PairRel (R w)) (x.bare.evalRef h ρ) (y.bare.evalRef h' η)

theorem PairFollows.value {x y : Script} (hxy : PairFollows K w R h ρ h' η x y) :
    ValueFollows K w R h ρ h' η x y :=
  fun w' hle => (hxy w' hle).mono fun _ _ _ _ hpq => hpq.2

theorem ValueFollows.mono {x y : Script} (hxy : ValueFollows K w R h ρ h' η x y) {w' : K.World}
    (hle : K.le w w') : ValueFollows K w' R h ρ h' η x y :=
  fun w'' hle' => hxy w'' (K.le_trans hle hle')

theorem evalList_follows (hR : PathFamily P K R) {xs ys : List Script}
    (hxs : List.Forall₂ (ValueFollows K w R h ρ h' η) xs ys) :
    K.Rel w (fun w => List.Forall₂ (R w)) (evalList h ρ (bareList xs))
      (evalList h' η (bareList ys)) := by
  induction xs generalizing w ys with
  | nil =>
    cases hxs
    exact .pure .nil
  | cons x xs ih =>
    obtain _ | ⟨hx, hxs⟩ := hxs
    refine (hx w (K.le_refl w)).bind fun w₁ p q hle hpq => ?_
    refine (ih (hxs.imp fun _ _ hxy => hxy.mono hle)).bind fun w₂ vs us hle' hvs => ?_
    exact .pure (.cons (hR.mono hle' hpq) hvs)

theorem evalProps_follows (hR : PathFamily P K R) {ps qs : Record Script}
    (hkeys : ps.map (·.1) = qs.map (·.1))
    (hps : List.Forall₂ (ValueFollows K w R h ρ h' η) (ps.map (·.2)) (qs.map (·.2))) :
    K.Rel w (fun w fs gs => fs.map (·.1) = gs.map (·.1) ∧
        List.Forall₂ (R w) (fs.map (·.2)) (gs.map (·.2)))
      (evalProps h ρ (bareProps ps)) (evalProps h' η (bareProps qs)) := by
  induction ps generalizing w qs with
  | nil =>
    obtain rfl : qs = [] := by simpa using hkeys.symm
    exact .pure ⟨rfl, .nil⟩
  | cons p ps ih =>
    cases qs with
    | nil => cases hkeys
    | cons q qs =>
      obtain ⟨k, x⟩ := p
      obtain ⟨l, y⟩ := q
      obtain ⟨hk, htail⟩ := List.cons.inj hkeys
      obtain rfl : k = l := hk
      obtain _ | ⟨hx, hps⟩ := hps
      refine (hx w (K.le_refl w)).bind fun w₁ a b hle hab => ?_
      refine (ih htail (hps.imp fun _ _ hxy => hxy.mono hle)).bind
        fun w₂ fs gs hle' hfg => .pure ?_
      rw [isSome_eq_of_rel (lookup_rel hfg.1 hfg.2 k)]
      split
      · exact hfg
      · exact ⟨by simp [hfg.1], .cons (hR.mono hle' hab) hfg.2⟩

/-- The node passes on or uses the receiver of its first operand. -/
def usesReceiver : Script → Bool
  | .call .. | .paren .. => true
  | _ => false

/-- Nodes of one kind evaluate alike if their operands do. -/
theorem evalRef_reshaped (hh : HostRel K w R h h') (hR : PathFamily P K R) {s out : Script}
    {ys : List Script} (hshape : Reshaped s ys out)
    (hname : ∀ m n, s = .ident m n → K.Rel w R (h.name ρ n) (h'.name η n))
    (hpure : s.isPure) (hfun : s.isFunction = false) (hsymbol : ∀ m n d, s ≠ .symbol m n d)
    (hops : List.Forall₂ (ValueFollows K w R h ρ h' η) s.children ys)
    (hfirst : s.usesReceiver → ∀ x xs y ys', s.children = x :: xs → ys = y :: ys' →
      PairFollows K w R h ρ h' η x y)
    (hcallee : ∀ m f as m' g bs, s = .call m f as → out = .call m' g bs →
      f.core.isFunction = false ∧ g.core.isFunction = false) :
    K.Rel w (fun w => PairRel (R w)) (s.bare.evalRef h ρ) (out.bare.evalRef h' η) := by
  have value {w : K.World} {x y : Run Client.Value} (hxy : K.Rel w R x y) :
      K.Rel w (fun w => PairRel (R w)) (do return (Client.Value.undefined, ← x))
        (do return (Client.Value.undefined, ← y)) :=
    hxy.bind fun _ v v' _ hv => .pure ⟨hR.undefined, hv⟩
  cases hshape with
  | ident m n => exact value (hname m n rfl)
  | literal m v => exact .pure ⟨hR.undefined, hR.of_isPrimitive (by cases v <;> rfl)⟩
  | symbol m n d => exact absurd rfl (hsymbol m n d)
  | member m x n o =>
    obtain _ | ⟨hx, _⟩ := hops
    refine (hx w (K.le_refl w)).bind fun w₁ p q hle hpq => ?_
    exact (hh.member hle n hpq).bind fun _ v v' hle' hv => .pure ⟨hR.mono hle' hpq, hv⟩
  | index m x k o l =>
    obtain _ | ⟨hx, _ | ⟨hk, _⟩⟩ := hops
    refine (hx w (K.le_refl w)).bind fun w₁ p q hle hpq => ?_
    refine (hk _ hle).bind fun w₂ a b hle' hab => ?_
    have hle₂ := K.le_trans hle hle'
    exact (hh.element hle₂ (hR.mono hle' hpq) hab).bind fun _ v v' hle'' hv =>
      .pure ⟨hR.mono (K.le_trans hle' hle'') hpq, hv⟩
  | call m f as g hlen =>
    have hf := hfirst rfl f as g _ rfl rfl
    obtain ⟨hf', hg'⟩ := hcallee _ _ _ _ _ _ rfl rfl
    rw [← isFunction_bare, ← core_bare] at hf' hg'
    obtain _ | ⟨_, has⟩ := hops
    rw [bare, bare, evalRef_call hf', evalRef_call hg']
    refine (hf w (K.le_refl w)).bind fun w₁ p q hle hpq => ?_
    refine (evalList_follows hR (has.imp fun _ _ hxy => hxy.mono hle)).bind
      fun w₂ vs us hle' hvs => ?_
    exact value (hh.call (K.le_trans hle hle') (hR.mono hle' hpq.2) (hR.mono hle' hpq.1) hvs)
  | construct m f as g hlen =>
    obtain _ | ⟨hf, has⟩ := hops
    refine (hf w (K.le_refl w)).bind fun w₁ p q hle hpq => ?_
    refine (evalList_follows hR (has.imp fun _ _ hxy => hxy.mono hle)).bind
      fun w₂ vs us hle' hvs => ?_
    exact value (hh.construct (K.le_trans hle hle') (hR.mono hle' hpq) hvs)
  | unary m op x o =>
    obtain _ | ⟨hx, _⟩ := hops
    exact (hx w (K.le_refl w)).bind fun w₁ p q hle hpq => value ((hh.mono hle).unary hR op hpq)
  | binary m op x y o p =>
    have hop : op ≠ .assign := by
      rintro rfl
      exact absurd hpure (by simp [isPure])
    obtain _ | ⟨hx, _ | ⟨hy, _⟩⟩ := hops
    rw [bare, bare, evalRef_binary hop, evalRef_binary hop]
    refine (hx w (K.le_refl w)).bind fun w₁ p q hle hpq => ?_
    simp only [needsRight_eq op (hR.alike hpq)]
    split
    · refine (hy _ hle).bind fun w₂ a b hle' hab => ?_
      exact value ((hh.mono (K.le_trans hle hle')).binary hR op (hR.mono hle' hpq) hab)
    · exact .pure ⟨hR.undefined, hpq⟩
  | cond m c t e o p q =>
    obtain _ | ⟨hc, _ | ⟨ht, _ | ⟨he, _⟩⟩⟩ := hops
    refine (hc w (K.le_refl w)).bind fun w₁ a b hle hab => ?_
    simp only [(hR.alike hab).isTrue_eq]
    split
    · exact (ht _ hle).bind fun _ a b _ hab => .pure ⟨hR.undefined, hab⟩
    · exact (he _ hle).bind fun _ a b _ hab => .pure ⟨hR.undefined, hab⟩
  | array m hlen =>
    refine (evalList_follows hR hops).bind fun w₁ vs us hle hvs => ?_
    exact Comparison.Rel.fresh.bind fun w₂ i j hle' hij =>
      .pure ⟨hR.undefined, hR.of_alike rfl (.array hij (hR.forall₂ hle' hvs))⟩
  | object m hkeys =>
    refine (evalProps_follows hR hkeys.symm hops).bind fun w₁ fs gs hle hfg => ?_
    exact Comparison.Rel.fresh.bind fun w₂ i j hle' hij =>
      .pure ⟨hR.undefined, hR.of_alike rfl (.object hij hfg.1 (hR.forall₂ hle' hfg.2))⟩
  | paren m x o => exact hfirst rfl x [] o [] rfl rfl w (K.le_refl w)
  | function | arrow => cases hfun
  | sequence m hlen =>
    exact (evalList_follows hR hops).bind fun _ vs us _ hvs =>
      .pure ⟨hR.undefined, getLastD_rel hvs hR.undefined⟩

theorem closure_follows (hR : PathFamily P K R) {ps : List Text} {b c : Script}
    (hclosure : ∀ {w₁ i j}, K.le w w₁ → K.sameId w₁ i j →
      R w₁ (.closure i ps b ρ) (.closure j ps c η)) :
    K.Rel w (fun w => PairRel (R w)) (evalClosure ρ ps b) (evalClosure η ps c) :=
  Comparison.Rel.fresh.bind fun _ _ _ hle hij => .pure ⟨hR.undefined, hclosure hle hij⟩

/-- The call of a function literal agrees if arguments and bodies do. -/
theorem inPlace_follows (hR : PathFamily P K R) {ps : List Text} {vs us : List Client.Value}
    {b c : Script} (hps : ∀ p ∈ ps, p ∉ b.assigned ∧ p ∉ c.assigned) (henv : Env.Rel (R w) X ρ η)
    (hvs : List.Forall₂ (R w) vs us)
    (hbody : Env.Rel (R w) X (bindFixed ps vs ρ) (bindFixed ps us η) →
      K.Rel w (fun w p q => R w p.2 q.2) (b.evalRef h (bindFixed ps vs ρ))
        (c.evalRef h' (bindFixed ps us η))) :
    K.Rel w (fun w => PairRel (R w)) (evalInPlace h ρ ps b vs) (evalInPlace h' η ps c us) := by
  rw [evalInPlace, evalInPlace, bindParams_of_disjoint fun p hp => (hps p hp).1,
    bindParams_of_disjoint fun p hp => (hps p hp).2]
  simp only [pure_bind]
  exact (hbody (henv.bindFixed hR.undefined ps hvs)).bind fun _ p q _ hpq =>
    .pure ⟨hR.undefined, hpq⟩

/-! ## Scripts -/

/-- The scripts are built alike, from leaves that are related by `L`. Those that track each other as
receivers (`true`) give their values in the same way, since a leaf need not. -/
inductive Tracks (X : Text → Prop) (L : Script → Script → Prop) : Bool → Script → Script → Prop
  | leaf {x y : Script} (h : L x y) : Tracks X L false x y
  | unset (b : Bool) (m : Marks) (n : Text) : Tracks X L b (.symbol m n none) (.symbol m n none)
  | symbol (b : Bool) (m : Marks) (n : Text) {x y : Script} (h : Tracks X L true x y) :
    Tracks X L b (.symbol m n (some x)) (.symbol m n (some y))
  | node (b : Bool) {x y : Script} {ys : List Script} (hsteady : x.Steady X)
    (hsymbol : ∀ m n d, x ≠ .symbol m n d) (hshape : Reshaped x ys y)
    (hops : List.Forall₂ (Tracks X L false) x.children ys)
    (hfirst : x.usesReceiver → ∀ a as c cs, x.children = a :: as → ys = c :: cs →
      Tracks X L true a c) : Tracks X L b x y

namespace Tracks

variable {L : Script → Script → Prop} {b : Bool} {x y : Script}

theorem leaf_or (h : Tracks X L b x y) : L x y ∨ ∀ b', Tracks X L b' x y := by
  cases h with
  | leaf h => exact .inl h
  | unset _ m n => exact .inr fun b' => .unset b' m n
  | symbol _ m n h => exact .inr fun b' => .symbol b' m n h
  | node _ hsteady hsymbol hshape hops hfirst =>
    exact .inr fun b' => .node b' hsteady hsymbol hshape hops hfirst

theorem value (h : Tracks X L b x y) : Tracks X L false x y := by
  cases h.leaf_or with
  | inl h => exact .leaf h
  | inr h => exact h false

theorem refl {s : Script} (h : s.Everywhere (Steady X)) (b : Bool) : Tracks X L b s s := by
  induction s using induct_parts generalizing b with
  | h s ih =>
    have hpart (b : Bool) : ∀ x ∈ s.parts, Tracks X L b x x := fun x hx => ih x hx (h.part hx) b
    have node (hsymbol : ∀ m n d, s ≠ .symbol m n d) : Tracks X L b s s := by
      have hshape := reshaped (s := s) rfl
      rw [withChildren_children] at hshape
      refine .node b h.node hsymbol hshape
        (List.forall₂_same.2 fun x hx => hpart false x (mem_parts_of_mem_children hx)) ?_
      intro _ a as c cs ha hc
      obtain ⟨rfl, -⟩ := List.cons.inj (ha.symm.trans hc)
      exact hpart true a (mem_parts_of_mem_children (by simp [ha]))
    cases s with
    | symbol m n d =>
      cases d with
      | none => exact .unset b m n
      | some d => exact .symbol b m n (hpart true d (by simp [parts]))
    | _ => exact node (by rintro _ _ _ ⟨⟩)

theorem forall_operands {Q : Script → Script → Prop} {ys : List Script}
    (hops : List.Forall₂ (Tracks X L false) x.children ys)
    (h : ∀ z ∈ x.parts, ∀ z', Tracks X L false z z' → Q z z') : List.Forall₂ Q x.children ys :=
  forall₂_imp_mem hops fun z hz z' => h z (mem_parts_of_mem_children hz) z'

theorem parts_eq {x : Script} (hsymbol : ∀ m n d, x ≠ .symbol m n d) : x.parts = x.children := by
  cases x <;> first | rfl | exact absurd rfl (hsymbol _ _ _)

theorem eq_of_no_leaf (h : Tracks X (fun _ _ => False) b x y) :
    y = x ∧ x.Everywhere (Steady X) := by
  induction x using induct_parts generalizing b y with
  | h x ih =>
    cases h with
    | leaf h => exact h.elim
    | unset _ m n => exact ⟨rfl, .mk rfl nofun⟩
    | symbol _ m n h =>
      obtain ⟨rfl, hx⟩ := ih _ (by simp [parts]) h
      exact ⟨rfl, .mk rfl (by simpa [parts] using hx)⟩
    | node _ hsteady hsymbol hshape hops =>
      have hall := forall_operands (Q := fun z z' => z.Everywhere (Steady X) ∧ z = z') hops
        fun z hz z' h => ⟨(ih z hz h).2, (ih z hz h).1.symm⟩
      obtain ⟨hsteadies, hsame⟩ := (List.forall₂_and_left _ _).1 hall
      obtain rfl := List.forall₂_eq_eq_eq ▸ hsame
      have hout := hshape.withChildren_eq (rfl : x.children.length = _)
      rw [withChildren_children, ← hshape.children_eq, withChildren_children] at hout
      exact ⟨hout, .mk hsteady (parts_eq hsymbol ▸ hsteadies)⟩

theorem isPure (hL : ∀ x y, L x y → (x.Everywhere fun z => z.isPure) ∧
    y.Everywhere fun z => z.isPure) (h : Tracks X L b x y) :
    (x.Everywhere fun z => z.isPure) ∧ y.Everywhere fun z => z.isPure := by
  induction x using induct_parts generalizing b y with
  | h x ih =>
    cases h with
    | leaf h => exact hL _ _ h
    | unset _ m n => exact ⟨.mk rfl nofun, .mk rfl nofun⟩
    | symbol _ m n h =>
      obtain ⟨hx, hy⟩ := ih _ (by simp [parts]) h
      exact ⟨.mk rfl (by simpa [parts] using hx), .mk rfl (by simpa [parts] using hy)⟩
    | node _ hsteady hsymbol hshape hops =>
      have hy : y.isPure := by
        have hx := hsteady.isPure
        cases hshape with
        | binary m op => cases op <;> first | rfl | cases hx
        | _ => rfl
      have hsymbol' : ∀ m n d, y ≠ .symbol m n d := by
        rintro m n d rfl
        cases hshape
        exact hsymbol _ _ _ rfl
      obtain ⟨hxs, hys⟩ := (List.forall₂_and_left _ _).1
        (forall_operands hops fun z hz z' h => ih z hz h)
      refine ⟨.mk hsteady.isPure (parts_eq hsymbol ▸ hxs), .mk hy ?_⟩
      rw [parts_eq hsymbol', hshape.children_eq]
      exact fun z hz => forall_mem_of_forall₂ hys z hz

theorem isFunction_eq (h : Tracks X L true x y) : x.isFunction = y.isFunction := by
  cases h with
  | unset | symbol => rfl
  | node _ _ _ hshape => cases hshape <;> rfl

theorem core (h : Tracks X L true x y) : Tracks X L true x.core y.core := by
  induction x using induct_parts generalizing y with
  | h x ih =>
    by_cases hx : ∃ m z, x = .paren m z
    · obtain ⟨m, z, rfl⟩ := hx
      obtain _ | _ | _ | ⟨_, -, -, hshape, -, hfirst⟩ := h
      cases hshape
      have hz := hfirst rfl _ _ _ _ rfl rfl
      simpa only [Script.core] using ih z (by simp [parts, children]) hz
    · have hy : ∀ m z, y ≠ .paren m z := by
        rintro m z rfl
        obtain _ | _ | _ | ⟨_, -, -, hshape, -, -⟩ := h
        cases hshape
        exact hx ⟨_, _, rfl⟩
      rwa [core_eq fun m z hz => hx ⟨m, z, hz⟩, core_eq hy]

end Tracks

/-- Scripts that track each other evaluate alike, if their leaves do wherever the scopes are related
by `D`. -/
theorem evalRef_tracks (hR : PathFamily P K R) {D : Env → Env → Prop} {L : Script → Script → Prop}
    {w₀ : K.World}
    (hleaf : ∀ {w : K.World} {ρ η : Env} {x y : Script}, K.le w₀ w → D ρ η → L x y →
      ValueFollows K w R h ρ h' η x y)
    (hpure : ∀ x y, L x y → (x.Everywhere fun z => z.isPure) ∧
      y.Everywhere fun z => z.isPure)
    (hscope : ∀ {ps : List Text} {vs us : List Client.Value} {ρ η : Env}, (∀ p ∈ ps, X p) → D ρ η →
      D (bindFixed ps vs ρ) (bindFixed ps us η))
    (hclosure : ∀ {w : K.World} {i j : Nat} {ps : List Text} {b c : Script} {ρ η : Env},
      K.sameId w i j → Tracks X L false b c → (∀ p ∈ ps, X p) → D ρ η → Env.Rel (R w) X ρ η →
        R w (.closure i ps b.bare ρ) (.closure j ps c.bare η))
    {r : Bool} {x y : Script} (hxy : Tracks X L r x y) (hle : K.le w₀ w) (hh : HostRel K w R h h')
    (hD : D ρ η) (henv : Env.Rel (R w) X ρ η) :
    ValueFollows K w R h ρ h' η x y ∧ (r → PairFollows K w R h ρ h' η x y) := by
  induction x using induct_size generalizing r y w ρ η with
  | h x ih =>
    have both (hpair : PairFollows K w R h ρ h' η x y) : ValueFollows K w R h ρ h' η x y ∧
        (r → PairFollows K w R h ρ h' η x y) := ⟨hpair.value, fun _ => hpair⟩
    cases hxy with
    | leaf hxy => exact ⟨hleaf hle hD hxy, by rintro ⟨⟩⟩
    | unset _ m n => exact both fun _ _ => .throw _ _
    | symbol _ m n hxy =>
      have hdefault := ih _ (by simp; omega) hxy hle hh hD henv
      exact ⟨hdefault.1, fun _ => hdefault.2 rfl⟩
    | @node _ _ _ ys hsteady hsymbol hshape hops hfirst =>
      refine both fun w' hle' => ?_
      have hle₀ := K.le_trans hle hle'
      have hh' := hh.mono hle'
      have henv' := henv.mono fun _ _ => hR.mono hle'
      have hvalues : List.Forall₂ (ValueFollows K w' R h ρ h' η) x.children ys :=
        forall₂_imp_mem hops fun z hz z' hzz' =>
          (ih z (sizeOf_lt_of_mem_children hz) hzz' hle₀ hh' hD henv').1
      have node (hfun : x.isFunction = false) (hcallee : ∀ m f as m' g bs, x = .call m f as →
          y = .call m' g bs → f.core.isFunction = false ∧ g.core.isFunction = false) :
          K.Rel w' (fun w => PairRel (R w)) (x.bare.evalRef h ρ) (y.bare.evalRef h' η) := by
        refine evalRef_reshaped hh' hR hshape (fun m n hx => hh'.name henv' ?_) hsteady.isPure hfun
          hsymbol hvalues ?_ hcallee
        · subst hx
          exact hsteady
        intro huses a as c cs ha hc
        have hsize := sizeOf_lt_of_mem_children (s := x) (x := a) (by simp [ha])
        exact (ih a hsize (hfirst huses a as c cs ha hc) hle₀ hh' hD henv').2 rfl
      -- A function literal that is called is evaluated in place.
      have inPlace {ps : List Text} {b c : Script} {as os : List Script} (hps : ∀ p ∈ ps, X p)
          (hsize : sizeOf b < sizeOf x) (hbody : List.Forall₂ (Tracks X L false) [b] [c])
          (hargs : List.Forall₂ (ValueFollows K w' R h ρ h' η) as os) :
          K.Rel w' (fun w => PairRel (R w))
            (evalList h ρ (bareList as) >>= evalInPlace h ρ ps b.bare)
            (evalList h' η (bareList os) >>= evalInPlace h' η ps c.bare) := by
        obtain _ | ⟨hbody, -⟩ := hbody
        obtain ⟨hb, hc⟩ := hbody.isPure hpure
        refine (evalList_follows hR hargs).bind fun w₁ vs us hle₁ hvs => ?_
        refine inPlace_follows (X := X) hR
          (by simp [assigned_bare_of_pure _ hb, assigned_bare_of_pure _ hc])
          (henv'.mono fun _ _ => hR.mono hle₁) hvs fun henv₁ => ?_
        exact (ih b hsize hbody (K.le_trans hle₀ hle₁) (hh'.mono hle₁) (hscope hps hD) henv₁).1 w₁
          (K.le_refl w₁)
      cases hshape with
      | function m ps b c | arrow m ps b c =>
        obtain _ | ⟨hbody, -⟩ := hops
        exact closure_follows hR fun hle₁ hij =>
          hclosure hij hbody hsteady hD (henv'.mono fun _ _ => hR.mono hle₁)
      | call m f as g hlen =>
        have hfg := (hfirst rfl f as g _ rfl rfl).core
        have hsize := sizeOf_core_le f
        obtain _ | ⟨-, hargs⟩ := hvalues
        cases hfun : f.core.isFunction with
        | true =>
          rw [bare, bare, evalRef_call_core, evalRef_call_core, core_bare, core_bare]
          generalize f.core = f₁ at hfun hfg hsize
          cases f₁ with
          | function m' ps b | arrow m' ps b =>
            obtain _ | _ | _ | ⟨_, hps, -, hshape', hbody, -⟩ := hfg
            generalize g.core = g₁ at hshape'
            cases hshape'
            exact inPlace hps (by simp at hsize ⊢; omega) hbody hargs
          | _ => cases hfun
        | false =>
          refine node rfl fun m' f' as' m'' g' bs hf hg => ?_
          cases hf
          cases hg
          exact ⟨hfun, hfg.isFunction_eq ▸ hfun⟩
      | _ => exact node rfl (by rintro _ _ _ _ _ _ ⟨⟩)

/-- A script that assigns nothing evaluates alike where the names that it mentions stand for related
values. -/
theorem evalRef_follows (hR : PathFamily P K R)
    (hclosure : ∀ {w : K.World} {i j : Nat} {ps : List Text} {b : Script} {ρ η : Env},
      K.sameId w i j → b.Everywhere (Steady X) → (∀ p ∈ ps, X p) → Env.Rel (R w) X ρ η →
        R w (.closure i ps b.bare ρ) (.closure j ps b.bare η))
    (s : Script) (hs : s.Everywhere (Steady X)) (hh : HostRel K w R h h')
    (henv : Env.Rel (R w) X ρ η) : PairFollows K w R h ρ h' η s s := by
  refine (evalRef_tracks (D := fun _ _ => True) (L := fun _ _ => False) hR
    (fun _ _ h => h.elim) (fun _ _ h => h.elim) (fun _ _ => trivial) ?_
      (.refl hs true) (K.le_refl w)
    hh trivial henv).2 rfl
  intro w i j ps b c ρ η hij hbc hps _ henv
  obtain ⟨rfl, hb⟩ := hbc.eq_of_no_leaf
  exact hclosure hij hb hps henv

/-- Calls of counterparts agree, however deep calls may nest, if the bodies of functions that are
counterparts do. -/
theorem callWithin_counterpart {E : Environment} {B : Script → Env → Script → Env → Prop}
    (hE : E.PathParametric P K) {w₀ : K.World}
    (hassigned : ∀ {b c : Script} {ρ η : Env}, B b ρ c η →
      ∀ p, X p → p ∉ b.assigned ∧ p ∉ c.assigned)
    (hbody : ∀ {w : K.World} {c c' : Caller} {b b' : Script} {ρ η : Env} {ps : List Text}
      {args args' : List Client.Value}, K.le w₀ w →
      CallerRel K w (fun w => Counterpart P (K.sameId w) B X) c c' → B b ρ b' η → (∀ p ∈ ps, X p) →
      Env.Rel (Counterpart P (K.sameId w) B X) X (bindFixed ps args ρ) (bindFixed ps args' η) →
      K.Rel w (fun w p q => Counterpart P (K.sameId w) B X p.2 q.2)
        (b.evalRef (E.host c) (bindFixed ps args ρ))
          (b'.evalRef (E.host c') (bindFixed ps args' η)))
    (depth : Nat) : CallerRel K w₀ (fun w => Counterpart P (K.sameId w) B X) (E.callWithin depth)
      (E.callWithin depth) := by
  have hR : PathFamily P K fun w => Counterpart P (K.sameId w) B X := Counterpart.paths
  induction depth with
  | zero =>
    intro w f f' this this' args args' _ _ _ _
    exact .throw _ _
  | succ depth ih =>
    intro w f f' this this' args args' hle hf hthis hargs
    have hcaller : CallerRel K w (fun w => Counterpart P (K.sameId w) B X) (E.callWithin depth)
        (E.callWithin depth) := CallerRel.mono ih hle
    cases hf with
    | of_alike hclosure halike =>
      have hclosure' : f'.isClosure = false := halike.isClosure_eq ▸ hclosure
      rw [Environment.callWithin_succ hclosure, Environment.callWithin_succ hclosure']
      exact hE.call hR hcaller hclosure (.of_alike hclosure halike) hthis hargs
    | @closure i j _ ps b c ρ η hbc hparams henv =>
      have hdisjoint := fun p hp => hassigned hbc p (hparams p hp)
      simp only [Environment.callWithin]
      rw [bindParams_of_disjoint fun p hp => (hdisjoint p hp).1,
        bindParams_of_disjoint fun p hp => (hdisjoint p hp).2]
      simp only [pure_bind]
      have henv' := Env.Rel.bindFixed henv hR.undefined ps hargs
      exact (hbody hle hcaller hbc hparams henv').bind fun _ p q _ hpq => .pure hpq

end Nodes

end Bindery.Script
