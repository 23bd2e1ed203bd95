import Bindery.Client.Host
import Bindery.Proofs.Outcome
import Mathlib.Data.List.Forall2

/-!
# Runs that are compared

Two runs are compared by a `Comparison`. Its worlds say which numbers of arrays, objects and
functions belong together so far, and a run can only go on to a later world. `Comparison.Rel` says
that the second run gives a related result if the first one gives one; if the comparison is strict,
it also throws where the first one does.

Values are compared by a family of relations, one for each world (`Family`). The relations say what
they want about functions that scripts define and are determined on all other values (`Likeness`).
Operators preserve them on hosts whose operations do (`HostRel.binary`, `HostRel.unary`).
-/

namespace Bindery.Client

/-! ## Values that are alike -/

/-- The values are built alike from related parts, with numbers that are related by `I` and cells
whose paths are related by `P`. Functions that scripts define are all alike if their numbers are
related. -/
inductive PathAlike (P : Text → Text → Prop) (I : Nat → Nat → Prop) (R : Value → Value → Prop) :
    Value → Value → Prop
  | undefined : PathAlike P I R .undefined .undefined
  | null : PathAlike P I R .null .null
  | bool (b : Bool) : PathAlike P I R (.bool b) (.bool b)
  | number (n : Number) : PathAlike P I R (.number n) (.number n)
  | text (t : Text) : PathAlike P I R (.text t) (.text t)
  | native (f : Native) : PathAlike P I R (.native f) (.native f)
  | array {i j : Nat} {xs ys : List Value} (hid : I i j) (h : List.Forall₂ R xs ys) :
    PathAlike P I R (.array i xs) (.array j ys)
  | object {i j : Nat} {fs gs : Record Value} (hid : I i j)
    (hkeys : fs.map (·.1) = gs.map (·.1)) (h : List.Forall₂ R (fs.map (·.2)) (gs.map (·.2))) :
    PathAlike P I R (.object i fs) (.object j gs)
  | cell {i j : Nat} {path path' : Text} {v w : Value} (hid : I i j) (hpath : P path path')
    (h : R v w) : PathAlike P I R (.cell i path v) (.cell j path' w)
  | computed {i j : Nat} {f g : Value} (hid : I i j) (h : R f g) :
    PathAlike P I R (.computed i f) (.computed j g)
  | closure {i j : Nat} (hid : I i j) (ps qs : List Text) (b c : Script) (ρ η : Env) :
    PathAlike P I R (.closure i ps b ρ) (.closure j qs c η)

/-- As `PathAlike`, with cells of the same paths. -/
abbrev Alike (I : Nat → Nat → Prop) (R : Value → Value → Prop) : Value → Value → Prop :=
  PathAlike (· = ·) I R

def Value.isClosure : Value → Bool
  | .closure .. => true
  | _ => false

/-- Related values are built alike, and apart from functions that scripts define, values that are
built alike are related. -/
structure Likeness (I : Nat → Nat → Prop) (R : Value → Value → Prop) : Prop where
  alike {v w : Value} : R v w → Alike I R v w
  of_alike {v w : Value} : v.isClosure = false → Alike I R v w → R v w

namespace PathAlike

variable {P : Text → Text → Prop} {I : Nat → Nat → Prop} {R : Value → Value → Prop} {v w : Value}

theorem of_isPrimitive (hv : v.isPrimitive) : PathAlike P I R v v := by
  cases v with
  | undefined => exact .undefined
  | null => exact .null
  | bool b => exact .bool b
  | number n => exact .number n
  | text t => exact .text t
  | _ => cases hv

variable (h : PathAlike P I R v w)

include h

theorem isTrue_eq : v.isTrue = w.isTrue := by cases h <;> rfl

theorem isNullish_eq : v.isNullish = w.isNullish := by cases h <;> rfl

theorem isPrimitive_eq : v.isPrimitive = w.isPrimitive := by cases h <;> rfl

theorem isCallable_eq : v.isCallable = w.isCallable := by cases h <;> rfl

theorem isCell_eq : v.isCell = w.isCell := by cases h <;> rfl

theorem isClosure_eq : v.isClosure = w.isClosure := by cases h <;> rfl

theorem typeName_eq : v.typeName = w.typeName := by cases h <;> rfl

theorem toNumber_eq : v.toNumber = w.toNumber := by cases h <;> rfl

theorem toText_eq : v.toText = w.toText := by cases h <;> rfl

theorem eq_of_isPrimitive (hv : v.isPrimitive) : v = w := by
  cases h <;> first | rfl | cases hv

end PathAlike

namespace Likeness

variable {I : Nat → Nat → Prop} {R : Value → Value → Prop} {v w : Value}

theorem of_isPrimitive (hR : Likeness I R) (hv : v.isPrimitive) : R v v :=
  hR.of_alike (by cases v <;> first | rfl | cases hv) (.of_isPrimitive hv)

theorem undefined (hR : Likeness I R) : R .undefined .undefined := hR.of_isPrimitive rfl

end Likeness

theorem isSome_eq_of_rel {R : Value → Value → Prop} {o o' : Option Value} (h : Option.Rel R o o') :
    o.isSome = o'.isSome := by
  cases h <;> rfl

theorem lookup_rel {R : Value → Value → Prop} {fs gs : Record Value}
    (hkeys : fs.map (·.1) = gs.map (·.1)) (h : List.Forall₂ R (fs.map (·.2)) (gs.map (·.2)))
    (n : Text) : Option.Rel R (fs.get? n) (gs.get? n) := by
  induction fs generalizing gs with
  | nil =>
    obtain rfl : gs = [] := by simpa using hkeys.symm
    exact .none
  | cons f fs ih =>
    cases gs with
    | nil => cases hkeys
    | cons g gs =>
      obtain ⟨k, v⟩ := f
      obtain ⟨l, w⟩ := g
      obtain ⟨hk, htail⟩ := List.cons.inj hkeys
      obtain rfl : k = l := hk
      obtain _ | ⟨hvw, hrest⟩ := h
      simp only [Record.get?]
      split
      · exact .some hvw
      · exact ih htail hrest

/-! ## Values from outside -/

namespace Value

mutual

/-- The value was there before: nothing in it is new, and no script defines a function in it. -/
def isGiven (base : Nat) : Value → Bool
  | .array i xs => decide (i < base) && areGiven base xs
  | .object i fs => decide (i < base) && fieldsGiven base fs
  | .cell i _ v => decide (i < base) && isGiven base v
  | .computed i f => decide (i < base) && isGiven base f
  | .closure .. => false
  | _ => true

def areGiven (base : Nat) : List Value → Bool
  | [] => true
  | v :: vs => isGiven base v && areGiven base vs

def fieldsGiven (base : Nat) : Record Value → Bool
  | [] => true
  | (_, v) :: fs => isGiven base v && fieldsGiven base fs

end

end Value

def Env.isGiven (base : Nat) (env : Env) : Bool :=
  env.all fun
    | (_, .fixed v) => v.isGiven base
    | (_, .place _) => false

namespace Likeness

variable {base : Nat} {I : Nat → Nat → Prop} {R : Value → Value → Prop}

mutual

theorem of_isGiven (hR : Likeness I R) (hI : ∀ i < base, I i i) :
    (v : Value) → v.isGiven base → R v v
  | .array i xs, h => by
    simp only [Value.isGiven, Bool.and_eq_true, decide_eq_true_eq] at h
    exact hR.of_alike rfl (.array (hI i h.1) (of_areGiven hR hI xs h.2))
  | .object i fs, h => by
    simp only [Value.isGiven, Bool.and_eq_true, decide_eq_true_eq] at h
    exact hR.of_alike rfl (.object (hI i h.1) rfl (of_fieldsGiven hR hI fs h.2))
  | .cell i path v, h => by
    simp only [Value.isGiven, Bool.and_eq_true, decide_eq_true_eq] at h
    exact hR.of_alike rfl (.cell (hI i h.1) rfl (of_isGiven hR hI v h.2))
  | .computed i f, h => by
    simp only [Value.isGiven, Bool.and_eq_true, decide_eq_true_eq] at h
    exact hR.of_alike rfl (.computed (hI i h.1) (of_isGiven hR hI f h.2))
  | .closure .., h => nomatch h
  | .undefined, _ => hR.undefined
  | .null, _ | .bool _, _ | .number _, _ | .text _, _ => hR.of_isPrimitive rfl
  | .native f, _ => hR.of_alike rfl (.native f)

theorem of_areGiven (hR : Likeness I R) (hI : ∀ i < base, I i i) :
    (vs : List Value) → Value.areGiven base vs → List.Forall₂ R vs vs
  | [], _ => .nil
  | v :: vs, h => by
    simp only [Value.areGiven, Bool.and_eq_true] at h
    exact .cons (of_isGiven hR hI v h.1) (of_areGiven hR hI vs h.2)

theorem of_fieldsGiven (hR : Likeness I R) (hI : ∀ i < base, I i i) : (fs : Record Value) →
    Value.fieldsGiven base fs → List.Forall₂ R (fs.map (·.2)) (fs.map (·.2))
  | [], _ => .nil
  | (_, v) :: fs, h => by
    simp only [Value.fieldsGiven, Bool.and_eq_true] at h
    exact .cons (of_isGiven hR hI v h.1) (of_fieldsGiven hR hI fs h.2)

end

end Likeness

/-! ## Runs -/

/-- The state has the variables that were there, unchanged. -/
structure Keeps (s s' : State) : Prop where
  fresh : s.fresh ≤ s'.fresh
  vars : s.vars <+: s'.vars
  unset : s'.unset = s.unset

namespace Keeps

theorem refl (s : State) : Keeps s s := ⟨Nat.le_refl _, List.prefix_refl _, rfl⟩

theorem trans {s s' s'' : State} (h : Keeps s s') (h' : Keeps s' s'') : Keeps s s'' :=
  ⟨Nat.le_trans h.fresh h'.fresh, h.vars.trans h'.vars, h'.unset.trans h.unset⟩

theorem number (s : State) : Keeps s { s with fresh := s.fresh + 1 } :=
  ⟨Nat.le_succ _, List.prefix_refl _, rfl⟩

theorem reads (s : State) (reads : List Text) : Keeps s { s with reads } :=
  ⟨Nat.le_refl _, List.prefix_refl _, rfl⟩

end Keeps

/-- A way to compare two runs. -/
structure Comparison where
  World : Type
  /-- The second world comes later. -/
  le : World → World → Prop
  /-- The numbers are of things that belong together. -/
  sameId : World → Nat → Nat → Prop
  /-- Runs from these states can be compared. -/
  fits : World → State → State → Prop
  /-- Exceptions count too. -/
  strict : Prop
  /-- Runs may assign to variables that were there before. -/
  varies : Prop
  le_refl (w : World) : le w w
  le_trans {w w' w'' : World} : le w w' → le w' w'' → le w w''
  sameId_mono {w w' : World} {i j : Nat} : le w w' → sameId w i j → sameId w' i j
  fits_mono {w : World} {s s' t t' : State} : ¬ varies → fits w s t → s.fresh ≤ s'.fresh →
    t.fresh ≤ t'.fresh → fits w s' t'
  fits_read {w : World} {s t : State} (path : Text) : varies → fits w s t →
    fits w { s with reads := path :: s.reads } { t with reads := path :: t.reads }
  fits_fresh {w : World} {s t : State} : fits w s t → ∃ w', le w w' ∧ sameId w' s.fresh t.fresh ∧
    fits w' { s with fresh := s.fresh + 1 } { t with fresh := t.fresh + 1 }

theorem Run.run_load (i : Nat) (s : State) : (load i).run.run s = match s.vars.getD i none with
    | some v => (.ok v, s)
    | none => (.ok .undefined, { s with unset := s.unset + 1 }) := by
  rw [load, run_bind_ok (show (get : Run State).run.run s = (.ok s, s) from rfl)]
  cases s.vars.getD i none <;> rfl

namespace Comparison

variable {K : Comparison} {w w₁ : K.World} {α β γ δ : Type} {Q : K.World → α → β → Prop}
  {P : K.World → γ → δ → Prop}

/-- The runs have come from `s` and `t` to `s'` and `t'`. -/
structure Comes (K : Comparison) (w : K.World) (s t : State) (w' : K.World)
    (s' t' : State) : Prop where
  left : ¬ K.varies → Keeps s s'
  right : ¬ K.varies → Keeps t t'
  le : K.le w w'
  fits : K.fits w' s' t'

theorem Comes.refl {s t : State} (h : K.fits w s t) : K.Comes w s t w s t :=
  ⟨fun _ => .refl s, fun _ => .refl t, K.le_refl w, h⟩

theorem Comes.trans {w₂ : K.World} {s t s' t' s'' t'' : State} (h : K.Comes w s t w₁ s' t')
    (h' : K.Comes w₁ s' t' w₂ s'' t'') : K.Comes w s t w₂ s'' t'' :=
  ⟨fun hK => (h.left hK).trans (h'.left hK), fun hK => (h.right hK).trans (h'.right hK),
    K.le_trans h.le h'.le, h'.fits⟩

/-- What a run from `s` gives agrees with what the other gives from `t`. -/
def Agrees (K : Comparison) (w : K.World) (Q : K.World → α → β → Prop) (s t : State) :
    Except Thrown α × State → Except Thrown β × State → Prop
  | (.ok a, s'), (.ok b, t') => ∃ w', K.Comes w s t w' s' t' ∧ Q w' a b
  | (.ok _, _), (.error _, _) => False
  | (.error _, _), (.ok _, _) => ¬ K.strict
  | (.error _, s'), (.error _, t') => K.strict → ∃ w', K.Comes w s t w' s' t'

/-- The second run follows the first one, wherever they start. -/
def Rel (K : Comparison) (w : K.World) (Q : K.World → α → β → Prop) (x : Run α)
    (y : Run β) : Prop :=
  ∀ s t : State, K.fits w s t → K.Agrees w Q s t (x.run.run s) (y.run.run t)

namespace Rel

variable {x : Run α} {y : Run β}

theorem pure {a : α} {b : β} (h : Q w a b) : K.Rel w Q (Pure.pure a) (Pure.pure b) :=
  fun _ _ hfits => ⟨w, .refl hfits, h⟩

theorem throw (e e' : Thrown) :
    K.Rel w Q (MonadExcept.throw e : Run α) (MonadExcept.throw e' : Run β) :=
  fun _ _ hfits _ => ⟨w, .refl hfits⟩

theorem bind_ok {f : α → Run γ} {g : β → Run δ} (h : K.Rel w Q x y)
    (hf : ∀ w' a b s s', K.le w w' → Q w' a b → x.run.run s = (.ok a, s') →
      K.Rel w' P (f a) (g b)) : K.Rel w P (x >>= f) (y >>= g) := by
  intro s t hfits
  have hagrees := h s t hfits
  obtain ⟨r, s', hx⟩ : ∃ r s', x.run.run s = (r, s') := ⟨_, _, rfl⟩
  obtain ⟨q, t', hy⟩ : ∃ q t', y.run.run t = (q, t') := ⟨_, _, rfl⟩
  rw [hx, hy] at hagrees
  cases r with
  | error e =>
    rw [run_bind_error hx]
    cases q with
    | error e' =>
      rw [run_bind_error hy]
      exact hagrees
    | ok b =>
      rw [run_bind_ok hy]
      cases (g b).run.run t' with
      | mk q t'' =>
        cases q with
        | ok d => exact hagrees
        | error e' => exact fun hstrict => absurd hstrict hagrees
  | ok a =>
    cases q with
    | error e' => exact False.elim hagrees
    | ok b =>
      obtain ⟨w', hcomes, hab⟩ := hagrees
      rw [run_bind_ok hx, run_bind_ok hy]
      have hrest := hf w' a b s s' hcomes.le hab hx s' t' hcomes.fits
      obtain ⟨r, s'', hx'⟩ : ∃ r s'', (f a).run.run s' = (r, s'') := ⟨_, _, rfl⟩
      obtain ⟨q, t'', hy'⟩ : ∃ q t'', (g b).run.run t' = (q, t'') := ⟨_, _, rfl⟩
      rw [hx', hy'] at hrest ⊢
      cases r with
      | error e =>
        cases q with
        | error e' => exact fun hstrict => (hrest hstrict).imp fun _ => hcomes.trans
        | ok d => exact hrest
      | ok c =>
        cases q with
        | error e' => exact hrest
        | ok d => exact hrest.imp fun _ h => ⟨hcomes.trans h.1, h.2⟩

theorem bind {f : α → Run γ} {g : β → Run δ} (h : K.Rel w Q x y)
    (hf : ∀ w' a b, K.le w w' → Q w' a b → K.Rel w' P (f a) (g b)) :
    K.Rel w P (x >>= f) (y >>= g) :=
  h.bind_ok fun w' a b _ _ hle hab _ => hf w' a b hle hab

theorem mono {Q' : K.World → α → β → Prop} (h : K.Rel w Q x y)
    (hQ : ∀ w' a b, K.le w w' → Q w' a b → Q' w' a b) : K.Rel w Q' x y := by
  rw [← bind_pure x, ← bind_pure y]
  exact h.bind fun w' a b hle hab => .pure (hQ w' a b hle hab)

theorem and_left {p : α → Prop} (h : K.Rel w Q x y)
    (hp : ∀ s a s', x.run.run s = (.ok a, s') → p a) :
    K.Rel w (fun w a b => Q w a b ∧ p a) x y := by
  rw [← bind_pure x, ← bind_pure y]
  exact h.bind_ok fun w' a b s s' _ hab hx => .pure ⟨hab, hp s a s' hx⟩

theorem fresh : K.Rel w K.sameId Run.fresh Run.fresh := by
  intro s t hfits
  obtain ⟨w', hle, hid, hfits'⟩ := K.fits_fresh hfits
  exact ⟨w', ⟨fun _ => .number s, fun _ => .number t, hle, hfits'⟩, hid⟩

theorem fresh_right (hK : ¬ K.varies) {f : Nat → Run β} (h : ∀ k, K.Rel w Q x (f k)) :
    K.Rel w Q x (Run.fresh >>= f) := by
  have hskip : K.Rel w (fun w' _ _ => w' = w) (Pure.pure ()) Run.fresh := fun s t hfits =>
    ⟨w, ⟨fun _ => .refl s, fun _ => .number t, K.le_refl w,
      K.fits_mono hK hfits (Nat.le_refl _) (Nat.le_succ _)⟩, rfl⟩
  rw [← pure_bind () fun _ => x]
  refine hskip.bind fun w' _ k _ hw => ?_
  subst hw
  exact h k

theorem noteRead {path path' : Text} (hpath : K.varies → path = path') :
    K.Rel w (fun _ _ _ => True) (Run.noteRead path) (Run.noteRead path') := by
  intro s t hfits
  refine ⟨w, ⟨fun _ => .reads s _, fun _ => .reads t _, K.le_refl w, ?_⟩, trivial⟩
  by_cases hK : K.varies
  · obtain rfl := hpath hK
    exact K.fits_read path hK hfits
  · exact K.fits_mono hK hfits (Nat.le_refl _) (Nat.le_refl _)

end Rel

end Comparison

/-! ## Hosts -/

/-- Relations of values, one for each world, that relate cells whose paths are related by `P`. -/
structure PathFamily (P : Text → Text → Prop) (K : Comparison)
    (R : K.World → Value → Value → Prop) : Prop where
  alike {w : K.World} {v v' : Value} : R w v v' → PathAlike P (K.sameId w) (R w) v v'
  of_alike {w : K.World} {v v' : Value} : v.isClosure = false →
    PathAlike P (K.sameId w) (R w) v v' → R w v v'
  mono {w w' : K.World} {v v' : Value} : K.le w w' → R w v v' → R w' v v'

/-- Relations of values, one for each world. -/
abbrev Family (K : Comparison) (R : K.World → Value → Value → Prop) : Prop := PathFamily (· = ·) K R

variable {P : Text → Text → Prop} {K : Comparison} {w : K.World}
  {R : K.World → Value → Value → Prop}

namespace PathFamily

variable {v v' : Value}

theorem likeness (hR : PathFamily (· = ·) K R) (w : K.World) : Likeness (K.sameId w) (R w) :=
  ⟨hR.alike, hR.of_alike⟩

variable (hR : PathFamily P K R)

include hR

theorem of_isPrimitive (hv : v.isPrimitive) : R w v v :=
  hR.of_alike (by cases v <;> first | rfl | cases hv) (.of_isPrimitive hv)

theorem undefined : R w .undefined .undefined := hR.of_isPrimitive rfl

theorem of_eq {α : Type} {f : α → Value} (hf : ∀ a, (f a).isPrimitive)
    {x y : Run α} (h : K.Rel w (fun _ => (· = ·)) x y) :
    K.Rel w R (do return f (← x)) (do return f (← y)) :=
  h.bind fun _ a _ _ hab => .pure (hab ▸ hR.of_isPrimitive (hf a))

theorem forall₂ {w' : K.World} (hle : K.le w w') {vs vs' : List Value}
    (h : List.Forall₂ (R w) vs vs') : List.Forall₂ (R w') vs vs' :=
  h.imp fun _ _ => hR.mono hle

end PathFamily

/-- Calls of related functions with related operands agree, now and later. -/
def CallerRel (K : Comparison) (w : K.World) (R : K.World → Value → Value → Prop)
    (c c' : Caller) : Prop :=
  ∀ {w' : K.World} {f f' this this' : Value} {args args' : List Value}, K.le w w' → R w' f f' →
    R w' this this' → List.Forall₂ (R w') args args' →
      K.Rel w' R (c f this args) (c' f' this' args')

theorem CallerRel.mono {c c' : Caller} (hc : CallerRel K w R c c') {w' : K.World}
    (hle : K.le w w') : CallerRel K w' R c c' :=
  fun hle' => hc (K.le_trans hle hle')

/-- The operations of two hosts agree on related operands, now and later. -/
structure HostRel (K : Comparison) (w : K.World) (R : K.World → Value → Value → Prop)
    (h h' : Host) : Prop where
  global {x : K.World} (hle : K.le w x) (n : Text) : Option.Rel (R x) (h.global n) (h'.global n)
  member {w' : K.World} {v v' : Value} (hle : K.le w w') (n : Text) :
    R w' v v' → K.Rel w' R (h.member v n) (h'.member v' n)
  element {w' : K.World} {v v' k k' : Value} (hle : K.le w w') :
    R w' v v' → R w' k k' → K.Rel w' R (h.element v k) (h'.element v' k')
  call : CallerRel K w R h.call h'.call
  construct {w' : K.World} {f f' : Value} {args args' : List Value} (hle : K.le w w') :
    R w' f f' → List.Forall₂ (R w') args args' →
      K.Rel w' R (h.construct f args) (h'.construct f' args')
  primitive {w' : K.World} {v v' : Value} (hle : K.le w w') (preferText : Bool) :
    R w' v v' → K.Rel w' R (h.primitive preferText v) (h'.primitive preferText v')
  same {w' : K.World} {v u v' u' : Value} (hle : K.le w w') :
    R w' v v' → R w' u u' → K.Rel w' (fun _ => (· = ·)) (h.same v u) (h'.same v' u')
  store {x : K.World} {v k u v' k' u' : Value} (hle : K.le w x) :
    R x v v' → R x k k' → R x u u' →
      K.Rel x (fun _ _ _ => True) (h.store v k u) (h'.store v' k' u')

namespace HostRel

variable {h h' : Host} {v u v' u' : Value}

theorem mono (hh : HostRel K w R h h') {w' : K.World} (hle : K.le w w') : HostRel K w' R h h' where
  global hle' := hh.global (K.le_trans hle hle')
  member hle' := hh.member (K.le_trans hle hle')
  element hle' := hh.element (K.le_trans hle hle')
  call hle' := hh.call (K.le_trans hle hle')
  construct hle' := hh.construct (K.le_trans hle hle')
  primitive hle' := hh.primitive (K.le_trans hle hle')
  same hle' := hh.same (K.le_trans hle hle')
  store hle' := hh.store (K.le_trans hle hle')

variable (hh : HostRel K w R h h') (hR : PathFamily P K R)

include hh hR

theorem toNumber (hv : R w v v') : K.Rel w (fun _ => (· = ·)) (h.toNumber v) (h'.toNumber v') :=
  (hh.primitive (K.le_refl w) false hv).bind fun _ _ _ _ hp => .pure (hR.alike hp).toNumber_eq

theorem toText (hv : R w v v') : K.Rel w (fun _ => (· = ·)) (h.toText v) (h'.toText v') :=
  (hh.primitive (K.le_refl w) true hv).bind fun _ _ _ _ hp => .pure (hR.alike hp).toText_eq

theorem primitives (hv : R w v v') (hu : R w u u')
    {α β : Type} {Q : K.World → α → β → Prop} {f : Value → Value → Run α}
    {g : Value → Value → Run β}
    (hfg : ∀ w' a a' b b', R w' a a' → R w' b b' → K.Rel w' Q (f a b) (g a' b')) :
    K.Rel w Q (do f (← h.primitive false v) (← h.primitive false u))
      (do g (← h'.primitive false v') (← h'.primitive false u')) := by
  refine (hh.primitive (K.le_refl w) false hv).bind fun w₁ a a' hle ha => ?_
  refine (hh.primitive hle false (hR.mono hle hu)).bind fun w₂ b b' hle' hb => ?_
  exact hfg w₂ a a' b b' (hR.mono hle' ha) hb

theorem compare (hv : R w v v') (hu : R w u u')
    (onUnits : List Nat → List Nat → Bool) (onNumbers : Number → Number → Bool) :
    K.Rel w R (h.compare onUnits onNumbers v u) (h'.compare onUnits onNumbers v' u') := by
  refine hh.primitives hR hv hu fun w' a a' b b' ha hb => ?_
  have hbool (c : Bool) : K.Rel w' R (pure (.bool c)) (pure (.bool c)) :=
    .pure (hR.of_isPrimitive rfl)
  cases hR.alike ha <;> cases hR.alike hb <;> exact hbool _

theorem strictEq (hv : R w v v') (hu : R w u u') :
    K.Rel w (fun _ => (· = ·)) (h.strictEq v u) (h'.strictEq v' u') := by
  have hsame := hh.same (K.le_refl w) hv hu
  cases hR.alike hv <;> cases hR.alike hu <;> first | exact .pure rfl | exact hsame

theorem sameElement (hv : R w v v') (hu : R w u u') :
    K.Rel w (fun _ => (· = ·)) (h.sameElement v u) (h'.sameElement v' u') := by
  have hstrict := hh.strictEq hR hv hu
  cases hR.alike hv <;> cases hR.alike hu <;> first | exact hstrict | exact .pure rfl

theorem hasElement (hu : R w u u') {vs vs' : List Value} (hvs : List.Forall₂ (R w) vs vs') :
    K.Rel w (fun _ => (· = ·)) (h.hasElement u vs) (h'.hasElement u' vs') := by
  induction vs generalizing w vs' with
  | nil =>
    cases hvs
    exact .pure rfl
  | cons v vs ih =>
    obtain _ | ⟨hv, hvs⟩ := hvs
    refine (hh.sameElement hR hv hu).bind fun w₁ b b' hle hb => ?_
    obtain rfl := hb
    cases b with
    | true => exact .pure rfl
    | false => exact ih (hh.mono hle) (hR.mono hle hu) (hR.forall₂ hle hvs)

theorem looseEq (hv : R w v v') (hu : R w u u') :
    K.Rel w (fun _ => (· = ·)) (h.looseEq v u) (h'.looseEq v' u') := by
  have primitiveEq {w' : K.World} {a b a' b' : Value} (ha : R w' a a') (hb : R w' b b') :
      K.Rel w' (fun _ => (· = ·)) (pure (Host.primitiveEq a b))
        (pure (Host.primitiveEq a' b')) := by
    refine .pure ?_
    cases hR.alike ha <;> cases hR.alike hb <;> rfl
  unfold Host.looseEq
  rw [(hR.alike hv).isPrimitive_eq, (hR.alike hu).isPrimitive_eq, (hR.alike hv).isNullish_eq,
    (hR.alike hu).isNullish_eq]
  split
  · split
    · exact primitiveEq hv hu
    split
    · exact .pure rfl
    · exact (hh.primitive (K.le_refl w) false hu).bind fun _ _ _ hle hp =>
        primitiveEq (hR.mono hle hv) hp
  · split
    · split
      · exact .pure rfl
      · exact (hh.primitive (K.le_refl w) false hv).bind fun _ _ _ hle hp =>
          primitiveEq hp (hR.mono hle hu)
    · exact hh.strictEq hR hv hu

theorem arith (hv : R w v v') (hu : R w u u')
    (f : Number → Number → Number) : K.Rel w R (h.arith f v u) (h'.arith f v' u') := by
  refine (hh.toNumber hR hv).bind fun w₁ a a' hle ha => ?_
  refine ((hh.mono hle).toNumber hR (hR.mono hle hu)).bind fun w₂ b b' _ hb => ?_
  rw [ha, hb]
  exact .pure (hR.of_isPrimitive rfl)

theorem add (hv : R w v v') (hu : R w u u') : K.Rel w R (h.add v u) (h'.add v' u') := by
  refine hh.primitives hR hv hu fun w' a a' b b' ha hb => ?_
  have hpure {r : Value} (hr : r.isPrimitive) : K.Rel w' R (pure r) (pure r) :=
    .pure (hR.of_isPrimitive hr)
  cases hR.alike ha <;> cases hR.alike hb <;> exact hpure rfl

theorem binary (op : BinOp) (hv : R w v v')
    (hu : R w u u') : K.Rel w R (h.binary op v u) (h'.binary op v' u') := by
  have htrue := (hR.alike hv).isTrue_eq
  have hnullish := (hR.alike hv).isNullish_eq
  cases op <;> simp only [Host.binary]
  case add => exact hh.add hR hv hu
  case sub | mul | div | rem => exact hh.arith hR hv hu _
  case lt | le | gt | ge => exact hh.compare hR hv hu _ _
  case looseEq | looseNe => exact hR.of_eq (fun _ => rfl) (hh.looseEq hR hv hu)
  case strictEq | strictNe => exact hR.of_eq (fun _ => rfl) (hh.strictEq hR hv hu)
  case coalesce =>
    refine .pure ?_
    rw [hnullish]
    split <;> assumption
  case or | and =>
    refine .pure ?_
    rw [htrue]
    split <;> assumption
  case assign => exact .pure hu

theorem unary (op : UnOp) (hv : R w v v') : K.Rel w R (h.unary op v) (h'.unary op v') := by
  cases op with
  | plus | minus =>
    exact (hh.toNumber hR hv).bind fun _ a b _ hab => .pure (hab ▸ hR.of_isPrimitive rfl)
  | not =>
    refine .pure ?_
    rw [(hR.alike hv).isTrue_eq]
    exact hR.of_isPrimitive rfl
  | typeof =>
    refine .pure ?_
    rw [(hR.alike hv).typeName_eq]
    exact hR.of_isPrimitive rfl
  | void => exact .pure hR.undefined

end HostRel

theorem needsRight_eq {I : Nat → Nat → Prop} {R : Value → Value → Prop} (op : BinOp) {v v' : Value}
    (h : PathAlike P I R v v') : needsRight op v = needsRight op v' := by
  cases op <;> simp [needsRight, h.isTrue_eq, h.isNullish_eq]

/-! ## Environments -/

/-- Whatever family of relations is taken, the operations of the environments give related results
for related operands, also if the paths of cells are only related by `P`. -/
structure Environment.Rel (P : Text → Text → Prop) (K : Comparison)
    (E E' : Environment) : Prop where
  host {R : K.World → Value → Value → Prop} {w : K.World} {c c' : Caller} (hR : PathFamily P K R)
    (hc : CallerRel K w R c c') : HostRel K w R (E.host c) (E'.host c')
  call {R : K.World → Value → Value → Prop} {w : K.World} {c c' : Caller} (hR : PathFamily P K R)
    (hc : CallerRel K w R c c') {f f' this this' : Value} {args args' : List Value} :
    f.isClosure = false → R w f f' → R w this this' → List.Forall₂ (R w) args args' →
      K.Rel w R (E.call c f this args) (E'.call c' f' this' args')

/-- What the operations of an environment give depends on their operands only, and of functions that
scripts define only on what calls of them give. -/
abbrev Environment.PathParametric (P : Text → Text → Prop) (K : Comparison)
    (E : Environment) : Prop :=
  Environment.Rel P K E E

/-- As `PathParametric`, with cells of the same paths. -/
abbrev Environment.Parametric (K : Comparison) (E : Environment) : Prop :=
  E.PathParametric (· = ·) K

theorem Environment.callWithin_succ {E : Environment} {f : Value} (hf : f.isClosure = false)
    (depth : Nat) (this : Value) (args : List Value) :
    E.callWithin (depth + 1) f this args = E.call (E.callWithin depth) f this args := by
  cases f <;> first | rfl | cases hf

end Bindery.Client
