import Bindery.Proofs.RelatedRuns

/-!
# Pure environments

An environment is pure (`Environment.Pure`) if what its operations give depends on their operands
only, and if they use functions that scripts define only by calling them. Arrays, objects and
functions that were made while a script runs have numbers from `base` on. Operations do not tell
them apart.

Here runs are compared whatever states they start from, so there is only one world
(`Comparison.blind`).
-/

namespace Bindery.Client

/-- Both numbers are that of one thing that was there before, or both are of new things. -/
def SameId (base i j : Nat) : Prop := i = j ∧ i < base ∨ base ≤ i ∧ base ≤ j

/-- Runs are compared without telling new things apart. -/
def Comparison.blind (base : Nat) : Comparison where
  World := Unit
  le _ _ := True
  sameId _ := SameId base
  fits _ s t := base ≤ s.fresh ∧ base ≤ t.fresh
  strict := True
  varies := False
  le_refl _ := trivial
  le_trans _ _ := trivial
  sameId_mono _ h := h
  fits_mono _ h hs ht := ⟨Nat.le_trans h.1 hs, Nat.le_trans h.2 ht⟩
  fits_read _ := False.elim
  fits_fresh h := ⟨(), trivial, .inr h, Nat.le_succ_of_le h.1, Nat.le_succ_of_le h.2⟩

/-- Both outcomes are results, which satisfy `Q`, or both are exceptions. -/
def Agree {α β : Type} (Q : α → β → Prop) : Except Thrown α → Except Thrown β → Prop
  | .ok a, .ok b => Q a b
  | .error _, .error _ => True
  | _, _ => False

/-- The runs agree, whatever states they start from, and both keep the variables. -/
def Run.Rel {α β : Type} (base : Nat) (Q : α → β → Prop) (x : Run α) (y : Run β) : Prop :=
  (Comparison.blind base).Rel () (fun _ => Q) x y

namespace Run.Rel

variable {α β γ δ : Type} {base : Nat} {Q : α → β → Prop} {P : γ → δ → Prop} {x : Run α} {y : Run β}

theorem iff_run : Run.Rel base Q x y ↔ ∀ s t : State, base ≤ s.fresh → base ≤ t.fresh →
    Agree Q (x.run.run s).1 (y.run.run t).1 ∧ Keeps s (x.run.run s).2 ∧
    Keeps t (y.run.run t).2 := by
  have hagrees (s t : State) (hs : base ≤ s.fresh) (ht : base ≤ t.fresh)
      (r : Except Thrown α × State) (q : Except Thrown β × State) :
      (Comparison.blind base).Agrees () (fun _ => Q) s t r q ↔
        Agree Q r.1 q.1 ∧ Keeps s r.2 ∧ Keeps t q.2 := by
    obtain ⟨r, s'⟩ := r
    obtain ⟨q, t'⟩ := q
    have comes (h : Keeps s s' ∧ Keeps t t') : (Comparison.blind base).Comes () s t () s' t' :=
      ⟨fun _ => h.1, fun _ => h.2, trivial, Nat.le_trans hs h.1.fresh, Nat.le_trans ht h.2.fresh⟩
    cases r with
    | error e =>
      cases q with
      | error e' =>
        constructor
        · intro h
          obtain ⟨_, h⟩ := h trivial
          exact ⟨trivial, h.left id, h.right id⟩
        · exact fun h _ => ⟨(), comes h.2⟩
      | ok b => exact ⟨fun h => absurd trivial h, fun h => h.1.elim⟩
    | ok a =>
      cases q with
      | error e' => exact ⟨False.elim, fun h => h.1.elim⟩
      | ok b =>
        constructor
        · rintro ⟨_, h, hab⟩
          exact ⟨hab, h.left id, h.right id⟩
        · exact fun h => ⟨(), comes h.2, h.1⟩
  constructor
  · exact fun h s t hs ht => (hagrees s t hs ht _ _).1 (h s t ⟨hs, ht⟩)
  · exact fun h s t hfits => (hagrees s t hfits.1 hfits.2 _ _).2 (h s t hfits.1 hfits.2)

theorem pure {a : α} {b : β} (h : Q a b) : Rel base Q (Pure.pure a) (Pure.pure b) :=
  Comparison.Rel.pure h

theorem throw (e e' : Thrown) :
    Rel base Q (MonadExcept.throw e : Run α) (MonadExcept.throw e' : Run β) :=
  Comparison.Rel.throw e e'

theorem mono {Q' : α → β → Prop} (h : Rel base Q x y) (hQ : ∀ a b, Q a b → Q' a b) :
    Rel base Q' x y :=
  Comparison.Rel.mono h fun _ a b _ => hQ a b

theorem bind {f : α → Run γ} {g : β → Run δ} (h : Rel base Q x y)
    (hf : ∀ a b, Q a b → Rel base P (f a) (g b)) : Rel base P (x >>= f) (y >>= g) :=
  Comparison.Rel.bind h fun _ a b _ => hf a b

theorem fresh : Rel base (SameId base) Run.fresh Run.fresh := Comparison.Rel.fresh

end Run.Rel

/-! ## Hosts -/

variable {base : Nat} {R : Value → Value → Prop}

theorem Likeness.family (hR : Likeness (SameId base) R) : Family (.blind base) fun _ => R :=
  ⟨hR.alike, hR.of_alike, fun _ h => h⟩

/-- Calls of related functions with related operands agree. -/
def Caller.Rel (base : Nat) (R : Value → Value → Prop) (c c' : Caller) : Prop :=
  ∀ {f f' this this' : Value} {args args' : List Value}, R f f' → R this this' →
    List.Forall₂ R args args' → Run.Rel base R (c f this args) (c' f' this' args')

/-! ## Environments -/

/-- What the operations give depends on their operands only, and of functions that scripts define
only on what calls of them give. The numbers of things that are new since `base` have no part in
it. -/
def Environment.Pure (base : Nat) (E : Environment) : Prop := E.Parametric (.blind base)

namespace Environment.Pure

variable {E : Environment} {c c' : Caller}

theorem host (hE : E.Pure base) (hR : Likeness (SameId base) R) (hc : Caller.Rel base R c c') :
    HostRel (.blind base) () (fun _ => R) (E.host c) (E.host c') :=
  Rel.host hE hR.family fun _ => hc

end Environment.Pure

/-- No use tells the values apart: they are built alike from such values, and calls of them with
such operands agree. -/
def Environment.Same (base : Nat) (E : Environment) (v w : Value) : Prop :=
  ∃ R : Value → Value → Prop, Likeness (SameId base) R ∧
    (∀ depth, Caller.Rel base R (E.callWithin depth) (E.callWithin depth)) ∧ R v w

/-- Values of which one is primitive are the same only if they are equal. -/
theorem Environment.Same.eq_of_isPrimitive {E : Environment} {v w : Value} (h : E.Same base v w)
    (hv : v.isPrimitive) : v = w := by
  obtain ⟨R, hR, -, hvw⟩ := h
  exact (hR.alike hvw).eq_of_isPrimitive hv

end Bindery.Client
