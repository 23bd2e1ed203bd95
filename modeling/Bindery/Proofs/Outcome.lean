/-!
# Sequences of steps that may fail
-/

namespace Bindery

variable {ε α β : Type}

theorem ok_bind (a : α) (f : α → Except ε β) : (Except.ok a >>= f) = f a := rfl

theorem error_bind (e : ε) (f : α → Except ε β) : (Except.error e >>= f) = .error e := rfl

theorem pure_ok (a : α) : (pure a : Except ε α) = .ok a := rfl

theorem bind_ok_iff {x : Except ε α} {f : α → Except ε β} {b : β} :
    (x >>= f) = .ok b ↔ ∃ a, x = .ok a ∧ f a = .ok b := by
  cases x with
  | error e => simp [error_bind]
  | ok a => simp [ok_bind]

section Runs

variable {σ : Type} {x : ExceptT ε (StateM σ) α} {f : α → ExceptT ε (StateM σ) β} {s s' : σ}

theorem run_bind_ok {a : α} (h : x.run.run s = (.ok a, s')) :
    (x >>= f).run.run s = (f a).run.run s' := by
  simp only [ExceptT.run_bind, StateT.run_bind, h]
  rfl

theorem run_bind_error {e : ε} (h : x.run.run s = (.error e, s')) :
    (x >>= f).run.run s = (.error e, s') := by
  simp only [ExceptT.run_bind, StateT.run_bind, h]
  rfl

theorem run_bind_congr {y : ExceptT ε (StateM σ) α} (h : x.run.run s = y.run.run s') :
    (x >>= f).run.run s = (y >>= f).run.run s' := by
  simp only [ExceptT.run_bind, StateT.run_bind, h]

theorem run_bind_eq_ok {s'' : σ} {b : β} (h : (x >>= f).run.run s = (.ok b, s'')) :
    ∃ a s', x.run.run s = (.ok a, s') ∧ (f a).run.run s' = (.ok b, s'') := by
  rcases hx : x.run.run s with ⟨e | a, s'⟩
  · rw [run_bind_error hx] at h
    cases h
  · exact ⟨a, s', rfl, (run_bind_ok hx).symm.trans h⟩

end Runs

/-- If the first outcome is a result, the second is a related one. -/
def OkRel {γ δ : Type} (Q : α → γ → Prop) (x : Except ε α) (y : Except δ γ) : Prop :=
  ∀ a, x = .ok a → ∃ b, y = .ok b ∧ Q a b

namespace OkRel

variable {γ δ ζ : Type} {Q : α → γ → Prop}

theorem ok {a : α} {b : γ} (h : Q a b) : OkRel Q (.ok a : Except ε α) (.ok b : Except δ γ) := by
  rintro _ ⟨⟩
  exact ⟨b, rfl, h⟩

theorem error {e : ε} {y : Except δ γ} : OkRel Q (.error e) y := nofun

theorem bind {x : Except ε α} {y : Except δ γ} (h : OkRel Q x y) {P : β → ζ → Prop}
    {f : α → Except ε β} {g : γ → Except δ ζ} (hfg : ∀ a b, Q a b → OkRel P (f a) (g b)) :
    OkRel P (x >>= f) (y >>= g) := by
  intro c hc
  obtain ⟨a, ha, hc⟩ := bind_ok_iff.1 hc
  obtain ⟨b, rfl, hab⟩ := h a ha
  exact hfg a b hab c hc

end OkRel

/-- A computation ends with a value that satisfies `P`, or with an error that satisfies `Q`. -/
def Ends (P : α → Prop) (Q : ε → Prop) : Except ε α → Prop
  | .ok a => P a
  | .error e => Q e

namespace Ends

variable {P : α → Prop} {Q : ε → Prop} {R : β → Prop} {m : Except ε α}

theorem bind (h : Ends P Q m) {f : α → Except ε β} (hf : ∀ a, P a → Ends R Q (f a)) :
    Ends R Q (m >>= f) := by
  cases m with
  | ok a => exact hf a h
  | error e => exact h

theorem imp (h : Ends P Q m) {P' : α → Prop} {Q' : ε → Prop} (hP : ∀ a, P a → P' a)
    (hQ : ∀ e, Q e → Q' e) : Ends P' Q' m := by
  cases m with
  | ok a => exact hP a h
  | error e => exact hQ e h

theorem map (h : Ends P Q m) {f : α → β} (hf : ∀ a, P a → R (f a)) : Ends R Q (f <$> m) := by
  cases m with
  | ok a => exact hf a h
  | error e => exact h

end Ends

end Bindery
