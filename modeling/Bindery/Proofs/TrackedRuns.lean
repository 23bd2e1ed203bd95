import Bindery.Proofs.ClientPurity

/-!
# Runs of which one follows the other

`Comparison.tracking` compares runs in which things are told apart by their numbers: a world pairs
the numbers of the things that belong together, and new things make new pairs. Only what the first
run gives counts, so the second may do more. The environment of bindings is parametric here with its
own comparison of identities (`environment_parametric`).
-/

namespace Bindery.Client

/-- Numbers of two runs, paired one to one. What was there before belongs to itself. -/
structure Pairing (base : Nat) where
  Pair : Nat → Nat → Prop
  of_lt {i : Nat} : i < base → Pair i i
  eq_of_left {i j j' : Nat} : Pair i j → Pair i j' → j = j'
  eq_of_right {i i' j : Nat} : Pair i j → Pair i' j → i = i'

namespace Pairing

variable {base : Nat}

def start (base : Nat) : Pairing base where
  Pair i j := i = j ∧ i < base
  of_lt h := ⟨rfl, h⟩
  eq_of_left h h' := h.1.symm.trans h'.1
  eq_of_right h h' := h.1.trans h'.1.symm

def Below (p : Pairing base) (m n : Nat) : Prop := ∀ i j, p.Pair i j → i < m ∧ j < n

theorem start_below {m n : Nat} (hm : base ≤ m) (hn : base ≤ n) : (start base).Below m n := by
  rintro i j ⟨rfl, hi⟩
  exact ⟨Nat.lt_of_lt_of_le hi hm, Nat.lt_of_lt_of_le hi hn⟩

def insert (p : Pairing base) {m n : Nat} (h : p.Below m n) : Pairing base where
  Pair i j := p.Pair i j ∨ i = m ∧ j = n
  of_lt hi := .inl (p.of_lt hi)
  eq_of_left hi hi' := by
    rcases hi with hi | ⟨rfl, rfl⟩ <;> rcases hi' with hi' | ⟨heq, rfl⟩
    · exact p.eq_of_left hi hi'
    · exact absurd (heq ▸ (h _ _ hi).1) (Nat.lt_irrefl _)
    · exact absurd (h _ _ hi').1 (Nat.lt_irrefl _)
    · rfl
  eq_of_right hj hj' := by
    rcases hj with hj | ⟨rfl, rfl⟩ <;> rcases hj' with hj' | ⟨rfl, heq⟩
    · exact p.eq_of_right hj hj'
    · exact absurd (heq ▸ (h _ _ hj).2) (Nat.lt_irrefl _)
    · exact absurd (h _ _ hj').2 (Nat.lt_irrefl _)
    · rfl

end Pairing

variable {base : Nat}

/-- The second run follows the first one, and things are told apart by their numbers. -/
def Comparison.tracking (base : Nat) : Comparison where
  World := Pairing base
  le p p' := ∀ i j, p.Pair i j → p'.Pair i j
  sameId p := p.Pair
  fits p s t := p.Below s.fresh t.fresh
  strict := False
  varies := False
  le_refl _ _ _ h := h
  le_trans h h' i j hij := h' i j (h i j hij)
  sameId_mono h hij := h _ _ hij
  fits_mono _ h hs ht i j hij :=
    ⟨Nat.lt_of_lt_of_le (h i j hij).1 hs, Nat.lt_of_lt_of_le (h i j hij).2 ht⟩
  fits_read _ := False.elim
  fits_fresh {p s t} h := by
    refine ⟨p.insert h, fun i j hij => .inl hij, .inr ⟨rfl, rfl⟩, fun i j hij => ?_⟩
    rcases hij with hij | ⟨rfl, rfl⟩
    · exact ⟨Nat.lt_succ_of_lt (h i j hij).1, Nat.lt_succ_of_lt (h i j hij).2⟩
    · exact ⟨Nat.lt_succ_self _, Nat.lt_succ_self _⟩

/-- As `tracking`, but the second run also throws where the first one does. -/
def Comparison.exact (base : Nat) : Comparison :=
  { Comparison.tracking base with strict := True }

/-- Things that belong together are the same things, where each has one partner. -/
theorem sameRel_identical {K : Comparison}
    (hleft : ∀ {w : K.World} {i j j' : Nat}, K.sameId w i j → K.sameId w i j' → j = j')
    (hright : ∀ {w : K.World} {i i' j : Nat}, K.sameId w i j → K.sameId w i' j → i = i') :
    SameRel K identical identical := by
  intro P R w hR v v' u u' hv hu
  have hids {v v' : Value} (hv : R w v v') :
      Option.Rel (K.sameId w) v.identity? v'.identity? := by
    cases hR.alike hv <;> first | exact .none | exact .some ‹_›
  refine .pure ?_
  have hv := hids hv
  have hu := hids hu
  generalize v.identity? = a at hv ⊢
  generalize v'.identity? = a' at hv ⊢
  generalize u.identity? = b at hu ⊢
  generalize u'.identity? = b' at hu ⊢
  cases hv with
  | none => rfl
  | @some i i' hi =>
    cases hu with
    | none => rfl
    | @some j j' hj =>
      refine Bool.eq_iff_iff.mpr ?_
      simp only [beq_iff_eq]
      constructor
      · rintro rfl
        exact hleft hi hj
      · rintro rfl
        exact hright hi hj

theorem environment_parametric : environment.Parametric (.tracking base) :=
  environmentWith_parametric
    (sameRel_identical (fun {w} => Pairing.eq_of_left w) fun {w} => Pairing.eq_of_right w)

theorem environment_exact {P : Text → Text → Prop} : environment.PathParametric P (.exact base) :=
  environmentWith_rel
    (sameRel_identical (fun {w} => Pairing.eq_of_left w) fun {w} => Pairing.eq_of_right w)
      False.elim

namespace Comparison.Rel

variable {K : Comparison} {w : K.World} {α β : Type} {Q : K.World → α → β → Prop} {x : Run α}
  {y : Run β}

theorem ok (h : K.Rel w Q x y) {s t s' : State} (hfits : K.fits w s t) {a : α}
    (hx : x.run.run s = (.ok a, s')) :
    ∃ b t' w', y.run.run t = (.ok b, t') ∧ K.Comes w s t w' s' t' ∧ Q w' a b := by
  have hagrees := h s t hfits
  rw [hx] at hagrees
  cases hy : y.run.run t with
  | mk r t' =>
    rw [hy] at hagrees
    cases r with
    | error e => exact False.elim hagrees
    | ok b => exact ⟨b, t', hagrees.imp fun _ h => ⟨rfl, h⟩⟩

/-- It is enough to look at what the first run gives if exceptions do not count. -/
theorem of_ok (hK : ¬ K.strict) (h : ∀ s t s' a, K.fits w s t → x.run.run s = (.ok a, s') →
    ∃ b t' w', y.run.run t = (.ok b, t') ∧ K.Comes w s t w' s' t' ∧ Q w' a b) : K.Rel w Q x y := by
  intro s t hfits
  cases hx : x.run.run s with
  | mk r s' =>
    cases r with
    | ok a =>
      obtain ⟨b, t', w', hy, hab⟩ := h s t s' a hfits hx
      rw [hy]
      exact ⟨w', hab⟩
    | error e =>
      cases y.run.run t with
      | mk q t' =>
        cases q with
        | ok b => exact hK
        | error e' => exact fun hstrict => absurd hstrict hK

end Comparison.Rel

/-- No use tells the second value from the first one: they are built alike from such values, the
same things are in the same places, and what a call of the first gives is given by a call of the
second. -/
def Environment.Follows (E : Environment) (base : Nat) (v v' : Value) : Prop :=
  ∃ (R : Pairing base → Value → Value → Prop) (w : Pairing base), Family (.tracking base) R ∧
    (∀ depth, CallerRel (.tracking base) w R (E.callWithin depth) (E.callWithin depth)) ∧ R w v v'

theorem Environment.Follows.eq_of_isPrimitive {E : Environment} {v v' : Value}
    (h : E.Follows base v v') (hv : v.isPrimitive) : v = v' := by
  obtain ⟨R, w, hR, -, hvv'⟩ := h
  exact (hR.alike hvv').eq_of_isPrimitive hv

end Bindery.Client
