import Bindery.Proofs.DirectEvaluation
import Bindery.Proofs.ExprTyping

/-!
# Explicit conversions

What `Expr.explicit` inserts never fails when it is evaluated. `Expr.Casts` lists its forms, and
`Converted` says what they make of an operand: one of the type asked for, except where an operand
`Slips` through. Unboxing does not look at what it unboxes, so a value of any type passes it in its
standard form, and null passes from numbers of one kind that admit it to numbers of the other that
do not.
-/

namespace Bindery

namespace Ty

variable {u : Universe} {s t : Ty}

/-- There is one type of the numbers of a kind that does not admit null. -/
theorem eq_of_kind (hs : s.isNullable = false) (ht : t.isNullable = false)
    (hn : s.kind.isNumeric) (hk : s.kind = t.kind) : s = t := by
  have basic {r : Ty} (hr : r.isNullable = false) (hn : r.kind.isNumeric) :
      r = .int ∧ r.kind = .int ∨ r = .float ∧ r.kind = .float := by
    cases r with
    | basic b => cases b <;> first | exact .inl ⟨rfl, rfl⟩ | exact .inr ⟨rfl, rfl⟩ | cases hn
    | declared d => cases hd : d.isStatic <;> simp [kind, hd, Kind.isNumeric] at hn
    | _ => cases hr
  rcases basic hs hn with ⟨rfl, hs⟩ | ⟨rfl, hs⟩ <;>
    rcases basic ht (hk ▸ hn) with ⟨rfl, ht⟩ | ⟨rfl, ht⟩ <;> first | rfl | cases hk

theorem Formed.isNullable_underlying (h : t.Formed u) (hn : t.kind.isNumeric) :
    t.underlying.isNullable = false := by
  cases t with
  | basic b => cases b <;> first | rfl | cases hn
  | declared d => cases hd : d.isStatic <;> simp [kind, hd, Kind.isNumeric] at hn
  | nullable t =>
    have hv : t.kind.isValue := by
      cases hk : t.kind <;> simp [kind, hk, Kind.isNumeric] at hn <;> rfl
    rw [Ty.underlying, if_pos hv]
    exact h.2
  | _ => cases hn

end Ty

theorem Operand.HasType.normalize {c : Catalog} {t : Ty} {v : Operand} (h : v.HasType c t) :
    (v.normalize t).HasType c t := by
  cases v with
  | value v => exact .of_value h.toValue.normalize
  | func f => exact h

/-! ## Operands that are not checked -/

/-- A conversion from `s` to `t` lets the operand pass though it is not one of `t`. -/
inductive Slips (c : Catalog) (s t : Ty) : Operand → Prop
  | boxed {v : Operand} : s.kind = .any → t.kind ≠ .any → v.isNull = false →
    ¬ (v.normalize t).HasType c t → Slips c s t v
  | null : s.kind.isNumeric → t.kind.isNumeric → s.kind ≠ t.kind →
    s.isNullable → t.isNullable = false → Slips c s t (.value .null)

/-- The conversion from `s` to `t` makes `w` out of the operand `v`. -/
structure Converted (c : Catalog) (s t : Ty) (v w : Operand) : Prop where
  hasType_iff : w.HasType c t ↔ ¬ Slips c s t v
  slips : Slips c s t v → w = v.normalize t
  null : w.isNull → t.isNullable ∨ t.kind.isEmpty ∨ Slips c s t v

namespace Converted

variable {c : Catalog} {s t : Ty} {v w : Operand}

theorem of_hasType (hw : w.HasType c t) (hv : ¬ Slips c s t v) : Converted c s t v w where
  hasType_iff := iff_of_true hw hv
  slips h := absurd h hv
  null h := by
    have hnull := hw.toValue
    rw [Operand.HasType.isNull_iff.1 h] at hnull
    rcases hnull.nullable_of_null with h | h
    · exact .inl h
    · exact .inr (.inl h)

theorem of_slips (hv : Slips c s t v) (hw : w = v.normalize t) (h : ¬ w.HasType c t) :
    Converted c s t v w where
  hasType_iff := iff_of_false h (not_not.2 hv)
  slips _ := hw
  null _ := .inr (.inr hv)

end Converted

section Checked

variable {u : Universe} {c : Catalog} {s t : Ty} {v : Operand}

theorem not_slips_of_kind (h : s.kind = t.kind) : ¬ Slips c s t v := by
  rintro (⟨hs, ht, -, -⟩ | ⟨-, -, hne, -, -⟩)
  · exact ht (h ▸ hs)
  · exact hne h

theorem Expr.Converts.not_slips {k : Conversion} (h : Converts u k s t) : ¬ Slips c s t v := by
  cases k with
  | box =>
    rcases h with rfl | ⟨hs, -⟩ <;> rintro (⟨hs', ht, -, -⟩ | ⟨hs', ht, -, -, -⟩)
    · exact ht rfl
    · cases ht
    · rw [hs] at hs'; cases hs'
    · rw [hs] at hs'; cases hs'
  | lift => exact not_slips_of_kind (h.1 ▸ t.kind_underlying)
  | numeric =>
    obtain ⟨hs, ht, hnull, -⟩ := h
    rintro (⟨hs', -, -, -⟩ | ⟨-, -, -, hs', ht'⟩)
    · rw [hs] at hs'; cases hs'
    · simp [hs', ht'] at hnull
  | _ => exact absurd h id

end Checked

/-! ## Conversions -/

namespace Expr

variable {u : Universe} {e e' : Expr} {t : Ty}

/-- The expression at type `t` is `e'`. -/
inductive Casts (u : Universe) (e : Expr) (t : Ty) : Expr → Prop
  | same : e.type = t → Casts u e t e
  | null : e.isNullConst → t.isNullable → Casts u e t (.const .null t)
  | implicit {k : Conversion} : Converts u k e.type t → Casts u e t (.convert k e t)
  | unbox : e.type.kind = .any → t.kind ≠ .any → Casts u e t (.convert .unbox e t)
  | value : e.type.underlying = t → Casts u e t (.convert .unbox e t)
  | number : e.type.kind.isNumeric → t.kind.isNumeric →
    (e.type.isNullable → t.isNullable = false → e.type.kind ≠ t.kind) →
    Casts u e t (.convert .numeric e t)

theorem casts_of_explicit (hn : u.WellNamed) (he : e.type.Formed u) (ht : t.Formed u)
    (h : e.explicit t = .ok e') : Casts u e t e' := by
  unfold explicit at h
  simp only at h
  split at h
  · rename_i converted himp
    obtain rfl := Except.ok.inj h
    obtain ⟨rfl, heq⟩ | ⟨rfl, hconst, hnull⟩ | ⟨k, rfl, hk⟩ := implicit_cases hn he ht himp
    · exact .same heq
    · exact .null hconst hnull
    · exact .implicit hk
  rename_i himp
  -- Whatever is converted to the type of all values is boxed.
  have hany : t.kind ≠ .any := by
    intro hany
    simp only [implicit?, hany, beq_self_eq_true, if_true] at himp
    split at himp <;> cases himp
  split at h
  · rename_i hunbox
    obtain rfl := Except.ok.inj h
    simp only [Bool.or_eq_true, Bool.and_eq_true, beq_iff_eq] at hunbox
    rcases hunbox with hs | ⟨-, hid⟩
    · exact .unbox hs hany
    · exact .value (he.underlying.eq_of_identical hn ht hid)
  rename_i hunbox
  split at h
  · rename_i hnum
    obtain rfl := Except.ok.inj h
    simp only [Bool.and_eq_true] at hnum
    refine .number hnum.1 hnum.2 fun hs ht' hk => hunbox ?_
    -- Numbers of the same kind lose their admission of null by unboxing.
    have heq : e.type.underlying = t :=
      Ty.eq_of_kind (he.isNullable_underlying hnum.1) ht' (e.type.kind_underlying ▸ hnum.1)
        (e.type.kind_underlying.trans hk)
    simp [hs, heq, Ty.identical_refl]
  · cases h

theorem Casts.guardNulls (h : Casts u e t e') : Casts u e.guardNulls t e'.guardNulls := by
  have htype := e.guardNulls_type
  cases h with
  | same heq => exact .same (htype.trans heq)
  | null hconst hnull =>
    have hsame : e.guardNulls = e := by
      cases e <;> first | rfl | cases hconst
    rw [hsame]
    exact .null hconst hnull
  | implicit hk => exact .implicit (htype ▸ hk)
  | unbox hs ht => exact .unbox (htype ▸ hs) ht
  | value heq => exact .value (htype ▸ heq)
  | number hs ht hne => exact .number (htype ▸ hs) ht (htype ▸ hne)

theorem Casts.checked (h : Casts u e t e') {s : Scope} (he : e.checked s = .ok ()) :
    e'.checked s = .ok () := by
  cases h with
  | null _ _ => rfl
  | _ => exact he

/-! ### Single conversions -/

variable {c : Catalog} {s : Ty} {v : Operand}

theorem unbox_null (t : Ty) : applyConversion .unbox t (.value .null) = .value t.default := rfl

theorem unbox_of_ne_null (hv : v.isNull = false) : applyConversion .unbox t v = v.normalize t := by
  cases v with
  | value v => cases v <;> first | rfl | cases hv
  | func f => rfl

theorem unbox_converted (hs : s.kind = .any) (ht : t.kind ≠ .any) :
    Converted c s t v (applyConversion .unbox t v) := by
  cases hv : v.isNull with
  | true =>
    obtain rfl := Operand.HasType.isNull_iff.1 hv
    refine .of_hasType (.of_value (.default c t)) ?_
    rintro (⟨-, -, hv', -⟩ | ⟨hs', -, -, -, -⟩)
    · cases hv'
    · rw [hs] at hs'; cases hs'
  | false =>
    rw [unbox_of_ne_null hv]
    by_cases hw : (v.normalize t).HasType c t
    · refine .of_hasType hw ?_
      rintro (⟨-, -, -, hw'⟩ | ⟨hs', -, -, -, -⟩)
      · exact hw' hw
      · rw [hs] at hs'; cases hs'
    · exact .of_slips (.boxed hs ht hv hw) rfl hw

theorem value_converted (hs : s.underlying = t) (hv : v.HasType c s) :
    Converted c s t v (applyConversion .unbox t v) := by
  have hkind : s.kind = t.kind := hs ▸ s.kind_underlying.symm
  refine .of_hasType ?_ (not_slips_of_kind hkind)
  cases hnull : v.isNull with
  | true =>
    rw [Operand.HasType.isNull_iff.1 hnull, unbox_null]
    exact .of_value (.default c t)
  | false =>
    rw [unbox_of_ne_null hnull]
    exact (hs ▸ hv.underlying hnull).normalize

theorem numeric_converted (hs : s.kind.isNumeric) (ht : t.kind.isNumeric)
    (hne : s.isNullable → t.isNullable = false → s.kind ≠ t.kind) (hv : v.HasType c s) :
    Converted c s t v (applyConversion .numeric t v) := by
  have hany : s.kind ≠ .any := by intro h; rw [h] at hs; cases hs
  have hfunc : s.kind ≠ .func := by intro h; rw [h] at hs; cases hs
  have hnumber {w : Operand} (hw : w.isNull = false) : ¬ Slips c s t w := by
    rintro (⟨hs', -, -, -⟩ | -)
    · exact hany hs'
    · cases hw
  have htarget : t.kind = .int ∨ t.kind = .float := by
    cases hk : t.kind <;> rw [hk] at ht <;> first | exact .inl rfl | exact .inr rfl | cases ht
  obtain ⟨a, rfl, ha⟩ := hv.eq_value hany hfunc
  rcases ha.number_cases hs with ⟨rfl, hnull⟩ | ⟨-, n, rfl⟩ | ⟨-, x, rfl⟩
  · change Converted c s t (.value .null) (.value .null)
    cases hn : t.isNullable with
    | true =>
      refine .of_hasType (.of_value (.null hn)) ?_
      rintro (⟨hs', -, -, -⟩ | ⟨-, -, -, -, hn'⟩)
      · exact hany hs'
      · rw [hn] at hn'; cases hn'
    | false =>
      refine .of_slips (.null hs ht (hne hnull hn) hnull hn) rfl fun h => ?_
      exact h.toValue.ne_null hn (Value.not_empty_of_numeric ht) rfl
  all_goals
    refine .of_hasType ?_ (hnumber rfl)
    rcases htarget with hk | hk <;> simp only [applyConversion, hk]
    · exact .of_value (.of_kind (.int _) t hk)
    · exact .of_value (.of_kind (.float _) t hk)

theorem Casts.eval (h : Casts u e t e') {s : Scope} {fr : Frame} (hv : e.eval s fr = .ok v)
    (hty : v.HasType c e.type) : ∃ w, e'.eval s fr = .ok w ∧ Converted c e.type t v w := by
  have convert (k : Conversion) :
      (Expr.convert k e t).eval s fr = .ok (applyConversion k t v) := by
    rw [Expr.eval, hv]
    rfl
  cases h with
  | same heq => exact ⟨v, hv, .of_hasType (heq ▸ hty) (not_slips_of_kind (congrArg Ty.kind heq))⟩
  | null hconst hnull =>
    obtain rfl : v = .value .null := by
      cases e with
      | const a ty => cases a <;> first | exact (Except.ok.inj hv).symm | cases hconst
      | _ => cases hconst
    refine ⟨_, rfl, .of_hasType (.of_value (.null hnull)) ?_⟩
    rintro (⟨-, -, hv', -⟩ | ⟨-, -, -, -, hn⟩)
    · cases hv'
    · rw [hnull] at hn; cases hn
  | implicit hk => exact ⟨_, convert _, .of_hasType (applyConversion_gives hk hty) hk.not_slips⟩
  | unbox hs ht => exact ⟨_, convert _, unbox_converted hs ht⟩
  | value heq => exact ⟨_, convert _, value_converted heq hty⟩
  | number hs ht hne => exact ⟨_, convert _, numeric_converted hs ht hne hty⟩

/-- An explicit conversion never fails, be it evaluated as it stands or read by a binding. It gives
an operand of the type asked for, and null only where that type has it, unless the operand slips
through.
-/
theorem explicit_converts (hn : u.WellNamed) (he : e.type.Formed u) (ht : t.Formed u)
    (h : e.explicit t = .ok e') :
    (∀ s fr v, e.eval s fr = .ok v → v.HasType u.catalog e.type →
      ∃ w, e'.eval s fr = .ok w ∧ Converted u.catalog e.type t v w) ∧
    ∀ s r, Reader.compile e s = .ok r → ∃ r', Reader.compile e' s = .ok r' ∧
      ∀ vms control v, r.read vms control = .ok v → v.HasType u.catalog e.type →
        ∃ w, r'.read vms control = .ok w ∧ Converted u.catalog e.type t v w := by
  have hcast := casts_of_explicit hn he ht h
  refine ⟨fun s fr v => hcast.eval, fun s r hr => ?_⟩
  obtain ⟨hchecked, rfl⟩ := compile_ok_iff.1 hr
  refine ⟨⟨e'.guardNulls, s⟩, compile_ok_iff.2 ⟨hcast.checked hchecked, rfl⟩, ?_⟩
  intro vms control v hv hty
  have hguarded := hcast.guardNulls.eval (c := u.catalog) hv (e.guardNulls_type ▸ hty)
  rwa [e.guardNulls_type] at hguarded

def dataOf (t : Ty) : Expr := dataContext ⟨{ dataType := t }, []⟩ "_this"

/-- The number 3, which may be null, as a float. -/
theorem explicit_converts_nullable : (dataOf (.nullable .int)).explicit .float =
      .ok (.convert .numeric (dataOf (.nullable .int)) .float) ∧
    ∃ r w, Reader.compile (.convert .numeric (dataOf (.nullable .int)) .float)
        ⟨{ dataType := .nullable .int }, []⟩ = .ok r ∧
      r.read [.int 3] none = .ok w ∧ w.HasType Universe.initial.catalog .float := by
  refine ⟨rfl, ?_⟩
  obtain ⟨r, hr, hread⟩ := (explicit_converts (e := dataOf (.nullable .int)) (t := .float)
    Universe.initial_wellNamed ⟨trivial, rfl⟩ trivial rfl).2
      ⟨{ dataType := .nullable .int }, []⟩ _ rfl
  obtain ⟨w, hw, hconv⟩ := hread [.int 3] none (.value (.int 3)) rfl
    (.of_value (.nullable (.int 3)))
  refine ⟨r, w, hr, hw, hconv.hasType_iff.2 ?_⟩
  rintro (⟨hs, -, -, -⟩ | -)
  cases hs

/-- A text is read as it is where it is converted from the type of all values to integers, and null
where it is converted from integers that may be null to floats. -/
theorem explicit_unchecked : (∃ e r, (dataOf .any).explicit .int = .ok e ∧ e.type = .int ∧
      Reader.compile e ⟨{ dataType := .any }, []⟩ = .ok r ∧
      r.read [.text "text"] none = .ok (.value (.text "text")) ∧
      ∀ c, ¬ Value.HasType c .int (.text "text")) ∧
    ∃ e r, (dataOf (.nullable .int)).explicit .float = .ok e ∧ e.type = .float ∧
      Reader.compile e ⟨{ dataType := .nullable .int }, []⟩ = .ok r ∧
      r.read [.null] none = .ok (.value .null) ∧ ∀ c, ¬ Value.HasType c .float .null :=
  ⟨⟨_, _, rfl, rfl, rfl, rfl, fun _ h => nomatch h.shape⟩,
    ⟨_, _, rfl, rfl, rfl, rfl, fun _ h => h.ne_null rfl rfl rfl⟩⟩

end Expr

end Bindery
