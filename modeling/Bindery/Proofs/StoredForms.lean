import Bindery.Proofs.ImplicitConversions
import Bindery.Proofs.MemberTyping

/-!
# Values that differ in the forms of their fields

Two objects of a class may hold the same number in different forms, a float in one and a whole
number in the other, and a field that is read is brought into the standard form of its type.
`Value.Alike` relates the values of a type that differ in this way only: what their fields hold is
alike in standard form, while the elements of lists, which are handed out as they are, are alike
without it. `Operand.Alike` extends the relation to functions, which take alike arguments to alike
results.

Operators and predeclared members do not tell alike values apart, except that the text of a list or
object shows what it holds. The members of other classes are given from outside, and
`Universe.Respectful` is what is asked of them.
-/

namespace Bindery

/-! ## Pairs of outcomes -/

/-- Both outcomes are results, and `R` relates them, or both are the same failure. -/
def Both {ε α : Type} (R : α → α → Prop) : Except ε α → Except ε α → Prop
  | .ok a, .ok a' => R a a'
  | .error e, .error e' => e = e'
  | _, _ => False

namespace Both

variable {ε α β : Type} {R : α → α → Prop} {S : β → β → Prop} {x x' : Except ε α}

theorem refl (h : ∀ a, x = .ok a → R a a) : Both R x x := by
  cases x with
  | ok a => exact h a rfl
  | error e => exact rfl

theorem cases (hx : Both R x x') :
    (∃ a a', x = .ok a ∧ x' = .ok a' ∧ R a a') ∨ ∃ e, x = .error e ∧ x' = .error e := by
  match x, x', hx with
  | .ok a, .ok a', hx => exact .inl ⟨a, a', rfl, rfl, hx⟩
  | .error e, .error _, hx => exact .inr ⟨e, rfl, congrArg _ hx.symm⟩

theorem bind {f f' : α → Except ε β} (hx : Both R x x')
    (hf : ∀ a a', R a a' → Both S (f a) (f' a')) : Both S (x >>= f) (x' >>= f') := by
  obtain ⟨a, a', rfl, rfl, h⟩ | ⟨e, rfl, rfl⟩ := hx.cases
  · exact hf a a' h
  · exact rfl

theorem mono {R' : α → α → Prop} (hx : Both R x x') (h : ∀ a a', R a a' → R' a a') :
    Both R' x x' := by
  obtain ⟨a, a', rfl, rfl, ha⟩ | ⟨e, rfl, rfl⟩ := hx.cases
  · exact h a a' ha
  · exact rfl

end Both

/-- The relation holds of what stands at the same place in the three lists, which are equally
long. -/
inductive Each {α β : Type} (R : α → β → β → Prop) : List α → List β → List β → Prop
  | nil : Each R [] [] []
  | cons {a : α} {b b' : β} {as : List α} {bs bs' : List β} :
    R a b b' → Each R as bs bs' → Each R (a :: as) (b :: bs) (b' :: bs')

/-! ## Values -/

/-- The values of a type differ at most in the forms of what the fields of objects hold. -/
inductive Value.Alike (c : Catalog) : Ty → Value → Value → Prop
  | same (t : Ty) (v : Value) : Alike c t v v
  | nullable {t : Ty} {v v' : Value} : Alike c t v v' → Alike c (.nullable t) v v'
  | any {t : Ty} {v v' : Value} : Alike c t v v' → Alike c .any v v'
  | list {e p : Ty} {items items' : List Value} (ref ref' : Option Ref) :
    items.length = items'.length →
    (∀ {v v'}, (v, v') ∈ items.zip items' → Alike c e v v') →
    Alike c (.list e p) (.list ref items) (.list ref' items')
  | object {d : Declared} {fields fields' : Record Value} (ref ref' : Option Ref) :
    (∀ f ∈ (c.find d).fields, f.get = none →
      Alike c f.type (((fields.get? f.name).getD .null).normalize f.type)
        (((fields'.get? f.name).getD .null).normalize f.type)) →
    Alike c (.declared d) (.object ref fields) (.object ref' fields')

def Kind.isScalar : Kind → Bool
  | .bool | .int | .float | .string => true
  | _ => false

/-- The values are equal, or both are lists, or both are objects. -/
inductive Value.SameShape : Value → Value → Prop
  | same (v : Value) : SameShape v v
  | list (ref ref' : Option Ref) (items items' : List Value) :
    SameShape (.list ref items) (.list ref' items')
  | object (ref ref' : Option Ref) (fields fields' : List (Text × Value)) :
    SameShape (.object ref fields) (.object ref' fields')

namespace Value.SameShape

variable {v v' w w' : Value}

theorem isNull_eq (h : SameShape v v') : v.isNull = v'.isNull := by cases h <;> rfl

theorem isTrue_eq (h : SameShape v v') : v.isTrue = v'.isTrue := by cases h <;> rfl

theorem toFloat?_eq (h : SameShape v v') : v.toFloat? = v'.toFloat? := by cases h <;> rfl

theorem sameScalar_eq (h : SameShape v v') (hw : SameShape w w') :
    v.sameScalar w = v'.sameScalar w' := by
  cases h with
  | same v => cases hw <;> cases v <;> rfl
  | list | object => cases hw <;> rfl

theorem equals_eq (h : SameShape v v') (hw : SameShape w w') : v.equals w = v'.equals w' := by
  rw [equals, equals, h.toFloat?_eq, hw.toFloat?_eq, h.sameScalar_eq hw]

/-- No operator on values tells one list or object from another. -/
theorem apply_eq (op : BinaryOp) (h : SameShape v v') (hw : SameShape w w') :
    apply op v w = apply op v' w' := by
  cases op with
  | equal | notEqual => rw [apply, apply, h.equals_eq hw]
  | _ =>
    cases h with
    | same v => cases hw <;> cases v <;> rfl
    | list | object => cases hw <;> first | rfl | (cases w <;> rfl)

end Value.SameShape

namespace Value.Alike

variable {c : Catalog} {t : Ty} {v v' : Value}

theorem sameShape (h : Alike c t v v') : SameShape v v' := by
  induction h with
  | same t v => exact .same v
  | nullable _ ih | any _ ih => exact ih
  | list ref ref' _ _ _ => exact .list ref ref' _ _
  | object ref ref' _ _ => exact .object ref ref' _ _

theorem eq_of_scalar (h : Alike c t v v') (ht : t.kind.isScalar) : v = v' := by
  induction h with
  | same t v => rfl
  | nullable _ ih => exact ih ht
  | any | list => cases ht
  | @object d => cases hd : d.isStatic <;> simp [Ty.kind, hd, Kind.isScalar] at ht

theorem normalize (h : Alike c t v v') (s : Ty) : Alike c t (v.normalize s) (v'.normalize s) := by
  induction h with
  | same t v => exact .same t _
  | nullable _ ih => exact .nullable ih
  | any _ ih => exact .any ih
  | list ref ref' hlen hitems _ => exact .list ref ref' hlen hitems
  | object ref ref' hfields _ => exact .object ref ref' hfields

theorem of_nullable (h : Alike c (.nullable t) v v') : Alike c t v v' := by
  cases h with
  | same => exact .same t v
  | nullable h => exact h

theorem underlying (h : Alike c t v v') : Alike c t.underlying v v' := by
  cases t with
  | nullable t =>
    rw [Ty.underlying]
    split
    · exact h.of_nullable
    · exact h
  | _ => exact h

theorem of_items {e p : Ty} (ref ref' : Option Ref) {items items' : List Value}
    (h : List.Forall₂ (Alike c e) items items') :
    Alike c (.list e p) (.list ref items) (.list ref' items') :=
  .list ref ref' h.length_eq (List.forall₂_iff_zip.1 h).2

theorem box_list {p : Ty} (h : Alike c t v v') (ht : t.kind = .list) :
    Alike c (.list .any p) v v' := by
  induction h with
  | same t v => exact .same _ v
  | nullable _ ih => exact ih ht
  | any => cases ht
  | list ref ref' hlen hitems _ => exact .list ref ref' hlen fun hmem => .any (hitems hmem)
  | @object d => cases hd : d.isStatic <;> simp [Ty.kind, hd] at ht

end Value.Alike

/-! ## Operands -/

/-- The operands are alike values, or functions that take alike arguments to alike results. -/
def Operand.Alike (c : Catalog) : Ty → Operand → Operand → Prop
  | t, .value v, .value v' => v.Alike c t v'
  | .func ps r, .func f, .func f' =>
    ∀ args args', Each (Value.Alike c) ps args args' → Both (Alike c r) (f args) (f' args')
  | .basic .any, .func _, .func _ => True
  | _, _, _ => False

namespace Operand.Alike

variable {c : Catalog} {t : Ty} {x x' : Operand}

theorem of_value {v v' : Value} (h : v.Alike c t v') : Alike c t v v' := by
  cases t <;> exact h

theorem same (t : Ty) (v : Value) : Alike c t v v := .of_value (.same t v)

theorem values_or_funcs (h : Alike c t x x') :
    (∃ v v', x = .value v ∧ x' = .value v' ∧ v.Alike c t v') ∨
      ∃ f f', x = .func f ∧ x' = .func f' := by
  cases x with
  | value v =>
    cases x' with
    | value v' => exact .inl ⟨v, v', rfl, rfl, by cases t <;> exact h⟩
    | func f' => cases t <;> exact absurd h id
  | func f =>
    cases x' with
    | value v' =>
      cases t with
      | basic b => cases b <;> exact absurd h id
      | _ => exact absurd h id
    | func f' => exact .inr ⟨f, f', rfl, rfl⟩

theorem toValue (h : Alike c t x x') : x.toValue.Alike c t x'.toValue := by
  rcases h.values_or_funcs with ⟨v, v', rfl, rfl, hv⟩ | ⟨f, f', rfl, rfl⟩
  · exact hv
  · exact .same t _

theorem isNull_eq (h : Alike c t x x') : x.isNull = x'.isNull := by
  rcases h.values_or_funcs with ⟨v, v', rfl, rfl, hv⟩ | ⟨f, f', rfl, rfl⟩
  · exact hv.sameShape.isNull_eq
  · rfl

theorem isTrue_eq (h : Alike c t x x') : x.isTrue = x'.isTrue := h.toValue.sameShape.isTrue_eq

theorem eq_values (h : Alike c t x x') (ha : t.kind ≠ .any) (hf : t.kind ≠ .func) :
    ∃ v v', x = .value v ∧ x' = .value v' ∧ v.Alike c t v' := by
  rcases h.values_or_funcs with hv | ⟨f, f', rfl, rfl⟩
  · exact hv
  · cases t with
    | basic b => cases b <;> first | exact absurd rfl ha | exact absurd h id
    | func ps r => exact absurd rfl hf
    | _ => exact absurd h id

theorem eq_of_scalar (h : Alike c t x x') (ht : t.kind.isScalar) :
    ∃ v, x = .value v ∧ x' = .value v := by
  obtain ⟨v, v', rfl, rfl, hv⟩ := h.eq_values (by rintro hk; simp [hk, Kind.isScalar] at ht)
    (by rintro hk; simp [hk, Kind.isScalar] at ht)
  exact ⟨v, rfl, hv.eq_of_scalar ht ▸ rfl⟩

theorem any (h : Alike c t x x') : Alike c .any x x' := by
  rcases h.values_or_funcs with ⟨v, v', rfl, rfl, hv⟩ | ⟨f, f', rfl, rfl⟩
  · exact .any hv
  · trivial

theorem underlying (h : Alike c t x x') : Alike c t.underlying x x' := by
  rcases h.values_or_funcs with ⟨v, v', rfl, rfl, hv⟩ | ⟨f, f', rfl, rfl⟩
  · exact .of_value hv.underlying
  · cases t with
    | nullable t => exact absurd h id
    | _ => exact h

theorem of_underlying (h : Alike c t.underlying x x') : Alike c t x x' := by
  cases t with
  | nullable t =>
    rw [Ty.underlying] at h
    split at h
    · rename_i hk
      obtain ⟨v, v', rfl, rfl, hv⟩ := h.eq_values (by rintro h0; rw [h0] at hk; cases hk)
        (by rintro h0; rw [h0] at hk; cases hk)
      exact .of_value (.nullable hv)
    · exact h
  | _ => exact h

theorem outcome_eq {r r' : Except Fault Operand} (h : Both (Alike c t) r r')
    (ht : t.kind.isScalar) : r = r' := by
  obtain ⟨x, x', rfl, rfl, h⟩ | ⟨fault, rfl, rfl⟩ := h.cases
  · obtain ⟨v, rfl, rfl⟩ := eq_of_scalar h ht
    rfl
  · rfl

end Operand.Alike

/-! ## Operators and conversions -/

namespace Expr

variable {c : Catalog} {s t : Ty} {v v' : Operand}

theorem applyUnary_alike (e : Expr) (op : UnaryOp) (h : v.Alike c t v') (ht : t.kind.isScalar) :
    Both (Operand.Alike c t) (applyUnary e op v) (applyUnary e op v') := by
  obtain ⟨u, rfl, rfl⟩ := h.eq_of_scalar ht
  refine .refl fun x hx => ?_
  obtain ⟨w, rfl⟩ : ∃ w, x = .value w := by
    cases op <;> cases u <;> first | exact ⟨_, (Except.ok.inj hx).symm⟩ | cases hx
  exact .same t w

theorem applyStrict_alike (e : Expr) (op : BinaryOp) {l l' r r' : Operand} {ty : Ty}
    (hl : l.Alike c s l') (hr : r.Alike c t r')
    (htext : (op == .add && ty.kind == .string) →
      s.kind.isScalar ∧ t.kind.isScalar) :
    Both (Operand.Alike c ty) (applyStrict e op ty l r) (applyStrict e op ty l' r') := by
  have heq : applyStrict e op ty l' r' = applyStrict e op ty l r := by
    rw [applyStrict, applyStrict, hl.toValue.sameShape.apply_eq op hr.toValue.sameShape]
    split
    · rename_i hadd
      obtain ⟨hs, ht⟩ := htext hadd
      rw [hl.toValue.eq_of_scalar hs, hr.toValue.eq_of_scalar ht]
    · rfl
  rw [heq]
  refine .refl fun x hx => ?_
  obtain ⟨w, rfl⟩ : ∃ w, x = .value w := by
    rw [applyStrict] at hx
    split at hx
    · exact ⟨_, (Except.ok.inj hx).symm⟩
    · split at hx
      · exact ⟨_, (Except.ok.inj hx).symm⟩
      · cases hx
  exact .same ty w

theorem applyBinary_alike {u : Universe} (hu : u.WellNamed) (e : Expr) {op : BinaryOp} {x y : Expr}
    {l l' : Operand} {right right' : Unit → Except Fault Operand} (hx : x.type.Formed u)
    (hy : y.type.Formed u) (ht : binaryType? op x y = some t)
    (htext : (op == .add && t.kind == .string) →
      x.type.kind.isScalar ∧ y.type.kind.isScalar)
    (hl : l.Alike c x.type l') (hr : Both (Operand.Alike c y.type) (right ()) (right' ()))
    (hnull : y.isNullConst →
      right () = .ok (.value .null) ∧ right' () = .ok (.value .null)) :
    Both (Operand.Alike c t) (applyBinary e op t l right) (applyBinary e op t l' right') := by
  have truth : Both (Operand.Alike c t) (do return Value.bool (← right ()).isTrue)
      (do return Value.bool (← right' ()).isTrue) :=
    hr.bind fun r r' h => by rw [h.isTrue_eq]; exact .same t _
  cases op with
  | andAlso =>
    rw [applyBinary, applyBinary, hl.isTrue_eq]
    split
    · exact truth
    · exact Operand.Alike.same t _
  | orElse =>
    rw [applyBinary, applyBinary, hl.isTrue_eq]
    split
    · exact Operand.Alike.same t _
    · exact truth
  | coalesce =>
    simp only [binaryType?] at ht
    rw [applyBinary, applyBinary, hl.isNull_eq]
    split at ht
    · cases ht
    split at ht
    · rename_i hconst
      obtain rfl := Option.some.inj ht
      obtain ⟨h, h'⟩ := hnull hconst
      rw [h, h']
      split
      · exact Operand.Alike.same _ _
      · exact hl
    split at ht
    · rename_i hid
      obtain rfl := Option.some.inj ht
      split
      · exact hr
      · simp only [Bool.or_eq_true] at hid
        rcases hid with hid | hid
        · rw [← hx.underlying.eq_of_identical hu hy hid]
          exact hl.underlying
        · rw [← hx.eq_of_identical hu hy hid]
          exact hl
    split at ht
    · rename_i hany
      obtain rfl := Option.some.inj ht
      rw [hx.eq_any (by simpa using hany)] at hl ⊢
      split
      · exact hr.mono fun r r' h => h.any
      · exact hl
    · cases ht
  | _ => exact hr.bind fun r r' h => applyStrict_alike e _ hl h htext

theorem applyConversion_scalar (k : Conversion) (h : v.Alike c s v') (hs : s.kind.isScalar) :
    (applyConversion k t v).Alike c t (applyConversion k t v') := by
  obtain ⟨u, rfl, rfl⟩ := h.eq_of_scalar hs
  obtain ⟨w, hw⟩ : ∃ w, applyConversion k t (.value u) = .value w := by
    unfold applyConversion
    split <;> first | exact ⟨_, rfl⟩ | (split <;> exact ⟨_, rfl⟩)
  rw [hw]
  exact .same t w

end Expr

/-! ## Members -/

/-- The method treats alike operands alike. -/
def Method.Respects (c : Catalog) (t : Ty) (m : Method) : Prop :=
  ∀ run, m.run = some run → ∀ recv recv' args args', Operand.Alike c t recv recv' →
    Each (Operand.Alike c) m.params args args' →
    Both (fun x x' => Operand.Alike c m.result (x.normalize m.result) (x'.normalize m.result))
      (run recv args) (run recv' args')

def Field.Respects (c : Catalog) (t : Ty) (f : Field) : Prop :=
  ∀ get, f.get = some get → ∀ v v', Value.Alike c t v v' →
    Both (fun w w' => Value.Alike c f.type (w.normalize f.type) (w'.normalize f.type))
      (get v) (get v')

/-- The function treats values alike that are alike, whatever types they are alike at. -/
def Stored.Respects (c : Catalog) (g : Stored) : Prop :=
  ∀ ts args args', Each (Value.Alike c) ts args args' →
    Both (Operand.Alike c g.result) (g.run args) (g.run args')

/-- The members of all classes but the static ones that every universe has treat alike values
alike, and so do stored functions. -/
structure Universe.Respectful (u : Universe) : Prop where
  field : ∀ d, (d.name, .declared d) ∈ u.named → d ≠ .math → d ≠ .resources →
    ∀ f ∈ (u.catalog.find d).fields, f.Respects u.catalog (.declared d)
  method : ∀ d, (d.name, .declared d) ∈ u.named → d ≠ .math → d ≠ .resources →
    ∀ m ∈ (u.catalog.find d).methods, m.Respects u.catalog (.declared d)
  stored : ∀ n g, u.catalog.functions n = some g → g.Respects u.catalog

namespace Method

variable {c : Catalog} {t : Ty} {m : Method}
  {args args' : List Operand} {recv recv' : Operand} {elem p : Ty}

theorem applyMethod_alike (e : Expr) (hm : m.Respects c t) (hrecv : recv.Alike c t recv')
    (hargs : Each (Operand.Alike c) m.params args args') :
    Both (Operand.Alike c m.result) (Expr.applyMethod e m recv args)
      (Expr.applyMethod e m recv' args') := by
  rw [Expr.applyMethod, Expr.applyMethod]
  cases hrun : m.run with
  | none => exact rfl
  | some run =>
    obtain ⟨x, x', hx, hx', h⟩ | ⟨fault, hx, hx'⟩ :=
      (hm run hrun recv recv' args args' hrecv hargs).cases <;> simp only [hx, hx']
    · cases x <;> cases x' <;> exact h
    · exact rfl

theorem each_eq_of_scalars {ts : List Ty} (h : Each (Operand.Alike c) ts args args')
    (hts : ∀ t ∈ ts, t.kind.isScalar) : args = args' := by
  induction h with
  | nil => rfl
  | cons hx _ ih =>
    obtain ⟨v, rfl, rfl⟩ := hx.eq_of_scalar (hts _ List.mem_cons_self)
    rw [ih fun t ht => hts t (List.mem_cons_of_mem _ ht)]

theorem respects_of_scalars {run : Operand → List Operand → Except Fault Operand}
    (hm : m.run = some run)
    (hrecv : ∀ recv recv' args, Operand.Alike c t recv recv' → run recv args = run recv' args)
    (hparams : ∀ s ∈ m.params, s.kind.isScalar)
    (hvalue : ∀ recv args x, run recv args = .ok x → ∃ v, x = .value v) : m.Respects c t := by
  intro run' hrun recv recv' args args' hrecv' hargs
  obtain rfl := Option.some.inj (hm.symm.trans hrun)
  obtain rfl := each_eq_of_scalars hargs hparams
  rw [hrecv recv recv' args hrecv']
  refine .refl fun x hx => ?_
  obtain ⟨v, rfl⟩ := hvalue _ _ x hx
  exact .same _ _

theorem anyMethods_respect (ht : t.kind.isScalar) (hm : m ∈ anyMethods) : m.Respects c t := by
  obtain rfl := List.mem_singleton.1 hm
  refine respects_of_scalars rfl (fun recv recv' _ h => ?_) (fun s hs => nomatch hs)
    fun _ _ x hx => ⟨_, (Except.ok.inj hx).symm⟩
  obtain ⟨v, rfl, rfl⟩ := h.eq_of_scalar ht
  rfl

theorem stringMethods_respect (hm : m ∈ stringMethods) : m.Respects c .string := by
  have text (recv recv' : Operand) (h : Operand.Alike c .string recv recv') : recv = recv' := by
    obtain ⟨v, rfl, rfl⟩ := h.eq_of_scalar rfl
    rfl
  have params (s : Ty) (hs : s ∈ [Ty.string]) : s.kind.isScalar := by
    obtain rfl := List.mem_singleton.1 hs
    rfl
  simp only [stringMethods, List.mem_cons, List.not_mem_nil, or_false] at hm
  rcases hm with rfl | rfl | rfl | rfl | rfl | rfl | rfl | rfl
  all_goals
    refine respects_of_scalars rfl (fun recv recv' _ h => by rw [text recv recv' h]) ?_
      fun _ _ x hx => ⟨_, (Except.ok.inj hx).symm⟩
    first | exact params | simp

theorem select_alike {p p' : List Value → Except Fault Operand} (wanted : Bool) {r : Ty}
    (hp : ∀ v v', Value.Alike c elem v v' → Both (Operand.Alike c r) (p [v]) (p' [v']))
    {vs vs' : List Value} (h : List.Forall₂ (Value.Alike c elem) vs vs') :
    Both (List.Forall₂ (Value.Alike c elem)) (select p wanted vs) (select p' wanted vs') := by
  induction h with
  | nil => exact .nil
  | @cons v v' vs vs' hv _ ih =>
    rw [select, select]
    refine (hp v v' hv).bind fun b b' hb => ih.bind fun rest rest' hrest => ?_
    rw [hb.isTrue_eq]
    split
    · exact .cons hv hrest
    · exact hrest

theorem elements_alike (h : recv.Alike c (.list elem p) recv') :
    List.Forall₂ (Value.Alike c elem) (elements recv) (elements recv') := by
  obtain ⟨v, v', rfl, rfl, hv⟩ := h.eq_values (by simp [Ty.kind]) (by simp [Ty.kind])
  cases hv with
  | same => exact List.forall₂_same.2 fun w _ => .same elem w
  | list ref ref' hlen hitems => exact List.forall₂_iff_zip.2 ⟨hlen, hitems⟩

theorem hasElement_alike (hrecv : recv.Alike c (.list elem p) recv')
    (hargs : Each (Operand.Alike c) [elem] args args') :
    hasElement recv args = hasElement recv' args' := by
  obtain _ | ⟨hx, ⟨⟩⟩ := hargs
  have hany {vs vs' : List Value} (h : List.Forall₂ (Value.Alike c elem) vs vs') {w w' : Value}
      (hw : Value.SameShape w w') :
      (vs.any fun v => v.sameScalar w) = vs'.any fun v => v.sameScalar w' := by
    induction h with
    | nil => rfl
    | cons hv _ ih => rw [List.any_cons, List.any_cons, ih, hv.sameShape.sameScalar_eq hw]
  exact congrArg (fun b => Except.ok (Operand.value (.bool b)))
    (hany (elements_alike hrecv) hx.toValue.sameShape)

section Lists

variable (hc : ∀ n g, c.functions n = some g → g.Respects c)

include hc

theorem filtered_alike (wanted : Bool) (hrecv : recv.Alike c (.list elem p) recv')
    (hargs : Each (Operand.Alike c) [.func [elem] .bool] args args') :
    Both (List.Forall₂ (Value.Alike c elem)) (filtered c.functions wanted recv args)
      (filtered c.functions wanted recv' args') := by
  obtain _ | ⟨hp, ⟨⟩⟩ := hargs
  rcases hp.values_or_funcs with ⟨v, v', rfl, rfl, hv⟩ | ⟨f, f', rfl, rfl⟩
  · -- Values of a function type are alike only if they are the same function.
    cases hv
    cases v with
    | function entry =>
      rcases entry with _ | n
      · exact rfl
      · simp only [filtered, firstArg, List.headD_cons, callee?]
        cases hg : c.functions n with
        | none => exact rfl
        | some g =>
          exact select_alike wanted (fun v v' hv => hc n g hg [elem] [v] [v'] (.cons hv .nil))
            (elements_alike hrecv)
    | _ => exact rfl
  · exact select_alike wanted (fun v v' hv => hp [v] [v'] (.cons hv .nil)) (elements_alike hrecv)

theorem respects_of_filtered {wanted : Bool} {f : List Value → Value}
    (hm : m.run = some fun recv args => do return f (← filtered c.functions wanted recv args))
    (hparams : m.params = [.func [elem] .bool])
    (hf : ∀ vs vs', List.Forall₂ (Value.Alike c elem) vs vs' →
      Value.Alike c m.result (f vs) (f vs')) : m.Respects c (.list elem p) := by
  intro run hrun recv recv' args args' hrecv hargs
  obtain rfl := Option.some.inj (hm.symm.trans hrun)
  rw [hparams] at hargs
  refine (filtered_alike hc wanted hrecv hargs).bind fun picked picked' hpicked => ?_
  exact .of_value ((hf picked picked' hpicked).normalize m.result)

theorem listMethods_respect (hm : m ∈ listMethods c.functions elem (.func [elem] .bool)) :
    m.Respects c (.list elem (.func [elem] .bool)) := by
  have isEmpty_eq {vs vs' : List Value} (h : List.Forall₂ (Value.Alike c elem) vs vs') :
      vs.isEmpty = vs'.isEmpty := by cases h <;> rfl
  simp only [listMethods, List.mem_cons, List.not_mem_nil, or_false] at hm
  rcases hm with rfl | rfl | rfl | rfl
  · exact respects_of_filtered hc (f := fun vs => .bool !vs.isEmpty) rfl rfl fun vs vs' h => by
      rw [isEmpty_eq h]
      exact .same _ _
  · exact respects_of_filtered hc (f := fun vs => .bool vs.isEmpty) rfl rfl fun vs vs' h => by
      rw [isEmpty_eq h]
      exact .same _ _
  · exact respects_of_filtered hc (f := fun vs => .list none vs) rfl rfl fun vs vs' h =>
      .of_items none none h
  · intro run hrun recv recv' args args' hrecv hargs
    obtain rfl := Option.some.inj hrun
    rw [hasElement_alike hrecv hargs]
    exact Operand.Alike.same _ _

end Lists

theorem respects_of_extremum {isMax : Bool} (hm : m.run = some (extremum isMax))
    (hparams : ∀ s ∈ m.params, s.kind.isScalar) : m.Respects c t := by
  refine respects_of_scalars hm (fun _ _ _ _ => rfl) hparams fun recv args x => ?_
  fun_cases extremum isMax recv args <;> intro hx <;>
    first | exact ⟨_, (Except.ok.inj hx).symm⟩ | cases hx

theorem math_respects (hm : m ∈ Declaration.math.methods) : m.Respects c t := by
  simp only [Declaration.math, List.mem_cons, List.not_mem_nil, or_false] at hm
  rcases hm with rfl | rfl | rfl | rfl | rfl
  iterate 4 exact respects_of_extremum rfl (by simp [Ty.kind, Ty.int, Ty.float, Kind.isScalar])
  · refine respects_of_scalars rfl (fun _ _ _ _ => rfl)
      (by simp [Ty.kind, Ty.float, Kind.isScalar]) fun recv args x hx => ?_
    unfold magnitude at hx
    split at hx <;> exact ⟨_, (Except.ok.inj hx).symm⟩

theorem resources_respects (hm : m ∈ Declaration.resources.methods) : m.Respects c t := by
  obtain rfl := List.mem_singleton.1 hm
  exact respects_of_scalars rfl (fun _ _ _ _ => rfl) (by simp [Ty.kind, Ty.string, Kind.isScalar])
    fun _ _ x hx => ⟨_, (Except.ok.inj hx).symm⟩

end Method

/-! ## Members that the checks find -/

namespace Ty

variable {u : Universe} {t : Ty} {f : Field}

theorem ownMethods_respect (hs : u.Sound) (hr : u.Respectful) (ht : t.Formed u) {m : Method}
    (hm : m ∈ t.ownMethods u.catalog) (htext : m ∈ Method.anyMethods → t.kind.isScalar) :
    m.Respects u.catalog t := by
  cases t with
  | basic b =>
    cases b with
    | any => cases htext hm
    | string => exact Method.stringMethods_respect hm
    | _ => cases hm
  | declared d =>
    by_cases hmath : d = .math
    · rw [hmath] at hm ⊢
      exact Method.math_respects (hs.math ▸ hm)
    by_cases hres : d = .resources
    · rw [hres] at hm ⊢
      exact Method.resources_respects (hs.resources ▸ hm)
    · exact hr.method d ht hmath hres m hm
  | list e p =>
    obtain ⟨-, rfl⟩ := ht
    exact Method.listMethods_respect hr.stored hm
  | _ => cases hm

/-- The methods among which a call chooses treat alike operands alike, if no text of a list, an
object or an arbitrary value is made. -/
theorem overloads_respect (hs : u.Sound) (hr : u.Respectful) (ht : t.Formed u) {name : Text}
    {arity : Nat} {m : Method} (hm : m ∈ t.overloads u.catalog name arity)
    (htext : m ∈ Method.anyMethods → t.kind.isScalar) : m.Respects u.catalog t := by
  obtain hm | hm := (mem_overloads hm).1
  · have h := ownMethods_respect hs hr ht.underlying hm (t.kind_underlying ▸ htext)
    intro run hrun recv recv' args args' hrecv
    exact h run hrun recv recv' args args' hrecv.underlying
  · exact Method.anyMethods_respect (htext hm) hm

theorem ownFields_respect (hr : u.Respectful) (hs : u.Sound) (ht : t.Formed u)
    (hf : f ∈ t.ownFields u.catalog) : f.Respects u.catalog t := by
  cases t with
  | basic b =>
    cases b with
    | string =>
      obtain rfl := List.mem_singleton.1 hf
      intro get _ v v' h
      obtain rfl := h.eq_of_scalar rfl
      exact .refl fun _ _ => .same _ _
    | _ => cases hf
  | declared d =>
    by_cases hmath : d = .math
    · rw [hmath, ownFields, hs.math] at hf
      cases hf
    by_cases hres : d = .resources
    · rw [hres, ownFields, hs.resources] at hf
      cases hf
    · exact hr.field d ht hmath hres f hf
  | list e p =>
    obtain rfl := List.mem_singleton.1 hf
    intro get hget v v' h
    obtain rfl := Option.some.inj hget
    cases h with
    | same => exact .refl fun _ _ => .same _ _
    | list ref ref' hlen _ =>
      simp only [hlen]
      exact .same _ _
  | _ => cases hf

theorem readField_alike_of_get {c : Catalog} (e : Expr) {get : Value → Except Error Value}
    (hget : f.get = some get) (hf : f.Respects c t) {v v' : Value} (h : v.Alike c t v') :
    Both (Operand.Alike c f.type) (Expr.readField e f v) (Expr.readField e f v') := by
  by_cases hnull : v = .null
  · subst hnull
    cases h.sameShape with
    | same => exact rfl
  have hnull' : v' ≠ .null := by
    rintro rfl
    cases h.sameShape with
    | same => exact hnull rfl
  rw [readField_get e hget hnull, readField_get e hget hnull']
  obtain ⟨w, w', hv, hv', hw⟩ | ⟨err, hv, hv'⟩ := (hf get hget v v' h).cases <;> rw [hv, hv']
  · exact .of_value hw
  · exact rfl

theorem readField_alike_of_object {c : Catalog} (e : Expr) {d : Declared}
    (hf : f ∈ (c.find d).fields) (hget : f.get = none) {v v' : Value}
    (h : v.Alike c (.declared d) v') :
    Both (Operand.Alike c f.type) (Expr.readField e f v) (Expr.readField e f v') := by
  cases h with
  | same =>
    refine .refl fun x hx => ?_
    cases v with
    | object ref fields =>
      simp only [Expr.readField, hget] at hx
      obtain rfl := Except.ok.inj hx
      exact .same _ _
    | _ => simp [Expr.readField, hget] at hx
  | object ref ref' hfields =>
    simp only [Expr.readField, hget]
    exact .of_value (hfields f hf hget)

theorem readField_alike (hs : u.Sound) (hr : u.Respectful) (ht : t.Formed u) {name : Text}
    (hf : t.field? u.catalog name = some f) (e : Expr) {x x' : Operand}
    (hx : x.Alike u.catalog t x') :
    Both (Operand.Alike u.catalog f.type) (Expr.readField e f x) (Expr.readField e f x') := by
  have hmem := List.mem_of_find?_eq_some hf
  have hrespects := ownFields_respect hr hs ht.underlying hmem
  have hx := hx.underlying
  generalize t.underlying = s at hmem hrespects hx
  cases s with
  | basic b =>
    cases b with
    | string =>
      obtain rfl := List.mem_singleton.1 hmem
      obtain ⟨v, v', rfl, rfl, hv⟩ := hx.eq_values (by simp [kind]) (by simp [kind])
      exact readField_alike_of_get e rfl hrespects hv
    | _ => cases hmem
  | declared d =>
    obtain ⟨v, v', rfl, rfl, hv⟩ := hx.eq_values (by cases hd : d.isStatic <;> simp [kind, hd])
      (by cases hd : d.isStatic <;> simp [kind, hd])
    cases hget : f.get with
    | some get => exact readField_alike_of_get e hget hrespects hv
    | none => exact readField_alike_of_object e hmem hget hv
  | list elem p =>
    obtain rfl := List.mem_singleton.1 hmem
    obtain ⟨v, v', rfl, rfl, hv⟩ := hx.eq_values (by simp [kind]) (by simp [kind])
    exact readField_alike_of_get e rfl hrespects hv
  | nullable s | func ps r => cases hmem

end Ty

theorem Expr.readElement_alike {c : Catalog} {e : Expr} {t p : Ty} (he : e.type = t)
    {x x' k k' : Operand} (hx : x.Alike c (.list t p) x') (hk : k.Alike c .int k') :
    Both (Operand.Alike c t) (readElement e x k) (readElement e x' k') := by
  subst he
  obtain ⟨v, v', rfl, rfl, hv⟩ := hx.eq_values (by simp [Ty.kind]) (by simp [Ty.kind])
  obtain ⟨i, rfl, rfl⟩ := hk.eq_of_scalar rfl
  cases hv with
  | same =>
    refine .refl fun y hy => ?_
    obtain ⟨w, rfl⟩ : ∃ w, y = .value w := by
      revert hy
      fun_cases readElement e v i <;> intro hy <;>
        first | exact ⟨_, (Except.ok.inj hy).symm⟩ | cases hy
    exact .same _ w
  | @list _ _ items items' ref ref' hlen hitems =>
    cases i with
    | int i =>
      have hpair := List.forall₂_iff_zip.2 ⟨hlen, hitems⟩
      simp only [readElement, ← hlen]
      by_cases hi : 0 ≤ i.toInt ∧ i.toInt.toNat < items.length
      · rw [if_pos hi.1, if_pos hi.1, List.getElem?_eq_getElem hi.2,
          List.getElem?_eq_getElem (hlen ▸ hi.2)]
        exact .of_value ((hpair.get hi.2 (hlen ▸ hi.2)).normalize e.type)
      · have hnone {vs : List Value} (hvs : vs.length = items.length) :
            (if 0 ≤ i.toInt then vs[i.toInt.toNat]? else none) = none := by
          split
          · exact List.getElem?_eq_none (by omega)
          · rfl
        rw [hnone rfl, hnone hlen.symm]
        exact rfl
    | _ => exact rfl

end Bindery
