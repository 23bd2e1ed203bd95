import Bindery.Proofs.BinderRules
import Bindery.Proofs.IntegerOrder

/-!
# Common types of branches

`Source.unify` gives two expressions a common type. Between value types an expression converts by
kind and by what its type admits alone (`Expr.implicit?_isSome_iff`), so of the routes to a common
type at most one is open in either order of the two. What a conversion makes of a value is
`Operand.widen`: an integer becomes the float next to it.
-/

namespace Bindery

namespace Rounding

/-- The number that a finite float stands for. -/
def number? (x : Float) : Option ℚ :=
  match x.toModel.unpack with
  | .zero _ => some 0
  | .finite .positive m q _ => some (m * 2 ^ q)
  | .finite .negative m q _ => some (-(m * 2 ^ q))
  | _ => none

theorem number?_ofInt {i : Int} (hi : i.natAbs < 2 ^ 64) :
    number? (Float.ofInt i) = some (rounded i : ℚ) := by
  have hnext := nextTo_ofInt hi
  unfold number?
  generalize (Float.ofInt i).toModel.unpack = u at hnext
  cases hnext with
  | zero => rfl
  | positive _ _ hvalue | negative _ _ hvalue => rw [hvalue]

theorem rounded_of_le {i : Int} (h : i.natAbs ≤ 2 ^ 53) : rounded i = i := by
  rcases Nat.lt_or_eq_of_le h with h | h
  · exact rounded_of_lt h
  · rcases Int.natAbs_eq i with hi | hi <;> rw [hi, h] <;> decide

end Rounding

namespace Ty

/-- Only types that do not admit null have nullable forms, also among the types of elements. -/
def Built : Ty → Prop
  | .nullable t => t.isNullable = false
  | .list e _ => Built e
  | _ => True

variable {s t : Ty}

/-- The types of values, and their nullable forms. -/
def values : List Ty := [.bool, .int, .float, .nullable .bool, .nullable .int, .nullable .float]

theorem Built.cases (h : t.Built) :
    t = .any ∨ t ∈ values ∨ t.kind ≠ .any ∧ t.kind.isValue = false := by
  have declared (d : Declared) :
      (Ty.declared d).kind ≠ .any ∧ (Ty.declared d).kind.isValue = false := by
    cases hd : d.isStatic <;> simp [kind, hd, Kind.isValue]
  cases t with
  | basic b => cases b <;> simp [any, values, bool, int, float, kind, Kind.isValue]
  | declared d => exact .inr (.inr (declared d))
  | nullable t =>
    cases t with
    | basic b =>
      cases b <;> simp [any, values, bool, int, float, kind, Kind.isValue]
      cases h
    | declared d => exact .inr (.inr (declared d))
    | _ => cases h
  | _ => simp [kind, Kind.isValue]

/-- A value type is told by its kind and by whether it admits null, and another type of a name like
that of its nullable form is no value type. -/
theorem values_identical : ∀ s ∈ values, s.kind.isValue ∧ s.name ++ "?" ≠ any.name ∧ ∀ t ∈ values,
    s.identical t = (s.kind == t.kind && s.isNullable == t.isNullable) ∧
      s.identical t.underlying = (s.kind == t.kind && !s.isNullable) ∧
      (s.isNullable = false → s.name ++ "?" = t.name → s.kind = t.kind ∧ t.isNullable) := by
  decide +kernel

theorem Built.eq_any (h : t.Built) (hk : t.kind = .any) : t = .any := by
  rcases h.cases with h | h | h
  · exact h
  · have hv := (values_identical t h).1
    rw [hk] at hv
    cases hv
  · exact absurd hk h.1

theorem Built.mem_values (h : t.Built) (hv : t.kind.isValue) : t ∈ values := by
  rcases h.cases with rfl | h | h
  · cases hv
  · exact h
  · rw [hv] at h
    cases h.2

/-- The type has no nullable form, or is one. -/
def Idle (t : Ty) : Prop := t.kind.isValue = false ∨ t.isNullable

end Ty

/-- The value as a conversion from `s` to `t` leaves it: an integer becomes the float next to it
where `t` is a type of floats. -/
def Operand.widen (s t : Ty) : Operand → Operand
  | .value (.int n) =>
    if s.kind == .int && t.kind == .float then Value.float (Float.ofInt n.toInt) else Value.int n
  | v => v

theorem Operand.widen_eq {s t : Ty} (h : s.kind = .int → t.kind ≠ .float) : widen s t = id := by
  funext v
  unfold widen
  split
  · rw [if_neg (by simpa using h)]
    rfl
  · rfl

namespace Expr

variable {e e' : Expr} {t : Ty}

theorem Implicit.identical (h : Implicit e t e') : e'.type.identical t := by
  cases h with
  | same hid => exact hid
  | _ => exact t.identical_refl

theorem Implicit.eval (h : Implicit e t e') (s : Scope) (fr : Frame) :
    e'.eval s fr = (e.eval s fr).map (Operand.widen e.type t) := by
  have unchanged (hk : e.type.kind = .int → t.kind ≠ .float) :
      (e.eval s fr).map (Operand.widen e.type t) = e.eval s fr := by
    rw [Operand.widen_eq hk]
    cases e.eval s fr <;> rfl
  have boxed {k : Conversion} (hk : k = .box ∨ k = .lift) :
      (Expr.convert k e t).eval s fr = e.eval s fr := by
    rw [Expr.eval]
    rcases hk with rfl | rfl <;> cases e.eval s fr <;> rfl
  cases h with
  | same hid =>
    have hkind := (Ty.identical_iff.1 hid).2.1
    exact (unchanged fun hint hfloat => by rw [hint, hfloat] at hkind; cases hkind).symm
  | any hany =>
    rw [boxed (.inl rfl), unchanged fun _ hfloat => by rw [hany] at hfloat; cases hfloat]
  | null hnull =>
    cases e with
    | const v r =>
      cases v <;> first | rfl | cases hnull
    | _ => cases hnull
  | lift _ hid =>
    have hkind := (Ty.identical_iff.1 hid).2.1
    rw [Ty.kind_underlying] at hkind
    rw [boxed (.inr rfl), unchanged fun hint hfloat => by rw [hint, hfloat] at hkind; cases hkind]
  | numeric hint hfloat =>
    rw [Expr.eval]
    cases e.eval s fr with
    | error _ => rfl
    | ok v =>
      refine congrArg Except.ok ?_
      cases v with
      | func f => rfl
      | value v => cases v <;> simp [applyConversion, Operand.widen, hint, hfloat]
  | items _ _ heq =>
    rw [boxed (.inl rfl), unchanged fun _ hfloat => by rw [heq] at hfloat; cases hfloat]

/-- Between value types, an expression other than null converts by kind and by what the types
admit. -/
theorem implicit?_isSome_iff (hs : e.type ∈ Ty.values) (ht : t ∈ Ty.values)
    (he : e.isNullConst = false) : (e.implicit? t).isSome ↔
      (e.type.kind = t.kind ∨ e.type.kind = .int ∧ t.kind = .float) ∧
        (e.type.isNullable → t.isNullable) := by
  obtain ⟨hvalue, -, hidentical⟩ := Ty.values_identical e.type hs
  obtain ⟨hid, hunder, -⟩ := hidentical t ht
  have hvalue' := (Ty.values_identical t ht).1
  have hany : t.kind ≠ .any := fun h => by rw [h] at hvalue'; cases hvalue'
  have hlist : e.type.kind ≠ .list := fun h => by rw [h] at hvalue; cases hvalue
  have hlist' : t.kind ≠ .list := fun h => by rw [h] at hvalue'; cases hvalue'
  simp only [implicit?, hid, hunder, he]
  cases e.type.isNullable <;> cases t.isNullable <;> by_cases hk : e.type.kind = t.kind <;>
    simp [hk, hany, hlist, hlist']

/-- Apart from null and from boxing, only values and lists are converted. -/
theorem Implicit.kinds (h : Implicit e t e') (he : e.isNullConst = false) (ht : t.kind ≠ .any) :
    e.type.identical t ∨ (e.type.kind.isValue ∧ t.kind.isValue) ∨
      e.type.kind = .list ∧ ∃ elem p, t = .list elem p ∧ elem.kind = .any := by
  cases h with
  | same hid => exact .inl hid
  | any hany => exact absurd hany ht
  | null hnull => rw [he] at hnull; cases hnull
  | lift _ hid =>
    rcases t.underlying_eq_or_value with heq | hv
    · exact .inl (heq ▸ hid)
    · have hkind := (Ty.identical_iff.1 hid).2.1
      rw [Ty.kind_underlying] at hkind
      exact .inr (.inl ⟨hkind ▸ hv, hv⟩)
  | numeric hint hfloat => exact .inr (.inl ⟨by rw [hint]; rfl, by rw [hfloat]; rfl⟩)
  | items hlist hany heq => exact .inr (.inr ⟨hlist, _, _, heq, hany⟩)

end Expr

namespace Source

open Binder

variable {x y : Expr} {table : TypeTable} {t : Ty}

def direct? (x y : Expr) : Option (Ty × Expr × Expr) :=
  if x.type.identical y.type then some (x.type, x, y)
  else match if x.type.kind == .any then none else y.implicit? x.type with
    | some y' => some (x.type, x, y')
    | none => (if y.type.kind == .any then none else x.implicit? y.type).map (y.type, ·, y)

/-- Both expressions at the nullable form of a value type. -/
def lifted? (table : TypeTable) (x y : Expr) (t : Ty) : Option (Ty × Expr × Expr) :=
  if t.kind.isValue then
    match x.implicit? (table.nullable t).1, y.implicit? (table.nullable t).1 with
    | some x', some y' => some ((table.nullable t).1, x', y')
    | _, _ => none
  else none

def afterLift (table : TypeTable) (t : Ty) : TypeTable :=
  if t.kind.isValue then (table.nullable t).2 else table

theorem unify_run (x y : Expr) (σ : Session) : ∃ σ', (unify x y).run.run σ =
    (.ok ((direct? x y).or ((lifted? σ.table x y x.type).or
      (lifted? (afterLift σ.table x.type) x y y.type))), σ') := by
  have nullable (t : Ty) (σ : Session) : ∃ σ', σ'.table = afterLift σ.table t ∧ (do
      if !t.kind.isValue then return none
      let n ← construct (·.nullable t)
      match x.implicit? n, y.implicit? n with
      | some x', some y' => return some (n, x', y')
      | _, _ => return none : Binder (Option (Ty × Expr × Expr))).run.run σ =
        (.ok (lifted? σ.table x y t), σ') := by
    unfold lifted? afterLift
    cases t.kind.isValue with
    | false => exact ⟨σ, rfl, rfl⟩
    | true =>
      refine ⟨{ σ with table := (σ.table.nullable t).2 }, rfl, ?_⟩
      change (match x.implicit? (σ.table.nullable t).1, y.implicit? (σ.table.nullable t).1 with
        | some x', some y' => return some ((σ.table.nullable t).1, x', y')
        | _, _ => return none : Binder (Option (Ty × Expr × Expr))).run.run _ = _
      cases x.implicit? (σ.table.nullable t).1 <;> cases y.implicit? (σ.table.nullable t).1 <;> rfl
  unfold unify direct?
  simp only
  split
  · exact ⟨σ, rfl⟩
  cases if x.type.kind == .any then none else y.implicit? x.type with
  | some y' => exact ⟨σ, rfl⟩
  | none =>
    cases if y.type.kind == .any then none else x.implicit? y.type with
    | some x' => exact ⟨σ, rfl⟩
    | none =>
      obtain ⟨σ₁, htable, h₁⟩ := nullable x.type σ
      obtain ⟨σ₂, -, h₂⟩ := nullable y.type σ₁
      rw [htable] at h₂
      cases hr : lifted? σ.table x y x.type <;> rw [hr] at h₁
      · exact ⟨σ₂, (run_bind_ok h₁).trans h₂⟩
      · exact ⟨σ₁, run_bind_ok h₁⟩

/-- The results are the same up to the order of the expressions. -/
def Swapped (p q : Ty × Expr × Expr) : Prop :=
  p.1.identical q.1 ∧ p.2.1 = q.2.2 ∧ p.2.2 = q.2.1

theorem notNull (h : x.isNullConst → x.type = .any) (hk : x.type.kind ≠ .any) :
    x.isNullConst = false := by
  rw [← Bool.not_eq_true]
  exact fun hnull => hk (h hnull ▸ rfl)

theorem lifted?_swap (table : TypeTable) (x y : Expr) (t : Ty) :
    Option.Rel Swapped (lifted? table x y t) (lifted? table y x t) := by
  unfold lifted?
  split
  · cases x.implicit? (table.nullable t).1 <;> cases y.implicit? (table.nullable t).1 <;>
      first | exact .none | exact .some ⟨Ty.identical_refl _, rfl, rfl⟩
  · exact .none

theorem afterLift_idle (h : t.Idle) : afterLift table t = table := by
  rcases h with h | h <;> simp [afterLift, TypeTable.nullable, h]

theorem rel_none {r : Option (Ty × Expr × Expr)} (h : Option.Rel Swapped none r) : r = none := by
  cases h
  rfl

theorem afterLift_within (h : table.Within Ty.Built) : (afterLift table t).Within Ty.Built := by
  unfold afterLift TypeTable.nullable
  cases hnull : t.isNullable with
  | true => split <;> exact h
  | false =>
    split
    · exact (h.intern_named (t := .nullable t) hnull).2.2
    · exact h

section Symmetry

variable (hx : x.type.Built) (hy : y.type.Built) (hnx : x.isNullConst → x.type = .any)
  (hny : y.isNullConst → y.type = .any) (hid : x.type.identical y.type = false)

include hx hy hnx hny hid

/-- Two types that are not identical convert in one direction at most. -/
theorem implicit?_exclusive (hs : x.type.kind ≠ .any) (ht : y.type.kind ≠ .any) {x' y' : Expr}
    (hy' : y.implicit? x.type = some y') (hx' : x.implicit? y.type = some x') : False := by
  have hnull := notNull hnx hs
  have hnull' := notNull hny ht
  have hne : ¬ y.type.identical x.type := fun h => by simp [Ty.identical_symm h] at hid
  rcases ((Expr.implicit_of_some hy').kinds hnull' hs).resolve_left hne with
    ⟨hv', hv⟩ | ⟨hlist, e, p, heq, hany⟩
  · have hsmem := hx.mem_values hv
    have htmem := hy.mem_values hv'
    obtain ⟨hkind, hadmits⟩ := (Expr.implicit?_isSome_iff htmem hsmem hnull').1 (by rw [hy']; rfl)
    obtain ⟨hkind', hadmits'⟩ := (Expr.implicit?_isSome_iff hsmem htmem hnull).1 (by rw [hx']; rfl)
    have hsame : x.type.kind = y.type.kind := by
      rcases hkind with h | ⟨-, hfloat⟩
      · exact h.symm
      · rcases hkind' with h | ⟨hint, -⟩
        · exact h
        · rw [hint] at hfloat; cases hfloat
    have hadmit : x.type.isNullable = y.type.isNullable := Bool.eq_iff_iff.2 ⟨hadmits', hadmits⟩
    rw [((Ty.values_identical _ hsmem).2.2 _ htmem).1, hsame, hadmit] at hid
    simp at hid
  · -- Both are types of lists of anything.
    rcases ((Expr.implicit_of_some hx').kinds hnull ht).resolve_left (by simp [hid]) with
      ⟨-, hv⟩ | ⟨-, e', p', heq', hany'⟩
    · rw [hlist] at hv; cases hv
    · rw [heq] at hx hid
      rw [heq'] at hy hid
      obtain rfl := Ty.Built.eq_any (t := e) hx hany
      obtain rfl := Ty.Built.eq_any (t := e') hy hany'
      cases hid

theorem direct?_swap : Option.Rel Swapped (direct? x y) (direct? y x) := by
  have hid' : y.type.identical x.type = false := by
    rw [← Bool.not_eq_true]
    exact fun h => by simp [Ty.identical_symm h] at hid
  have hexclusive : ∀ x' y', (if x.type.kind == .any then none else y.implicit? x.type) = some y' →
      (if y.type.kind == .any then none else x.implicit? y.type) = some x' → False := by
    intro x' y' hy' hx'
    split at hy'
    · cases hy'
    split at hx'
    · cases hx'
    rename_i hs ht
    exact implicit?_exclusive hx hy hnx hny hid (by simpa using hs) (by simpa using ht) hy' hx'
  simp only [direct?, hid, hid']
  generalize (if x.type.kind == .any then none else y.implicit? x.type) = a at hexclusive
  generalize (if y.type.kind == .any then none else x.implicit? y.type) = b at hexclusive
  cases a <;> cases b
  · exact .none
  · exact .some ⟨Ty.identical_refl _, rfl, rfl⟩
  · exact .some ⟨Ty.identical_refl _, rfl, rfl⟩
  · exact (hexclusive _ _ rfl rfl).elim

omit hy hny hid in
/-- The nullable form to which an expression of a value type converts is that of its own type. -/
theorem nullable_values (hv : x.type.kind.isValue) (htable : table.Within Ty.Built)
    {x' : Expr} (hx' : x.implicit? (table.nullable x.type).1 = some x') :
    (table.nullable x.type).1 ∈ Ty.values ∧ (table.nullable x.type).1.kind = x.type.kind ∧
      (table.nullable x.type).1.isNullable := by
  have hmem := hx.mem_values hv
  obtain ⟨-, hany, hnamed⟩ := Ty.values_identical _ hmem
  have hkind : x.type.kind ≠ .any := fun h => by rw [h] at hv; cases hv
  rw [TypeTable.nullable] at hx' ⊢
  cases hnull : x.type.isNullable with
  | true => exact ⟨hmem, rfl, hnull⟩
  | false =>
    rw [hnull] at hx'
    simp only [Bool.false_eq_true, if_false] at hx' ⊢
    obtain ⟨hname, hbuilt, -⟩ := htable.intern_named (t := .nullable x.type) hnull
    generalize (table.intern (.nullable x.type)).1 = n at hx' hname hbuilt ⊢
    have hn : n.kind ≠ .any := fun h => hany (by rw [← Ty.Built.eq_any hbuilt h, hname]; rfl)
    have hvalue : n.kind.isValue := by
      rcases (Expr.implicit_of_some hx').kinds (notNull hnx hkind) hn with h | h | h
      · exact (Ty.identical_iff.1 h).2.1 ▸ hv
      · exact h.2
      · rw [h.1] at hv
        cases hv
    have hmem' := hbuilt.mem_values hvalue
    obtain ⟨hk, hadmits⟩ := (hnamed n hmem').2.2 hnull hname.symm
    exact ⟨hmem', hk.symm, hadmits⟩

/-- Between value types that do not convert, the nullable form of one is a common type only of
floats and of integers that may be null. -/
theorem lifted?_values (hv : x.type.kind.isValue) (hv' : y.type.kind.isValue)
    (hnone : direct? x y = none) (htable : table.Within Ty.Built)
    (hsome : lifted? table x y x.type ≠ none) : x.type.isNullable = false ∧
      y.type.isNullable ∧ x.type.kind = .float ∧ y.type.kind = .int := by
  have hs : x.type.kind ≠ .any := fun h => by rw [h] at hv; cases hv
  have ht : y.type.kind ≠ .any := fun h => by rw [h] at hv'; cases hv'
  have hmem := hx.mem_values hv
  have hmem' := hy.mem_values hv'
  rw [lifted?, if_pos hv] at hsome
  cases hx' : x.implicit? (table.nullable x.type).1 with
  | none => simp [hx'] at hsome
  | some x' =>
  cases hy' : y.implicit? (table.nullable x.type).1 with
  | none => simp [hx', hy'] at hsome
  | some y' =>
    obtain ⟨hn, hkind, hadmits⟩ := nullable_values hx hnx hv htable hx'
    have hto := (Expr.implicit?_isSome_iff hmem' hn (notNull hny ht)).1 (by rw [hy']; rfl)
    rw [hkind] at hto
    have hback : ¬ (y.implicit? x.type).isSome := fun h => by
      obtain ⟨y'', h⟩ := Option.isSome_iff_exists.1 h
      simp [direct?, hid, hs, h] at hnone
    have hforth : ¬ (x.implicit? y.type).isSome := fun h => by
      obtain ⟨x'', h⟩ := Option.isSome_iff_exists.1 h
      rw [Option.not_isSome_iff_eq_none] at hback
      simp [direct?, hid, hs, ht, hback, h] at hnone
    rw [Expr.implicit?_isSome_iff hmem' hmem (notNull hny ht)] at hback
    rw [Expr.implicit?_isSome_iff hmem hmem' (notNull hnx hs)] at hforth
    grind

/-- The nullable form of a type is of no use if there is none, if it is the type itself, or if both
types have values and do not admit null. -/
theorem lifted?_eq_none (hnone : direct? x y = none) (htable : table.Within Ty.Built)
    (h : x.type.Idle ∨ ¬ y.type.Idle) : lifted? table x y x.type = none := by
  by_contra hsome
  cases hv : x.type.kind.isValue with
  | false => simp [lifted?, hv] at hsome
  | true =>
    rcases h with (h | hnull) | h
    · rw [hv] at h
      cases h
    · have hs : x.type.kind ≠ .any := fun h => by rw [h] at hv; cases hv
      have hback : y.implicit? x.type = none := by
        cases hy' : y.implicit? x.type with
        | none => rfl
        | some y' => simp [direct?, hid, hs, hy'] at hnone
      simp [lifted?, TypeTable.nullable, hnull, hback] at hsome
    · obtain ⟨hv', hnull⟩ := not_or.1 h
      exact hnull (lifted?_values hx hy hnx hny hid hv (by simpa using hv') hnone htable hsome).2.1

theorem lifts_swap (hnone : direct? x y = none) (htable : table.Within Ty.Built) :
    Option.Rel Swapped
      ((lifted? table x y x.type).or (lifted? (afterLift table x.type) x y y.type))
      ((lifted? table y x y.type).or (lifted? (afterLift table y.type) y x x.type)) := by
  have hid' : y.type.identical x.type = false := by
    rw [← Bool.not_eq_true]
    exact fun h => by simp [Ty.identical_symm h] at hid
  have hnone' : direct? y x = none := rel_none (hnone ▸ direct?_swap hx hy hnx hny hid)
  have first {table : TypeTable} (h : table.Within Ty.Built) (hidle : x.type.Idle ∨ ¬ y.type.Idle) :
      lifted? table x y x.type = none ∧ lifted? table y x x.type = none :=
    have heq := lifted?_eq_none hx hy hnx hny hid hnone h hidle
    ⟨heq, rel_none (heq ▸ lifted?_swap table x y x.type)⟩
  have second {table : TypeTable} (h : table.Within Ty.Built)
      (hidle : y.type.Idle ∨ ¬ x.type.Idle) :
      lifted? table x y y.type = none ∧ lifted? table y x y.type = none :=
    have heq := lifted?_eq_none hy hx hny hnx hid' hnone' h hidle
    ⟨rel_none (heq ▸ lifted?_swap table y x y.type), heq⟩
  have hafter : ∀ t, (afterLift table t).Within Ty.Built := fun t => afterLift_within htable
  by_cases hidle : y.type.Idle
  · rw [(second htable (.inl hidle)).2, (second (hafter _) (.inl hidle)).1, afterLift_idle hidle,
      Option.or_none, Option.none_or]
    exact lifted?_swap table x y x.type
  by_cases hidle' : x.type.Idle
  · rw [(first htable (.inl hidle')).1, (first (hafter _) (.inl hidle')).2, afterLift_idle hidle',
      Option.or_none, Option.none_or]
    exact lifted?_swap table x y y.type
  · rw [(first htable (.inr hidle)).1, (first (hafter _) (.inr hidle)).2,
      (second htable (.inr hidle')).2, (second (hafter _) (.inr hidle')).1]
    exact .none

end Symmetry

theorem direct?_implicit {x' y' : Expr} (h : direct? x y = some (t, x', y')) :
    x.Implicit t x' ∧ y.Implicit t y' := by
  unfold direct? at h
  split at h
  · rename_i hid
    cases h
    exact ⟨.same (Ty.identical_refl _), .same (Ty.identical_symm hid)⟩
  split at h
  · rename_i hy'
    cases h
    split at hy'
    · cases hy'
    · exact ⟨.same (Ty.identical_refl _), Expr.implicit_of_some hy'⟩
  · obtain ⟨x'', hx', heq⟩ := Option.map_eq_some_iff.1 h
    cases heq
    split at hx'
    · cases hx'
    · exact ⟨Expr.implicit_of_some hx', .same (Ty.identical_refl _)⟩

theorem lifted?_implicit {s : Ty} {x' y' : Expr} (h : lifted? table x y s = some (t, x', y')) :
    x.Implicit t x' ∧ y.Implicit t y' := by
  unfold lifted? at h
  split at h
  · split at h
    · rename_i hx' hy'
      cases h
      exact ⟨Expr.implicit_of_some hx', Expr.implicit_of_some hy'⟩
    · cases h
  · cases h

/-- Two expressions have a common type or have none, in whatever order they are taken, and the
results differ in the order of the expressions alone. Each expression of the result is of the common
type and has the value of the one that it stands for, where an integer becomes a float if the common
type is one of floats. The float is the integer rounded to 53 binary places, so it is the integer
itself up to a size of `2 ^ 53`. -/
theorem unify_sound {x y : Expr} (hx : x.type.Built) (hy : y.type.Built)
    (hnx : x.isNullConst → x.type = .any) (hny : y.isNullConst → y.type = .any)
    {σ : Session} (hσ : σ.table.Within Ty.Built) :
    (∃ r r' σ₁ σ₂, (unify x y).run.run σ = (.ok r, σ₁) ∧ (unify y x).run.run σ = (.ok r', σ₂) ∧
      Option.Rel Swapped r r' ∧
      ∀ t x' y', r = some (t, x', y') →
        (x'.type.identical t ∧ y'.type.identical t) ∧ ∀ s fr,
          x'.eval s fr = (x.eval s fr).map (Operand.widen x.type t) ∧
            y'.eval s fr = (y.eval s fr).map (Operand.widen y.type t)) ∧
    ∀ n : Int64, Rounding.number? (Float.ofInt n.toInt) = some (Rounding.rounded n.toInt : ℚ) ∧
      (n.toInt.natAbs ≤ 2 ^ 53 → Rounding.rounded n.toInt = n.toInt) := by
  obtain ⟨σ₁, h₁⟩ := unify_run x y σ
  obtain ⟨σ₂, h₂⟩ := unify_run y x σ
  refine ⟨⟨_, _, σ₁, σ₂, h₁, h₂, ?_, ?_⟩, fun n => ?_⟩
  · cases hid : x.type.identical y.type with
    | true =>
      have hid' := Ty.identical_symm hid
      simp only [direct?, hid, hid', if_true, Option.some_or]
      exact .some ⟨hid, rfl, rfl⟩
    | false =>
      have hdirect := direct?_swap hx hy hnx hny hid
      cases hxy : direct? x y with
      | none =>
        have hyx : direct? y x = none := rel_none (hxy ▸ hdirect)
        rw [hyx, Option.none_or, Option.none_or]
        exact lifts_swap hx hy hnx hny hid hxy hσ
      | some r =>
        rw [hxy] at hdirect
        cases hyx : direct? y x with
        | none => rw [hyx] at hdirect; cases hdirect
        | some r' => rwa [hyx] at hdirect
  · intro t x' y' hr
    have himplicit : x.Implicit t x' ∧ y.Implicit t y' := by
      rcases Option.or_eq_some_iff.1 hr with h | ⟨-, hr⟩
      · exact direct?_implicit h
      rcases Option.or_eq_some_iff.1 hr with h | ⟨-, h⟩ <;> exact lifted?_implicit h
    obtain ⟨hx', hy'⟩ := himplicit
    exact ⟨⟨hx'.identical, hy'.identical⟩, fun s fr => ⟨hx'.eval s fr, hy'.eval s fr⟩⟩
  · exact ⟨Rounding.number?_ofInt (Value.natAbs_toInt_lt n), Rounding.rounded_of_le⟩

/-- A variable of integers or null, and a float. -/
theorem unify_sound_orNull : let x : Expr := .var { id := 0, name := "n", type := .nullable .int }
    let y : Expr := .const (.float 0.5) .float
    ∃ t x' y' r' σ₁ σ₂, (unify x y).run.run {} = (.ok (some (t, x', y')), σ₁) ∧
      (unify y x).run.run {} = (.ok r', σ₂) ∧ Option.Rel Swapped (some (t, x', y')) r' ∧
      ∀ s fr, x'.eval s fr = (x.eval s fr).map (Operand.widen x.type t) := by
  intro x y
  have htable : ({} : Session).table.Within Ty.Built := nofun
  obtain ⟨⟨r, r', σ₁, σ₂, h₁, h₂, hswap, hvalue⟩, -⟩ :=
    unify_sound (x := x) (y := y) rfl trivial nofun nofun htable
  have hr : ∃ t x' y', r = some (t, x', y') :=
    ⟨_, _, _, (Except.ok.inj (congrArg Prod.fst h₁)).symm⟩
  obtain ⟨t, x', y', rfl⟩ := hr
  exact ⟨t, x', y', r', σ₁, σ₂, h₁, h₂, hswap, fun s fr => ((hvalue t x' y' rfl).2 s fr).1⟩

/-- An integer of 54 places beside a float becomes a float of another value. -/
theorem unify_rounds : let x : Expr := .const (.int 9007199254740993) .int
    let y : Expr := .const (.float 0.5) .float
    ∃ x' y' σ, (unify x y).run.run {} = (.ok (some (.float, x', y')), σ) ∧
      ∀ s fr, ∃ f, x'.eval s fr = .ok (.value (.float f)) ∧
        Rounding.number? f ≠ some 9007199254740993 := by
  refine ⟨_, _, _, rfl, fun s fr => ⟨_, rfl, ?_⟩⟩
  have hrounded : Rounding.rounded (9007199254740993 : Int64).toInt = 9007199254740992 := by decide
  rw [Rounding.number?_ofInt (Value.natAbs_toInt_lt _), hrounded]
  norm_num

end Source

end Bindery
