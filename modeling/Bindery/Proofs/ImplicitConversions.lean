import Bindery.Expr.Convert

/-!
# Implicit conversions

`Expr.Implicit` lists the forms that `Expr.implicit?` gives an expression, each with the condition
under which it does.
-/

namespace Bindery

namespace Ty

variable {s t : Ty}

theorem identical_iff : s.identical t ↔
    s.name = t.name ∧ s.kind = t.kind ∧ s.isNullable = t.isNullable := by
  simp [identical, and_assoc]

theorem identical_refl (t : Ty) : t.identical t := identical_iff.2 ⟨rfl, rfl, rfl⟩

theorem identical_symm (h : s.identical t) : t.identical s :=
  have ⟨hname, hkind, hnull⟩ := identical_iff.1 h
  identical_iff.2 ⟨hname.symm, hkind.symm, hnull.symm⟩

theorem kind_underlying (t : Ty) : t.underlying.kind = t.kind := by
  cases t with
  | nullable t =>
    rw [underlying]
    split <;> rfl
  | _ => rfl

theorem underlying_eq_or_value (t : Ty) : t.underlying = t ∨ t.kind.isValue := by
  cases t with
  | nullable t =>
    cases h : t.kind.isValue with
    | true => exact .inr h
    | false => exact .inl (by rw [underlying, h]; rfl)
  | _ => exact .inl rfl

end Ty

namespace Expr

inductive Implicit (e : Expr) (t : Ty) : Expr → Prop
  | same : e.type.identical t → Implicit e t e
  | any : t.kind = .any → Implicit e t (.convert .box e t)
  | null : e.isNullConst → t.isNullable → Implicit e t (.const .null t)
  | lift : t.isNullable → e.type.identical t.underlying →
    Implicit e t (.convert .lift e t)
  | numeric : e.type.kind = .int → t.kind = .float →
    (t.isNullable || !e.type.isNullable) → Implicit e t (.convert .numeric e t)
  | items {elem p : Ty} : e.type.kind = .list → elem.kind = .any → t = .list elem p →
    Implicit e t (.convert .box e t)

theorem implicit_of_some {e e' : Expr} {t : Ty} (h : e.implicit? t = some e') :
    Implicit e t e' := by
  unfold implicit? at h
  simp only at h
  split at h
  · exact Option.some.inj h ▸ .same ‹_›
  split at h
  · exact Option.some.inj h ▸ .any (eq_of_beq ‹_›)
  split at h
  · split at h
    · exact Option.some.inj h ▸ .null ‹_› ‹_›
    · cases h
  split at h
  · rename_i hlift
    obtain ⟨hnull, hid⟩ := Bool.and_eq_true_iff.1 hlift
    exact Option.some.inj h ▸ .lift hnull hid
  split at h
  · rename_i hnum
    simp only [Bool.and_eq_true, beq_iff_eq] at hnum
    exact Option.some.inj h ▸ .numeric hnum.1.1 hnum.1.2 hnum.2
  split at h
  · rename_i hlist
    obtain ⟨hkind, hboxes⟩ := Bool.and_eq_true_iff.1 hlist
    cases t with
    | list elem p => exact Option.some.inj h ▸ .items (eq_of_beq hkind) (eq_of_beq hboxes) rfl
    | _ => cases hboxes
  · cases h

end Expr

end Bindery
