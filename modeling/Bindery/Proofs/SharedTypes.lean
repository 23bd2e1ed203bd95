import Bindery.Proofs.BinderRules

/-!
# Binding with shared types

Constructed types are kept in a table that all bindings share, and the table answers by name. Among
types that can be told apart by name (`Ty.Realm`), nothing of that shows: what a source is bound to
does not depend on the types that were constructed before (`Source.expression_determined`).
-/

namespace Bindery

def Method.Within (T : Ty → Prop) (m : Method) : Prop := (∀ p ∈ m.params, T p) ∧ T m.result

/-- The named types are in the set, and so are the types of the members of its classes. -/
structure Universe.Within (T : Ty → Prop) (u : Universe) : Prop where
  named : ∀ e ∈ u.named, T e.2
  fields : ∀ d, T (.declared d) → ∀ f ∈ (u.catalog.find d).fields, T f.type
  methods : ∀ d, T (.declared d) → ∀ m ∈ (u.catalog.find d).methods, m.Within T

/-- The members of sound classes have types that are built from the classes. -/
theorem Universe.Sound.within {u : Universe} (hs : u.Sound) (hn : u.WellNamed) :
    u.Within (Ty.Formed u) where
  named := hn.formed
  fields _ hd := (hs.declaration hd).fieldType
  methods _ hd m hm :=
    have h := (hs.declaration hd).methodType m hm
    ⟨Ty.formedAll_iff.1 h.1, h.2⟩

def Scope.Within (T : Ty → Prop) (s : Scope) : Prop :=
  ∀ l ∈ s.levels, T l.dataType ∧ ∀ p ∈ l.params, T p.type

theorem Scope.Within.ancestor {T : Ty → Prop} {s s' : Scope} (h : s.Within T) {k : Nat}
    (hs : s.ancestor? k = some s') : T s'.dataType ∧ ∀ p ∈ s'.level.params, T p.type :=
  h _ (List.mem_of_getElem? (Scope.ancestor_level hs))

/-! ## Types of members and operations -/

namespace Ty

variable {T : Ty → Prop} {u : Universe} {t : Ty}

theorem Realm.underlying (hT : Realm T) (ht : T t) : T t.underlying := by
  cases t with
  | nullable t =>
    rw [Ty.underlying]
    split
    · exact hT.ofNullable ht
    · exact ht
  | _ => exact ht

theorem Realm.elem (hT : Realm T) (ht : T t) {e : Ty} (he : t.elem? = some e) : T e := by
  cases t with
  | list e' p => exact Option.some.inj he ▸ (hT.ofList ht).1
  | nullable t => exact Option.some.inj he ▸ hT.ofNullable ht
  | _ => cases he

theorem field_within (hT : Realm T) (hu : u.Within T) (ht : T t) {name : Text} {f : Field}
    (hf : t.field? u.catalog name = some f) : T f.type := by
  have hmem := List.mem_of_find?_eq_some hf
  have ht' := hT.underlying ht
  cases h : t.underlying with
  | basic b =>
    rw [h] at hmem
    cases b with
    | string =>
      obtain rfl := List.mem_singleton.1 hmem
      exact hT.basic _
    | _ => cases hmem
  | list e p =>
    rw [h] at hmem
    obtain rfl := List.mem_singleton.1 hmem
    exact hT.basic _
  | declared d =>
    rw [h] at hmem ht'
    exact hu.fields d ht' f hmem
  | _ => rw [h] at hmem; cases hmem

theorem anyMethods_within (hT : Realm T) {m : Method} (hm : m ∈ Method.anyMethods) :
    m.Within T := by
  obtain rfl := List.mem_singleton.1 hm
  exact ⟨nofun, hT.basic _⟩

theorem ownMethods_within (hT : Realm T) (hu : u.Within T) (ht : T t) {m : Method}
    (hm : m ∈ t.ownMethods u.catalog) : m.Within T := by
  have single {p r : Ty} (hp : T p) (hr : T r) : (∀ q ∈ [p], T q) ∧ T r :=
    ⟨fun q hq => List.mem_singleton.1 hq ▸ hp, hr⟩
  cases t with
  | basic b =>
    cases b with
    | any => exact anyMethods_within hT hm
    | string =>
      have hs := single (hT.basic .string) (hT.basic .bool)
      have hn : (∀ q ∈ ([] : List Ty), T q) ∧ T .string := ⟨nofun, hT.basic _⟩
      simp only [ownMethods, Method.stringMethods, List.mem_cons, List.not_mem_nil, or_false] at hm
      rcases hm with rfl | rfl | rfl | rfl | rfl | rfl | rfl | rfl <;> first | exact hs | exact hn
    | _ => cases hm
  | declared d => exact hu.methods d ht m hm
  | list e p =>
    obtain ⟨he, hp⟩ := hT.ofList ht
    simp only [ownMethods, Method.listMethods, List.mem_cons, List.not_mem_nil, or_false] at hm
    rcases hm with rfl | rfl | rfl | rfl
    · exact single hp (hT.basic _)
    · exact single hp (hT.basic _)
    · exact single hp ht
    · exact single he (hT.basic _)
  | _ => cases hm

theorem overloads_within (hT : Realm T) (hu : u.Within T) (ht : T t) {name : Text} {arity : Nat}
    {m : Method} (hm : m ∈ t.overloads u.catalog name arity) : m.Within T := by
  obtain hm | hm := (mem_overloads hm).1
  · exact ownMethods_within hT hu (hT.underlying ht) hm
  · exact anyMethods_within hT hm

end Ty

namespace Expr

variable {T : Ty → Prop} {x y e : Expr} {t : Ty}

theorem implicit_within (hx : T x.type) (ht : T t) (h : x.implicit? t = some e) : T e.type := by
  cases implicit_of_some h with
  | same => exact hx
  | _ => exact ht

end Expr

/-! ## Steps of the binder -/

namespace Source

variable {T : Ty → Prop}

/-- Expressions have types of the set, and nothing depends on the constructed types. -/
def Rules.within (T : Ty → Prop) : Rules where
  sessions s s' := s.table.Within T ∧ s'.table.Within T ∧ s.nextLocal = s'.nextLocal
  clean := False
  error _ := True
  types := T
  same _ _ := True
  classes := Universe.Within T
  scope := Scope.Within T
  typed _ e := T e.type

theorem Rules.within_lawful (hT : Ty.Realm T) : (within T).Lawful where
  next h := h.2.2
  fresh h := ⟨h.1, h.2.1, congrArg (· + 1) h.2.2⟩
  nullable {t} ht s s' h := by
    obtain ⟨heq, hs⟩ := h.1.nullable hT.unique (hT.nullable ht)
    obtain ⟨heq', hs'⟩ := h.2.1.nullable hT.unique (hT.nullable ht)
    refine ⟨heq.trans heq'.symm, ?_, hs, hs', h.2.2⟩
    rw [heq]
    cases hnull : t.isNullable with
    | true => exact ht
    | false => exact hT.nullable ht hnull
  listOf ht s s' h := by
    obtain ⟨heq, hs⟩ := h.1.listOf hT.unique (hT.predicate ht) (hT.list ht)
    obtain ⟨heq', hs'⟩ := h.2.1.listOf hT.unique (hT.predicate ht) (hT.list ht)
    refine ⟨heq.trans heq'.symm, fun _ => ?_, hs, hs', h.2.2⟩
    rw [heq]
    exact hT.list ht
  fault _ _ _ := trivial
  basic := hT.basic
  name _ := False.elim
  func := hT.ofFunc
  underlying := hT.underlying
  named hu := hu.named
  refl _ := trivial
  identical _ _ _ := trivial
  implicit _ := fun hx ht h => ⟨trivial, fun _ => Expr.implicit_within hx ht h⟩
  int _ := hT.basic _
  float _ := hT.basic _
  text _ := hT.basic _
  bool _ := hT.basic _
  null := hT.basic _
  ofText _ := False.elim
  typeRef ht := ht
  type _ he := he
  var h hl := (h.locals _ hl).2.1
  context h hs _ := (h.scope.ancestor hs).1
  param h hs hp _ := (h.scope.ancestor hs).2 _ hp
  member h hx hf := Ty.field_within hT h.classes hx.1 hf
  index _ hx _ _ _ he := hT.elem hx.1 he
  params h ht hm := (Ty.overloads_within hT h.classes ht hm).1
  call h hx hm _ _ := (Ty.overloads_within hT h.classes hx.1 hm).2
  callStatic h ht hm _ _ := (Ty.overloads_within hT h.classes ht hm).2
  unary {names x} op hx := by
    cases h : Expr.newUnary op x with
    | error e => exact False.elim
    | ok e =>
      obtain ⟨rfl, -⟩ := newUnary_ok h
      exact hx
  binary {names x y} op hx hy := by
    cases h : Expr.newBinary op x y with
    | error e => exact False.elim
    | ok e =>
      obtain ⟨t, rfl, ht⟩ := newBinary_ok h
      exact Expr.binaryType_mem hT.basic (fun b => hT.nullable (hT.basic b)) hx hy ht
  cond _ _ _ ht _ _ := ht
  lambda _ ht _ _ _ _ := ht

/-- What a source is bound to does not depend on the constructed types so far, nor on the variables
that were numbered before. -/
theorem expression_determined (hT : Ty.Realm T) {u : Universe} (hu : u.Within T) {scope : Scope}
    (hscope : scope.Within T) (src : Text) {s s' : Session} (hs : s.table.Within T)
    (hs' : s'.table.Within T) : ∃ r t t', (expression src scope u).run.run s = (r, t) ∧
      (expression src scope u).run.run s' = (r, t') ∧ t.table.Within T ∧ t'.table.Within T := by
  unfold expression
  split
  · exact ⟨_, s, s', rfl, rfl, hs, hs'⟩
  · rename_i tree _
    have hknows : (Rules.within T).Knows 0 { src, scope, types := u } :=
      ⟨False.elim, hu, hscope, nofun⟩
    obtain ⟨r, t, t', hrun, hrun', ⟨ht, ht', -⟩, -⟩ := bind_holds (Rules.within_lawful hT) tree
      False.elim hknows { s with nextLocal := 0 } { s' with nextLocal := 0 } ⟨hs, hs', rfl⟩
      (Nat.le_refl 0)
    exact ⟨r, t, t', hrun, hrun', ht, ht'⟩

end Source

end Bindery
