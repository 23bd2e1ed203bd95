import Bindery.Proofs.BinderRules

/-!
# What binding establishes

An expression that `Source.bind` makes out of a syntax tree is well typed
(`Source.bind_wellTyped`).
-/

namespace Bindery.Source

variable {u : Universe}

theorem implicit_typed (s : Scope) (ctx : List Local) (hn : u.WellNamed) {e e' : Expr} {t : Ty}
    (he : e.type.Formed u) (ht : t.Formed u) (h : e.implicit? t = some e') :
    e'.type = t ∧ (e.WellTyped u s ctx → e'.WellTyped u s ctx) := by
  obtain ⟨rfl, heq⟩ | ⟨rfl, -, hnull⟩ | ⟨k, rfl, hk⟩ := Expr.implicit_cases hn he ht h
  · exact ⟨heq, id⟩
  · exact ⟨rfl, fun _ => ⟨.null hnull, ht⟩⟩
  · exact ⟨rfl, fun hw => ⟨hw, hk⟩⟩

theorem eq_list_of_kind {t e : Ty} (ht : t.Formed u) (hkind : t.kind = .list)
    (he : t.elem? = some e) : ∃ p, t = .list e p := by
  cases t with
  | list e' p => exact ⟨p, by rw [Option.some.inj he]⟩
  | nullable t =>
    -- A list is nullable as it is.
    cases t with
    | list | nullable => exact absurd ht.2 (by simp [Ty.isNullable])
    | basic b => cases b <;> cases hkind
    | declared d => simp only [Ty.kind] at hkind; split at hkind <;> cases hkind
    | func => cases hkind
  | _ => cases he

theorem wellTypedAll_of_forall₂ {s : Scope} {ctx : List Local} {xs : List Expr} {ts : List Ty}
    (h : List.Forall₂ (fun x t => x.WellTyped u s ctx ∧ x.type = t) xs ts) :
    Expr.WellTypedAll u s ctx xs ∧ xs.map Expr.type = ts := by
  induction h with
  | nil => exact ⟨trivial, rfl⟩
  | cons hx _ ih => exact ⟨⟨hx.1, ih.1⟩, by rw [List.map_cons, hx.2, ih.2]⟩

theorem wellTypedAll_of_forall {s : Scope} {ctx : List Local} {xs : List Expr}
    (h : ∀ x ∈ xs, x.WellTyped u s ctx) : Expr.WellTypedAll u s ctx xs := by
  induction xs with
  | nil => trivial
  | cons x xs ih =>
    obtain ⟨hx, hxs⟩ := List.forall_mem_cons.1 h
    exact ⟨hx, ih hxs⟩

/-- Expressions are well typed with the types of a universe. -/
def Rules.wellTyped (u : Universe) : Rules where
  sessions s s' := s = s' ∧ s.table.Formed u
  clean := False
  error _ := True
  types := Ty.Formed u
  same s t := s = t
  classes v := v = u
  scope := Scope.Formed u
  typed names e := e.WellTyped u names.scope names.locals

theorem Rules.wellTyped_lawful (hn : u.WellNamed) (hu : u.Sound) : (wellTyped u).Lawful where
  next h := h.1 ▸ rfl
  fresh h := h.1 ▸ ⟨rfl, h.2⟩
  nullable {t} ht := by
    rintro s _ ⟨rfl, hs⟩
    obtain ⟨heq, htable⟩ := TypeTable.Within.nullable hs hn.realm.unique (hn.realm.nullable ht)
    refine ⟨rfl, ?_, rfl, htable⟩
    rw [heq]
    cases h : t.isNullable with
    | true => exact ht
    | false => exact ⟨ht, h⟩
  listOf {t} ht := by
    rintro s _ ⟨rfl, hs⟩
    obtain ⟨heq, htable⟩ := TypeTable.Within.listOf hs hn.realm.unique (hn.realm.predicate ht)
      (hn.realm.list ht)
    refine ⟨rfl, fun {names xs} hxs => ?_, rfl, htable⟩
    rw [heq]
    exact ⟨wellTypedAll_of_forall fun x hx => (hxs x hx).1, ⟨ht, rfl⟩, t, _, rfl,
      fun x hx => (hxs x hx).2⟩
  fault _ _ _ := trivial
  basic _ := trivial
  name _ := False.elim
  func ht := ⟨Ty.formedAll_iff.1 ht.1, ht.2⟩
  underlying ht := ht.underlying
  named hu := hu ▸ hn.formed
  refl _ := rfl
  identical hs ht h := (hs.eq_of_identical hn ht h).symm
  implicit names := implicit_typed names.scope names.locals hn
  int _ := ⟨.int _, trivial⟩
  float _ := ⟨.float _, trivial⟩
  text _ := ⟨.text _, trivial⟩
  bool _ := ⟨.bool _, trivial⟩
  null := ⟨.null rfl, trivial⟩
  ofText _ := False.elim
  typeRef ht := ht
  type h he := he.formed hu h.scope fun l hl => (h.locals l hl).2.1
  var h hl := ⟨hl, (h.locals _ hl).2.2.2⟩
  context _ hs _ := ⟨_, hs⟩
  param _ hs hp _ := ⟨⟨_, hs⟩, hp⟩
  member h hx hf := ⟨hx.1, hx.2, _, h.classes ▸ hf⟩
  index h hx hk hint hkind he := ⟨hx.1, hx.2, hk, hint, eq_list_of_kind
    (hx.1.formed hu h.scope fun l hl => (h.locals l hl).2.1) hkind he⟩
  params h ht hm := Ty.formedAll_iff.1 (Ty.overloads_sound hu ht (h.classes ▸ hm)).2.1
  call h hx hm hstatic hargs :=
    have hargs := wellTypedAll_of_forall₂ hargs
    ⟨hx.1, hx.2, hstatic, ⟨_, _, h.classes ▸ hm⟩, hargs.1, hargs.2⟩
  callStatic h ht hm hstatic hargs :=
    have hargs := wellTypedAll_of_forall₂ hargs
    ⟨hstatic, ⟨_, _, _, ht, h.classes ▸ hm⟩, hargs.1, hargs.2⟩
  unary {names x} op hx := by
    cases h : Expr.newUnary op x with
    | error e => exact False.elim
    | ok e =>
      obtain ⟨rfl, hdefined⟩ := newUnary_ok h
      exact ⟨hx, hdefined⟩
  binary {names x y} op hx hy := by
    cases h : Expr.newBinary op x y with
    | error e => exact False.elim
    | ok e =>
      obtain ⟨t, rfl, ht⟩ := newBinary_ok h
      exact ⟨hx, hy, ht⟩
  cond hc ha hb _ hat hbt := ⟨hc, ha, hb, hat, hbt⟩
  lambda h ht hnodup hls hb hr := ⟨by rw [hr], ht, hnodup, fun l hl l' hl' heq => by
    have := (hls l hl).1
    have := (h.locals l' hl').1
    omega, hb⟩

theorem bind_wellTyped (hn : u.WellNamed) (hu : u.Sound) {src : Text} {scope : Scope}
    (hs : scope.Formed u) {t : Tree} {session session' : Session} (htable : session.table.Formed u)
    {e : Expr} (h : (bind { src, scope, types := u } t).run.run session = (.ok e, session')) :
    e.WellTyped u scope [] := by
  have hknows : (Rules.wellTyped u).Knows session.nextLocal { src, scope, types := u } :=
    ⟨False.elim, rfl, hs, by simp⟩
  obtain ⟨r, _, _, hrun, -, -, -, hr⟩ := bind_holds (Rules.wellTyped_lawful hn hu) t
    False.elim hknows session session ⟨rfl, htable⟩ (Nat.le_refl _)
  cases hrun.symm.trans h
  exact hr.1

end Bindery.Source
