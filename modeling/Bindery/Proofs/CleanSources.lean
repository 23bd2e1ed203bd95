import Bindery.Proofs.CleanExpressions

/-!
# Clean sources

A source is clean if it is UTF-8 and so are the names and texts that its syntax tree holds. What
is bound to it is then clean, and so is the error if it cannot be bound
(`Source.expression_clean`).
-/

namespace Bindery

def TypeTable.Clean (table : TypeTable) : Prop := ∀ e ∈ table.entries, e.2.Clean

namespace TypeTable

variable {table : TypeTable}

theorem Clean.find? (h : table.Clean) {name : Text} {t : Ty}
    (ht : table.find? name = some t) : t.Clean := by
  obtain ⟨e, he, rfl⟩ := Option.map_eq_some_iff.1 ht
  exact h e (List.mem_of_find?_eq_some he)

theorem Clean.intern (h : table.Clean) {t : Ty} (ht : t.Clean) :
    (table.intern t).1.Clean ∧ (table.intern t).2.Clean := by
  unfold TypeTable.intern
  split
  · rename_i found hfound
    exact ⟨h.find? hfound, h⟩
  · refine ⟨ht, fun e he => ?_⟩
    rcases List.mem_cons.1 he with rfl | he
    · exact ht
    · exact h e he

theorem Clean.nullable (h : table.Clean) {t : Ty} (ht : t.Clean) :
    (table.nullable t).1.Clean ∧ (table.nullable t).2.Clean := by
  unfold TypeTable.nullable
  split
  · exact ⟨ht, h⟩
  · exact h.intern ht

theorem Clean.listOf (h : table.Clean) {t : Ty} (ht : t.Clean) :
    (table.listOf t).1.Clean ∧ (table.listOf t).2.Clean := by
  unfold TypeTable.listOf
  split
  · rename_i found hfound
    exact ⟨h.find? hfound, h⟩
  · have hfunc : (table.funcOf [t] .bool).1.Clean ∧ (table.funcOf [t] .bool).2.Clean :=
      h.intern ⟨⟨ht, trivial⟩, trivial⟩
    exact hfunc.2.intern ⟨ht, hfunc.1⟩

end TypeTable

namespace Source

/-- The source is UTF-8, and so are the names and texts in its syntax tree. -/
def isClean (src : Text) : Bool :=
  src.isUtf8 && match parse src with
    | .ok t => t.isClean
    | .error _ => true

/-! ## Steps of the binder -/

namespace Binder

variable {α β : Type}

/-- From a clean table of types, the step leaves a clean one, and ends with a value that
satisfies `P` or with a clean error. -/
def Cleanly (step : Binder α) (P : α → Prop) : Prop :=
  ∀ s : Session, s.table.Clean → ∃ r t, step.run.run s = (r, t) ∧ t.table.Clean ∧
    Ends P Error.Clean r

end Binder

open Binder

/-- Expressions and errors are clean. -/
def Rules.cleanly : Rules where
  sessions s s' := s = s' ∧ s.table.Clean
  clean := True
  error := Error.Clean
  types := Ty.Clean
  same _ _ := True
  classes := Universe.Clean
  scope := Scope.Clean
  typed _ := Expr.Clean

theorem Rules.cleanly_passes {names : Names} {xs : List Expr} {ts : List Ty}
    (h : cleanly.Passes names xs ts) : Expr.CleanAll xs := by
  induction h with
  | nil => trivial
  | cons hx _ ih => exact ⟨hx.1, ih⟩

theorem Rules.cleanly_lawful : cleanly.Lawful where
  next h := h.1 ▸ rfl
  fresh h := h.1 ▸ ⟨rfl, h.2⟩
  nullable ht := by
    rintro s _ ⟨rfl, hs⟩
    exact ⟨rfl, (hs.nullable ht).1, rfl, (hs.nullable ht).2⟩
  listOf ht := by
    rintro s _ ⟨rfl, hs⟩
    refine ⟨rfl, fun hxs => ?_, rfl, (hs.listOf ht).2⟩
    exact ⟨Expr.cleanAll_iff.2 fun x hx => (hxs x hx).1, (hs.listOf ht).1⟩
  fault _ hsrc hnote := ⟨hsrc trivial, hnote trivial⟩
  basic := Ty.clean_basic
  name ht _ := ht.isUtf8_name
  func ht := ⟨Ty.cleanAll_iff.1 ht.1, ht.2⟩
  underlying ht := ht.underlying
  named hu := hu.named
  refl _ := trivial
  identical _ _ _ := trivial
  implicit _ := fun _ ht h => ⟨trivial, fun hx => hx.implicit? ht h⟩
  int i := ⟨Value.clean_int i, trivial⟩
  float x := ⟨Value.clean_float x, trivial⟩
  text ht := ⟨Value.clean_text (ht trivial), trivial⟩
  bool b := ⟨Value.clean_bool b, trivial⟩
  null := ⟨Value.clean_null, trivial⟩
  ofText h _ := h.1.text _ rfl
  typeRef ht := ht
  type _ he := he.type
  var h hl := ⟨(h.locals _ hl).2.2.1 trivial, (h.locals _ hl).2.1⟩
  context h hs hname := ⟨hname trivial, h.scope.ancestor? hs, nofun⟩
  param {_ _ _ s p _} h hs hp hname := by
    have hs := h.scope.ancestor? hs
    refine ⟨hname trivial, hs, fun q hq => ?_⟩
    exact Option.some.inj hq ▸ (hs s.level (by simp [Scope.levels])).2 p hp
  member h hx hf := ⟨hx.1, hx.1.type.field? h.classes hf⟩
  index _ hx hk _ _ he := ⟨hx.1, hk, hx.1.type.elem? he⟩
  params h ht hm := (ht.overloads h.classes hm).params
  call h hx hm _ hargs := ⟨hx.1, hx.1.type.overloads h.classes hm, cleanly_passes hargs⟩
  callStatic h ht hm _ hargs := ⟨ht.overloads h.classes hm, cleanly_passes hargs⟩
  unary op hx := (hx.newUnary op).imp (fun _ h => h) fun _ h _ => Error.Clean.isUtf8_message h
  binary op hx hy :=
    (hx.newBinary hy op).imp (fun _ h => h) fun _ h _ => Error.Clean.isUtf8_message h
  cond hc ha hb ht _ _ := ⟨hc, ha, hb, ht⟩
  lambda h ht _ hls hb _ := ⟨fun l hl => ⟨(hls l hl).2 trivial,
    Ty.cleanAll_iff.1 ht.1 _ (List.mem_map_of_mem hl)⟩, hb, ht⟩

theorem parse_error_clean {src note : Text} (hsrc : src.isUtf8) (hnote : note.isUtf8)
    {e : Error} (h : parse src note = .error e) : e.Clean := by
  unfold parse at h
  simp only at h
  repeat' split at h
  all_goals cases h <;> first | exact ⟨hsrc, hnote⟩ | exact ⟨hsrc, Text.isUtf8_ofString _⟩

theorem parse_ok {src note note' : Text} {t : Tree} (h : parse src note = .ok t) :
    parse src note' = .ok t := by
  unfold parse at h ⊢
  grind

/-- A clean source is bound to a clean expression, or fails with a clean error. -/
theorem expression_clean {src : Text} (hsrc : isClean src) {scope : Scope}
    (hscope : scope.Clean) {u : Universe} (hu : u.Clean) :
    Cleanly (expression src scope u) Expr.Clean := by
  simp only [isClean, Bool.and_eq_true] at hsrc
  obtain ⟨hutf8, htree⟩ := hsrc
  intro s hs
  unfold expression
  split
  · rename_i e he
    exact ⟨.error e, s, rfl, hs, parse_error_clean hutf8 (hu.unreadable src hutf8) he⟩
  · rename_i t ht
    rw [parse_ok ht] at htree
    have hknows : Rules.cleanly.Knows 0 { src, scope, types := u } :=
      ⟨fun _ => hutf8, hu, hscope, nofun⟩
    obtain ⟨r, t, _, hrun, -, ⟨-, ht⟩, -, hr⟩ := bind_holds Rules.cleanly_lawful t
      (fun _ => htree) hknows { s with nextLocal := 0 } _ ⟨rfl, hs⟩ (Nat.le_refl 0)
    refine ⟨r, t, hrun, ht, ?_⟩
    cases r with
    | ok e => exact hr.1
    | error e => exact hr

end Source

end Bindery
