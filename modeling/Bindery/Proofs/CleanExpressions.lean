import Bindery.Proofs.CleanTexts
import Bindery.Proofs.ExpressionParts
import Bindery.Server.Assign

/-!
# Clean expressions

An expression is clean if the names and texts in it are UTF-8. Then its canonical text is UTF-8
(`Expr.Clean.isUtf8_text`), and so is what the conversion to an expected type and the checks for
the server say of it (`Expr.Clean.convertTo`, `Expr.Clean.compileReader`,
`Expr.Clean.compileWriter`).
-/

namespace Bindery

/-- The value is written as UTF-8, also where it stands for itself. -/
structure Value.Clean (v : Value) : Prop where
  shown : (Expr.constText v).isUtf8
  text : ∀ t, v = .text t → t.isUtf8

namespace Value

theorem isUtf8_floatText (x : Float) : (Expr.floatText x).isUtf8 := by
  have := Decimal.isUtf8_render (l := floatLayout) (Text.isUtf8_ofString _) (Text.isUtf8_ofString _)
    (Text.isUtf8_ofString _) x
  unfold Expr.floatText
  grind

theorem clean_null : Value.null.Clean := ⟨Text.isUtf8_ofString _, nofun⟩

theorem clean_bool (b : Bool) : (Value.bool b).Clean := by
  refine ⟨?_, nofun⟩
  cases b <;> exact Text.isUtf8_ofString _

theorem clean_int (n : Int64) : (Value.int n).Clean := ⟨Text.isUtf8_ofInt _, nofun⟩

theorem clean_float (x : Float) : (Value.float x).Clean := ⟨isUtf8_floatText x, nofun⟩

theorem clean_text {t : Text} (h : t.isUtf8) : (Value.text t).Clean :=
  ⟨Text.isUtf8_quote t, fun _ hu => Value.text.inj hu ▸ h⟩

end Value

structure Local.Clean (l : Local) : Prop where
  name : l.name.isUtf8
  type : l.type.Clean

namespace Expr

variable {dest : Ty} {s : Scope}

mutual

/-- The names and texts in the expression are UTF-8. -/
def Clean : Expr → Prop
  | .param n s p => n.isUtf8 ∧ s.Clean ∧ ∀ q, p = some q → q.Clean
  | .var l => l.Clean
  | .const v t => v.Clean ∧ t.Clean
  | .member x f => Clean x ∧ f.Clean
  | .call x m args => Clean x ∧ m.Clean ∧ CleanAll args
  | .callStatic m args => m.Clean ∧ CleanAll args
  | .index x k t => Clean x ∧ Clean k ∧ t.Clean
  | .unary _ x => Clean x
  | .binary _ x y t => Clean x ∧ Clean y ∧ t.Clean
  | .cond c t e ty => Clean c ∧ Clean t ∧ Clean e ∧ ty.Clean
  | .convert _ x t => Clean x ∧ t.Clean
  | .lambda ps b t => (∀ l ∈ ps, l.Clean) ∧ Clean b ∧ t.Clean
  | .list xs t => CleanAll xs ∧ t.Clean
  | .guard x v b t => Clean x ∧ v.Clean ∧ Clean b ∧ t.Clean
  | .typeRef t => t.Clean

def CleanAll : List Expr → Prop
  | [] => True
  | x :: xs => Clean x ∧ CleanAll xs

end

theorem Clean.type {e : Expr} (h : e.Clean) : e.type.Clean := by
  induction e using Expr.type.induct with
  | case1 n s => exact h.2.1.dataType
  | case2 n s p => exact (h.2.2 p rfl).type
  | case3 l => exact Local.Clean.type h
  | case4 v t => exact h.2
  | case5 x f => exact h.2.type
  | case6 x m args => exact h.2.1.result
  | case7 m args => exact h.1.result
  | case8 x k t => exact h.2.2
  | case9 op x ih => exact ih h
  | case10 op x y t => exact h.2.2
  | case11 c t e ty => exact h.2.2.2
  | case12 k x t => exact h.2
  | case13 ps b t => exact h.2.2
  | case14 xs t => exact h.2
  | case15 x v b t => exact h.2.2.2
  | case16 t => exact h

/-! ## Text -/

theorem isUtf8_unaryOp (op : UnaryOp) : op.text.isUtf8 := by
  cases op <;> exact Text.isUtf8_ofString _

theorem isUtf8_binaryOp (op : BinaryOp) : op.text.isUtf8 := by
  cases op <;> exact Text.isUtf8_ofString _

mutual

theorem Clean.isUtf8_text : {e : Expr} → e.Clean → e.text.isUtf8
  | .param .., h => h.1
  | .var _, h => Local.Clean.name h
  | .const .., h => h.1.shown
  | .member x f, ⟨hx, hf⟩ => by
    have := Clean.isUtf8_text hx
    have := hf.name
    simp [text, Text.append_assoc, *]
  | .call x m args, ⟨hx, hm, hargs⟩ => by
    have := Clean.isUtf8_text hx
    have := hm.name
    have := Text.isUtf8_join (Text.isUtf8_ofString ", ") (CleanAll.isUtf8_texts hargs)
    simp [text, Text.append_assoc, *]
  | .callStatic m args, ⟨hm, hargs⟩ => by
    have := hm.owner.isUtf8_name
    have := hm.name
    have := Text.isUtf8_join (Text.isUtf8_ofString ", ") (CleanAll.isUtf8_texts hargs)
    simp [text, Text.append_assoc, *]
  | .index x k t, ⟨hx, hk, _⟩ => by
    have := Clean.isUtf8_text hx
    have := Clean.isUtf8_text hk
    simp [text, Text.append_assoc, *]
  | .unary op x, h => Text.isUtf8_append (isUtf8_unaryOp op) (Clean.isUtf8_text h)
  | .binary op x y t, ⟨hx, hy, _⟩ => by
    have := Clean.isUtf8_text hx
    have := Clean.isUtf8_text hy
    have := isUtf8_binaryOp op
    simp [text, Text.append_assoc, *]
  | .cond c t e ty, ⟨hc, ht, he, _⟩ => by
    have := Clean.isUtf8_text hc
    have := Clean.isUtf8_text ht
    have := Clean.isUtf8_text he
    simp [text, Text.append_assoc, *]
  | .convert _ x t, ⟨hx, ht⟩ => by
    have := Clean.isUtf8_text hx
    have := ht.isUtf8_name
    simp [text, Text.append_assoc, *]
  | .lambda ps b t, ⟨hps, hb, _⟩ => by
    have := Text.isUtf8_join (Text.isUtf8_ofString ", ") fun n (hn : n ∈ ps.map (·.name)) => by
      obtain ⟨l, hl, rfl⟩ := List.mem_map.1 hn
      exact (hps l hl).name
    have := Clean.isUtf8_text hb
    simp [text, Text.append_assoc, *]
  | .list xs t, ⟨hxs, _⟩ => by
    have := Text.isUtf8_join (Text.isUtf8_ofString ", ") (CleanAll.isUtf8_texts hxs)
    simp [text, Text.append_assoc, *]
  | .guard x v b t, ⟨hx, hv, hb, _⟩ => by
    have := Clean.isUtf8_text hx
    have := hv.name
    have := Clean.isUtf8_text hb
    simp [text, Text.append_assoc, *]
  | .typeRef t, h => Ty.Clean.isUtf8_name h

theorem CleanAll.isUtf8_texts : {xs : List Expr} → CleanAll xs → ∀ t ∈ texts xs, t.isUtf8
  | [], _ => nofun
  | x :: xs, h => by
    rintro t (_ | ⟨_, ht⟩)
    · exact Clean.isUtf8_text h.1
    · exact CleanAll.isUtf8_texts h.2 t ht

end

/-! ## Conversions -/

variable {e x y : Expr}

theorem Clean.implicit? (he : e.Clean) (hd : dest.Clean) (h : e.implicit? dest = some x) :
    x.Clean := by
  cases implicit_of_some h with
  | same => exact he
  | null => exact ⟨Value.clean_null, hd⟩
  | _ => exact ⟨he, hd⟩

theorem Clean.lambda? (he : e.Clean) (hd : dest.Clean) (h : e.lambda? dest = some x) : x.Clean := by
  unfold Expr.lambda? at h
  split at h
  · rename_i params result
    have lambda {body : Expr} (hbody : body.Clean) : (Expr.lambda (params.mapIdx fun i t =>
        ({ id := e.nextLocal + i, name := "_arg" ++ Text.ofNat i, type := t } : Local)) body
        (.func params result)).Clean := by
      refine ⟨fun l hl => ?_, hbody, hd⟩
      obtain ⟨i, hi, rfl⟩ := List.mem_mapIdx.1 hl
      exact ⟨Text.isUtf8_append (Text.isUtf8_ofString _) (Text.isUtf8_ofNat _),
        Ty.cleanAll_iff.1 hd.1 _ (List.getElem_mem hi)⟩
    simp only at h
    split at h
    · exact Option.some.inj h ▸ lambda he
    · obtain ⟨body, hbody, h⟩ := Option.bind_eq_some_iff.1 h
      exact Option.some.inj h ▸ lambda (he.implicit? hd.2 hbody)
  · cases h

theorem Clean.conversionError (he : e.Clean) (hd : dest.Clean) :
    (e.conversionError dest).Clean := by
  have := he.isUtf8_text
  have := he.type.isUtf8_name
  have := hd.isUtf8_name
  refine Error.Clean.of ?_
  simp [Text.append_assoc, *]

theorem Clean.convertTo (he : e.Clean) (hd : dest.Clean) (allowText : Bool) :
    Ends Clean Error.Clean (e.convertTo dest allowText) := by
  have hdirect : ∀ x, (e.implicit? dest).or (if allowText && dest.kind == .string then
      some (.convert .toText e dest) else none) = some x → x.Clean := by
    intro x hx
    rcases Option.or_eq_some_iff.1 hx with hx | ⟨-, hx⟩
    · exact he.implicit? hd hx
    · split at hx
      · exact Option.some.inj hx ▸ ⟨he, hd⟩
      · cases hx
  unfold Expr.convertTo
  simp only
  split
  · exact he
  · split
    · rename_i x hx
      split at hx
      all_goals
        rcases Option.or_eq_some_iff.1 hx with hx | ⟨-, hx⟩
      · exact he.lambda? hd hx
      · exact hdirect x hx
      · exact hdirect x hx
      · exact he.lambda? hd hx
    · exact he.conversionError hd

theorem Clean.strip (he : e.Clean) : e.strip.Clean := by
  induction e using Expr.strip.induct with
  | case1 x t ih | case2 x t ih => exact ih he.1
  | case3 e h1 h2 =>
    rw [Expr.strip]
    · exact he
    all_goals assumption

/-! ## Operators -/

theorem Clean.newUnary (hx : x.Clean) (op : UnaryOp) : Ends Clean Error.Clean (newUnary op x) := by
  have := isUtf8_unaryOp op
  have := hx.type.isUtf8_name
  have hnote : ("operator " ++ op.text ++ " not defined on " ++ x.type.name).isUtf8 := by
    simp [Text.append_assoc, *]
  cases op
  all_goals
    simp only [Expr.newUnary]
    split
    · exact hx
    · exact hnote

theorem Clean.newBinary (hx : x.Clean) (hy : y.Clean) (op : BinaryOp) :
    Ends Clean Error.Clean (newBinary op x y) := by
  have := isUtf8_binaryOp op
  have := hx.type.isUtf8_name
  have := hy.type.isUtf8_name
  have hnote : ("operator " ++ op.text ++ " not defined on " ++ x.type.name ++ " and "
      ++ y.type.name).isUtf8 := by
    simp [Text.append_assoc, *]
  unfold Expr.newBinary
  split
  · rename_i t ht
    exact ⟨hx, hy, binaryType_mem (fun _ => trivial) (fun _ _ => trivial) hx.type hy.type ht⟩
  · exact hnote

/-! ## Checks for the server -/

theorem levelsOut_clean (hs : s.Clean) {name : Text} (hname : name.isUtf8) (owner : Scope) :
    Ends (fun _ => True) Error.Clean (levelsOut s name owner) := by
  have := hs.dataType.isUtf8_name
  have houtside : (levelsOut.outside s name).Clean := by
    refine Error.Clean.of ?_
    simp [Text.append_assoc, *]
  unfold levelsOut
  simp only
  repeat' split
  · trivial
  all_goals exact houtside

theorem typeNotValue_clean {t : Ty} (h : t.Clean) : (typeNotValue t).Clean :=
  Text.isUtf8_append h.isUtf8_name (Text.isUtf8_ofString _)

theorem implemented_clean {m : Method} (h : m.Clean) :
    Ends (fun _ => True) Error.Clean (checked.implemented m) := by
  have := h.isUtf8_fullName
  have hnote : ("method " ++ m.fullName ++ " has no server implementation").isUtf8 := by
    simp [Text.append_assoc, *]
  unfold checked.implemented
  split
  · trivial
  · exact hnote

theorem cleanAll_iff {xs : List Expr} : CleanAll xs ↔ ∀ x ∈ xs, x.Clean := by
  induction xs with
  | nil => simp [CleanAll]
  | cons x xs ih => simp [CleanAll, ih]

theorem Clean.child (h : e.Clean) (hx : x ∈ e.children) : x.Clean := by
  cases e <;> simp_all [Clean, children, cleanAll_iff] <;> grind

theorem Clean.checkedHere (hs : s.Clean) (h : e.Clean) :
    Ends (fun _ => True) Error.Clean (e.checkedHere s) := by
  cases e with
  | param n owner p => exact (levelsOut_clean hs h.1 owner).map fun _ _ => trivial
  | typeRef t => exact typeNotValue_clean h
  | call x m args => exact implemented_clean h.2.1
  | callStatic m args => exact implemented_clean h.1
  | _ => trivial

theorem Clean.checked (hs : s.Clean) (h : e.Clean) :
    Ends (fun _ => True) Error.Clean (e.checked s) := by
  induction e using induction_children with
  | h e ih =>
    have hlist : ∀ xs ⊆ e.children, Ends (fun _ => True) Error.Clean (checkedList s xs) := by
      intro xs hxs
      induction xs with
      | nil => trivial
      | cons x xs ihs =>
        obtain ⟨hx, hxs⟩ := List.cons_subset.1 hxs
        exact (ih x hx (h.child hx)).bind fun _ _ => ihs hxs
    rw [checked_eq]
    exact (hlist _ (List.Subset.refl _)).bind fun _ _ => h.checkedHere hs

theorem Clean.compileReader (hs : s.Clean) (h : e.Clean) :
    Ends (fun _ => True) Error.Clean (Reader.compile e s) := by
  rw [Reader.compile, guardNulls_checked]
  exact (Clean.checked hs h).bind fun _ _ => trivial

theorem Clean.compileWriter (hs : s.Clean) (h : e.Clean) :
    Ends (fun _ => True) Error.Clean (Writer.compile e s) := by
  have hstrip := h.strip
  unfold Writer.compile
  simp only [guardNulls_checked]
  split
  · rename_i x f heq
    rw [heq] at hstrip
    split
    · trivial
    · exact (Clean.checked hs hstrip.1).bind fun _ _ => trivial
  · rename_i x k t heq
    rw [heq] at hstrip
    exact (Clean.checked hs hstrip.1).bind fun _ _ =>
      (Clean.checked hs hstrip.2.1).bind fun _ _ => trivial
  · trivial

end Expr

end Bindery
