import Bindery.Proofs.ExpressionParts
import Mathlib.Data.List.Forall2

/-!
# Guards and direct evaluation

Where an expression has a value without guards, it has the same value with them
(`Expr.eval_refines`). Functions are compared by what they give: a function literal evaluated with
guards gives a result wherever it gives one without (`Operand.Refines`). A method that calls its
function arguments and passes their failures on respects this order (`Method.Monotone`), and the
predeclared methods all do (`Method.Predeclared.monotone`).
-/

namespace Bindery

/-- `w` can stand for `v`: the same value, or a function that gives results that can stand for those
of `v` wherever `v` gives one. -/
inductive Operand.Refines : Operand → Operand → Prop
  | value (v : Value) : Refines (.value v) (.value v)
  | func {f g : List Value → Except Fault Operand}
    (total : ∀ args v, f args = .ok v → ∃ w, g args = .ok w)
    (refines : ∀ args v w, f args = .ok v → g args = .ok w → Refines v w) :
    Refines (.func f) (.func g)

namespace Operand.Refines

variable {v w : Operand}

theorem toValue_eq (h : Refines v w) : w.toValue = v.toValue := by cases h <;> rfl

theorem isNull_eq (h : Refines v w) : w.isNull = v.isNull := by cases h <;> rfl

theorem isTrue_eq (h : Refines v w) : w.isTrue = v.isTrue := by rw [isTrue, isTrue, h.toValue_eq]

theorem eq_of_value {u : Value} (h : Refines (.value u) w) : w = .value u := by cases h; rfl

theorem refl (v : Operand) : Refines v v :=
  -- The results of a function are smaller than the function.
  @Operand.rec (fun v => Refines v v) (fun r => ∀ v, r = .ok v → Refines v v)
    (fun v => .value v)
    (fun f ih => .func (fun _ v h => ⟨v, h⟩) fun args v w hv hw => by
      obtain rfl : v = w := Except.ok.inj (hv.symm.trans hw)
      exact ih args v hv)
    (fun _ _ h => nomatch h)
    (fun _ ih _ h => Except.ok.inj h ▸ ih)
    v

theorem map_toValue {vs ws : List Operand} (h : List.Forall₂ Refines vs ws) :
    ws.map toValue = vs.map toValue := by
  induction h with
  | nil => rfl
  | cons h _ ih => rw [List.map_cons, List.map_cons, h.toValue_eq, ih]

end Operand.Refines

open Operand (Refines)

/-- The method gives a result, which can stand for the one it gave, when operands that can stand for
its own are put in their place. -/
def Method.Monotone (m : Method) : Prop :=
  ∀ run, m.run = some run → ∀ recv recv' args args' v, Refines recv recv' →
    List.Forall₂ Refines args args' → run recv args = .ok v →
      ∃ w, run recv' args' = .ok w ∧ Refines v w

inductive Method.Predeclared : Method → Prop
  | any {m} : m ∈ Method.anyMethods → Predeclared m
  | string {m} : m ∈ Method.stringMethods → Predeclared m
  | list {m} (functions : Nat → Option Stored) (elem predicate : Ty) :
    m ∈ Method.listMethods functions elem predicate → Predeclared m
  | math {m} : m ∈ Declaration.math.methods → Predeclared m
  | resources {m} : m ∈ Declaration.resources.methods → Predeclared m

namespace Method

variable {m : Method} {recv recv' : Operand} {args args' : List Operand}

theorem firstArg_refines (h : List.Forall₂ Refines args args') :
    Refines (firstArg args) (firstArg args') := by
  cases h with
  | nil => exact .value .null
  | cons h _ => exact h

theorem monotone_of_values {run : Operand → List Operand → Except Fault Operand}
    {f : Value → Value → Value} (hm : m.run = some run)
    (hf : ∀ recv args, run recv args = .ok (f recv.toValue (firstArg args).toValue)) :
    m.Monotone := by
  intro run' hrun recv recv' args args' v hrecv hargs hv
  obtain rfl := Option.some.inj (hm.symm.trans hrun)
  refine ⟨_, hf recv' args', ?_⟩
  rw [hrecv.toValue_eq, (firstArg_refines hargs).toValue_eq,
    ← Except.ok.inj ((hf recv args).symm.trans hv)]
  exact .value _

theorem monotone_of_onTexts {f : Text → Text → Value} (hm : m.run = some (onTexts f)) :
    m.Monotone :=
  monotone_of_values (f := fun recv a => f recv.asText a.asText) hm fun _ _ => rfl

theorem monotone_of_onText {f : Text → Text} (hm : m.run = some (onText f)) : m.Monotone :=
  monotone_of_values (f := fun recv _ => .text (f recv.asText)) hm fun _ _ => rfl

theorem monotone_of_testText {f : Text → Bool} (hm : m.run = some (testText f)) : m.Monotone :=
  monotone_of_values (f := fun _ a => .bool (f a.asText)) hm fun _ _ => rfl

theorem select_refines {p q : List Value → Except Fault Operand} (h : Refines (.func p) (.func q))
    (wanted : Bool) {vs picked : List Value} (hp : select p wanted vs = .ok picked) :
    select q wanted vs = .ok picked := by
  cases h with
  | func total refines =>
    induction vs generalizing picked with
    | nil => exact hp
    | cons v vs ih =>
      rw [select] at hp ⊢
      obtain ⟨b, hb, hp⟩ := bind_ok_iff.1 hp
      obtain ⟨rest, hrest, hp⟩ := bind_ok_iff.1 hp
      obtain ⟨c, hc⟩ := total [v] b hb
      rw [hc, ok_bind, ih hrest, ok_bind, (refines [v] b c hb hc).isTrue_eq]
      exact hp

variable {functions : Nat → Option Stored}

theorem filtered_refines (hrecv : Refines recv recv') (hargs : List.Forall₂ Refines args args')
    (wanted : Bool) {picked : List Value} (h : filtered functions wanted recv args = .ok picked) :
    filtered functions wanted recv' args' = .ok picked := by
  have helems : elements recv' = elements recv := by cases hrecv <;> rfl
  have hfirst := firstArg_refines hargs
  rw [filtered] at h ⊢
  generalize firstArg args = x at hfirst h
  generalize firstArg args' = y at hfirst
  rw [helems]
  cases hfirst with
  | value u => exact h
  | func total refines => exact select_refines (.func total refines) wanted h

theorem monotone_of_filtered {wanted : Bool} {f : List Value → Value}
    (hm : m.run = some fun recv args => do return f (← filtered functions wanted recv args)) :
    m.Monotone := by
  intro run hrun recv recv' args args' v hrecv hargs hv
  obtain rfl := Option.some.inj (hm.symm.trans hrun)
  obtain ⟨picked, hpicked, hv⟩ := bind_ok_iff.1 hv
  refine ⟨f picked, ?_, Except.ok.inj hv ▸ .value _⟩
  simp only [filtered_refines hrecv hargs wanted hpicked, ok_bind, pure_ok]

theorem monotone_of_extremum {isMax : Bool} (hm : m.run = some (extremum isMax)) : m.Monotone := by
  intro run hrun recv recv' args args' v hrecv hargs hv
  obtain rfl := Option.some.inj (hm.symm.trans hrun)
  simp only [extremum] at hv
  split at hv
  case h_1 x y | h_2 x y =>
    obtain _ | ⟨⟨⟩, _ | ⟨⟨⟩, ⟨⟩⟩⟩ := hargs
    exact ⟨v, hv, Except.ok.inj hv ▸ .value _⟩
  all_goals cases hv

def absolute : Value → Value
  | .float x => .float x.abs
  | _ => .float 0

theorem Predeclared.monotone (h : m.Predeclared) : m.Monotone := by
  cases h with
  | any h =>
    obtain rfl := List.mem_singleton.1 h
    exact monotone_of_values (f := fun recv _ => .text recv.format) rfl fun _ _ => rfl
  | string h =>
    simp only [stringMethods, List.mem_cons, List.not_mem_nil, or_false] at h
    rcases h with rfl | rfl | rfl | rfl | rfl | rfl | rfl | rfl
    iterate 3 exact monotone_of_onTexts rfl
    iterate 3 exact monotone_of_onText rfl
    iterate 2 exact monotone_of_testText rfl
  | list functions elem predicate h =>
    simp only [listMethods, List.mem_cons, List.not_mem_nil, or_false] at h
    rcases h with rfl | rfl | rfl | rfl
    · exact monotone_of_filtered (f := fun vs => .bool !vs.isEmpty) rfl
    · exact monotone_of_filtered (f := fun vs => .bool vs.isEmpty) rfl
    · exact monotone_of_filtered (f := fun vs => .list none vs) rfl
    · refine monotone_of_values
        (f := fun recv a => .bool ((elements recv).any fun v => v.sameScalar a)) rfl
        fun recv _ => ?_
      cases recv <;> rfl
  | math h =>
    simp only [Declaration.math, List.mem_cons, List.not_mem_nil, or_false] at h
    rcases h with rfl | rfl | rfl | rfl | rfl
    iterate 4 exact monotone_of_extremum rfl
    · refine monotone_of_values (f := fun _ => absolute) rfl fun _ args => ?_
      simp only [magnitude]
      cases hv : firstArg args with
      | value v => cases v <;> rfl
      | func _ => rfl
  | resources h =>
    obtain rfl := List.mem_singleton.1 h
    exact monotone_of_values (f := fun _ a => .text ("/resource/" ++ a.asText)) rfl fun _ _ => rfl

end Method

/-! ## Operations on operands -/

namespace Expr

variable {e : Expr} (e' : Expr) {v v' r : Operand}

theorem readField_refines {f : Field} (hv : Refines v v') (h : readField e f v = .ok r) :
    readField e' f v' = .ok r := by
  cases hv with
  | value u => cases u <;> grind [readField]
  | func _ _ => grind [readField, Operand.toValue]

theorem not_null_of_readField {f : Field} (h : readField e f v = .ok r) : v.isNull = false := by
  cases v with
  | func _ => rfl
  | value u =>
    cases u with
    | null => cases h
    | _ => rfl

theorem readElement_refines {k k' : Operand} (he : e'.type = e.type) (hv : Refines v v')
    (hk : Refines k k') (h : readElement e v k = .ok r) : readElement e' v' k' = .ok r := by
  cases hv with
  | func _ _ => cases h
  | value u =>
    cases u with
    | list ref items =>
      cases hk with
      | func _ _ => cases h
      | value k =>
        cases k with
        | int i =>
          simp only [readElement, he] at h ⊢
          split at h
          · exact h
          · cases h
        | _ => cases h
    | object ref fields =>
      cases hk with
      | func _ _ => cases h
      | value k =>
        cases k with
        | text k => simpa only [readElement, he] using h
        | _ => cases h
    | _ => cases h

theorem not_null_of_readElement {k : Operand} (h : readElement e v k = .ok r) :
    v.isNull = false := by
  cases v with
  | func _ => rfl
  | value u =>
    cases u with
    | null => cases h
    | _ => rfl

theorem applyUnary_refines {op : UnaryOp} (hv : Refines v v') (h : applyUnary e op v = .ok r) :
    ∃ w, applyUnary e' op v' = .ok w ∧ Refines r w := by
  cases hv with
  | value u =>
    refine ⟨r, ?_, .refl r⟩
    cases op <;> cases u <;> first | exact h | cases h
  | func total refines =>
    cases op with
    | not | negate => cases h
    | plus => exact ⟨_, rfl, Except.ok.inj h ▸ .func total refines⟩

theorem applyConversion_refines (k : Conversion) (t : Ty) (hv : Refines v v') :
    Refines (applyConversion k t v) (applyConversion k t v') := by
  cases hv with
  | value u => exact .refl _
  | func total refines => cases k <;> first | exact .func total refines | exact .value _

theorem applyStrict_refines {op : BinaryOp} {t : Ty} {y y' : Operand} (hv : Refines v v')
    (hy : Refines y y') (h : applyStrict e op t v y = .ok r) :
    applyStrict e' op t v' y' = .ok r := by
  simp only [applyStrict, hv.toValue_eq, hy.toValue_eq] at h ⊢
  split at h
  · rw [if_pos ‹_›, h]
  · rw [if_neg ‹_›]
    split at h
    · exact h
    · cases h

theorem applyBinary_refines {op : BinaryOp} {t : Ty} {right : Unit → Except Fault Operand}
    (right' : Unit → Except Fault Operand) (hv : Refines v v')
    (hr : ∀ y, right () = .ok y → ∃ y', right' () = .ok y' ∧ Refines y y')
    (h : applyBinary e op t v right = .ok r) :
    ∃ w, applyBinary e' op t v' right' = .ok w ∧ Refines r w := by
  have hnull := hv.isNull_eq
  have htrue := hv.isTrue_eq
  cases op with
  | andAlso =>
    simp only [applyBinary, htrue] at h ⊢
    split at h
    · obtain ⟨y, hy, h⟩ := bind_ok_iff.1 h
      obtain ⟨y', hy', hyy⟩ := hr y hy
      rw [if_pos ‹_›, hy', ok_bind, hyy.isTrue_eq]
      exact ⟨r, h, .refl r⟩
    · rw [if_neg ‹_›]
      exact ⟨r, h, .refl r⟩
  | orElse =>
    simp only [applyBinary, htrue] at h ⊢
    split at h
    · rw [if_pos ‹_›]
      exact ⟨r, h, .refl r⟩
    · obtain ⟨y, hy, h⟩ := bind_ok_iff.1 h
      obtain ⟨y', hy', hyy⟩ := hr y hy
      rw [if_neg ‹_›, hy', ok_bind, hyy.isTrue_eq]
      exact ⟨r, h, .refl r⟩
  | coalesce =>
    simp only [applyBinary, hnull] at h ⊢
    split at h
    · rw [if_pos ‹_›]
      exact hr r h
    · rw [if_neg ‹_›]
      exact ⟨v', rfl, Except.ok.inj h ▸ hv⟩
  | _ =>
    obtain ⟨y, hy, h⟩ := bind_ok_iff.1 h
    obtain ⟨y', hy', hyy⟩ := hr y hy
    exact ⟨r, bind_ok_iff.2 ⟨y', hy', applyStrict_refines e' hv hyy h⟩, .refl r⟩

theorem applyMethod_refines {m : Method} {args args' : List Operand} (hm : m.Monotone)
    (hv : Refines v v') (hargs : List.Forall₂ Refines args args')
    (h : applyMethod e m v args = .ok r) :
    ∃ w, applyMethod e' m v' args' = .ok w ∧ Refines r w := by
  unfold applyMethod at h ⊢
  cases hrun : m.run with
  | none => rw [hrun] at h; cases h
  | some run =>
    simp only [hrun] at h ⊢
    cases hres : run v args with
    | error _ => rw [hres] at h; cases h
    | ok res =>
      obtain ⟨res', hres', href⟩ := hm run hrun v v' args args' res hv hargs hres
      rw [hres] at h
      rw [hres']
      cases href with
      | value u => exact ⟨r, h, .refl r⟩
      | func total refines => exact ⟨_, rfl, Except.ok.inj h ▸ .func total refines⟩

end Expr

/-! ## Evaluation -/

/-- The frames agree but for functions, which can be stood for. -/
structure Frame.Refines (fr fr' : Frame) : Prop where
  vms : fr.vms = fr'.vms
  control : fr.control = fr'.control
  get : ∀ id, Operand.Refines (fr.get id) (fr'.get id)

namespace Frame.Refines

variable {fr fr' : Frame}

theorem refl (fr : Frame) : fr.Refines fr := ⟨rfl, rfl, fun _ => .refl _⟩

theorem bind (h : fr.Refines fr') (l : Local) {x x' : Operand} (hx : Operand.Refines x x') :
    (fr.bind l x).Refines (fr'.bind l x') where
  vms := h.vms
  control := h.control
  get id := by
    rw [get_bind, get_bind]
    split
    · exact hx
    · exact h.get id

theorem bindAll (h : fr.Refines fr') (ls : List Local) (vs : List Value) :
    (fr.bindAll ls vs).Refines (fr'.bindAll ls vs) := by
  induction ls generalizing fr fr' vs with
  | nil => exact h
  | cons l ls ih =>
    cases vs with
    | nil => exact h
    | cons v vs => exact ih (h.bind l (.value v)) vs

end Frame.Refines

namespace Expr

mutual

def methods : Expr → List Method
  | .member x _ => methods x
  | .call x m args => m :: (methods x ++ methodsOf args)
  | .callStatic m args => m :: methodsOf args
  | .index x k _ => methods x ++ methods k
  | .unary _ x => methods x
  | .binary _ x y _ => methods x ++ methods y
  | .cond c t e _ => methods c ++ (methods t ++ methods e)
  | .convert _ x _ => methods x
  | .lambda _ b _ => methods b
  | .list xs _ => methodsOf xs
  | .guard x _ b _ => methods x ++ methods b
  | _ => []

def methodsOf : List Expr → List Method
  | [] => []
  | x :: xs => methods x ++ methodsOf xs

end

theorem stopsAt_of_not_null {x : Expr} {v : Operand} (h : v.isNull = false) :
    x.stopsAt v = false := by
  rw [stopsAt, h, Bool.false_and, Bool.false_and]

section

variable (s : Scope) (base : Nat)

mutual

/-- A chain whose expression has a value is not broken, and ends with a value that can stand for
it. -/
theorem chain_refines {fr fr' : Frame} (hfr : fr.Refines fr') (e : Expr) (n : Nat)
    (hm : ∀ m ∈ e.methods, m.Monotone) {v : Operand} (h : e.eval s fr = .ok v) :
    ∃ w, chain s base fr' n e = .ok (.reached w) ∧ Refines v w := by
  cases e with
  | member x f =>
    obtain ⟨recv, hx, h⟩ := bind_ok_iff.1 h
    obtain ⟨recv', hx', hrecv⟩ := chain_refines hfr x n hm hx
    have hstop := stopsAt_of_not_null (x := x) (hrecv.isNull_eq.trans (not_null_of_readField h))
    refine ⟨v, ?_, .refl v⟩
    rw [chain, hx', ok_bind, Link.access]
    simp only [hstop, readField_refines _ hrecv h, ok_bind, pure_ok, Bool.false_eq_true, if_false]
  | call x m args =>
    simp only [methods, List.forall_mem_cons, List.forall_mem_append] at hm
    obtain ⟨recv, hx, h⟩ := bind_ok_iff.1 h
    obtain ⟨recv', hx', hrecv⟩ := chain_refines hfr x (afterList base n args) hm.2.1 hx
    split at h
    · cases h
    rename_i hnull
    obtain ⟨vals, hvals, h⟩ := bind_ok_iff.1 h
    obtain ⟨vals', hvals', hargs⟩ := chainList_refines hfr args n hm.2.2 hvals
    obtain ⟨w, hw, hvw⟩ := applyMethod_refines (label base n (.call x m args))
      hm.1 hrecv hargs h
    have hnull' : recv'.isNull = false := by rw [hrecv.isNull_eq]; simpa using hnull
    refine ⟨w, ?_, hvw⟩
    rw [chain, hx', ok_bind, Link.access]
    simp only [stopsAt_of_not_null hnull', hnull', hvals', hw, ok_bind, pure_ok,
      Bool.false_eq_true, if_false]
  | index x k t =>
    simp only [methods, List.forall_mem_append] at hm
    obtain ⟨recv, hx, h⟩ := bind_ok_iff.1 h
    obtain ⟨key, hk, h⟩ := bind_ok_iff.1 h
    obtain ⟨recv', hx', hrecv⟩ := chain_refines hfr x (after base n k) hm.1 hx
    obtain ⟨key', hk', hkey⟩ := chain_refines hfr k n hm.2 hk
    have hstop := stopsAt_of_not_null (x := x) (hrecv.isNull_eq.trans (not_null_of_readElement h))
    refine ⟨v, ?_, .refl v⟩
    rw [chain, hx', ok_bind, Link.access]
    simp only [hstop, hk', Link.getD_reached, ok_bind, pure_ok, Bool.false_eq_true, if_false,
      readElement_refines _ (label_type base n (.index x k t)) hrecv hkey h]
  | callStatic m args =>
    simp only [methods, List.forall_mem_cons] at hm
    obtain ⟨vals, hvals, h⟩ := bind_ok_iff.1 h
    obtain ⟨vals', hvals', hargs⟩ := chainList_refines hfr args n hm.2 hvals
    obtain ⟨w, hw, hvw⟩ := applyMethod_refines (label base n (.callStatic m args))
      hm.1 (.value .null) hargs h
    exact ⟨w, by simp only [chain, hvals', hw, ok_bind, pure_ok], hvw⟩
  | unary op x =>
    obtain ⟨u, hx, h⟩ := bind_ok_iff.1 h
    obtain ⟨u', hx', hu⟩ := chain_refines hfr x n hm hx
    simp only [chain, hx', ok_bind, Link.getD_reached, hu.isNull_eq]
    split at h
    · rw [if_pos ‹_›]
      exact ⟨u', rfl, Except.ok.inj h ▸ hu⟩
    · obtain ⟨w, hw, hvw⟩ := applyUnary_refines (label base n (.unary op x)) hu h
      rw [if_neg ‹_›, hw]
      exact ⟨w, rfl, hvw⟩
  | binary op x y t =>
    simp only [methods, List.forall_mem_append] at hm
    obtain ⟨l, hx, h⟩ := bind_ok_iff.1 h
    obtain ⟨l', hx', hl⟩ := chain_refines hfr x n hm.1 hx
    obtain ⟨w, hw, hvw⟩ := applyBinary_refines (label base n (.binary op x y t))
      (fun _ => do return (← chain s base fr' (after base n x) y).getD y.type) hl
      (fun u hy => by
        obtain ⟨u', hy', hu⟩ := chain_refines hfr y (after base n x) hm.2 hy
        exact ⟨u', by simp only [hy', ok_bind, pure_ok, Link.getD_reached], hu⟩) h
    refine ⟨w, ?_, hvw⟩
    simp only [chain, hx', ok_bind, Link.getD_reached]
    rw [hw, ok_bind, pure_ok]
  | cond c t e ty =>
    simp only [methods, List.forall_mem_append] at hm
    obtain ⟨b, hc, h⟩ := bind_ok_iff.1 h
    obtain ⟨b', hc', hb⟩ := chain_refines hfr c n hm.1 hc
    simp only [chain, hc', ok_bind, Link.getD_reached, hb.isTrue_eq]
    split at h
    · obtain ⟨w, hw, hvw⟩ := chain_refines hfr t (after base n c) hm.2.1 h
      rw [if_pos ‹_›, hw]
      exact ⟨w, rfl, hvw⟩
    · obtain ⟨w, hw, hvw⟩ := chain_refines hfr e (after base (after base n c) t) hm.2.2 h
      rw [if_neg ‹_›, hw]
      exact ⟨w, rfl, hvw⟩
  | convert k x t =>
    obtain ⟨u, hx, h⟩ := bind_ok_iff.1 h
    obtain ⟨u', hx', hu⟩ := chain_refines hfr x n hm hx
    refine ⟨_, by simp only [chain, hx', ok_bind, pure_ok, Link.getD_reached]; rfl, ?_⟩
    exact Except.ok.inj h ▸ applyConversion_refines k t hu
  | lambda ps b t =>
    have hbody args {u : Operand} (hu : b.eval s (fr.bindAll ps args) = .ok u) :
        ∃ w, (do return (← chain s base (fr'.bindAll ps args) n b).getD b.type) = .ok w ∧
          Refines u w := by
      obtain ⟨w, hw, huw⟩ := chain_refines (hfr.bindAll ps args) b n hm hu
      exact ⟨w, by simp only [hw, ok_bind, pure_ok, Link.getD_reached], huw⟩
    refine ⟨_, rfl, Except.ok.inj h ▸ .func (fun args u hu => ?_) fun args u w hu hw => ?_⟩
    · obtain ⟨w, hw, _⟩ := hbody args hu
      exact ⟨w, hw⟩
    · obtain ⟨w', hw', huw⟩ := hbody args hu
      exact Except.ok.inj (hw'.symm.trans hw) ▸ huw
  | list xs t =>
    obtain ⟨vs, hvs, h⟩ := bind_ok_iff.1 h
    obtain ⟨ws, hws, hvws⟩ := chainList_refines hfr xs n hm hvs
    refine ⟨v, ?_, .refl v⟩
    rw [chain, hws, ok_bind, Operand.Refines.map_toValue hvws]
    exact congrArg (Except.map Link.reached) h
  | guard x l b t =>
    simp only [methods, List.forall_mem_append] at hm
    obtain ⟨u, hx, h⟩ := bind_ok_iff.1 h
    obtain ⟨u', hx', hu⟩ := chain_refines hfr x n hm.1 hx
    simp only [chain, hx', ok_bind, Link.getD_reached, hu.isNull_eq]
    split at h
    · rw [if_pos ‹_›]
      exact ⟨_, rfl, Except.ok.inj h ▸ .refl _⟩
    · obtain ⟨w, hw, hvw⟩ := chain_refines (hfr.bind l hu) b (after base n x) hm.2 h
      rw [if_neg ‹_›, hw]
      exact ⟨w, rfl, hvw⟩
  | param name owner special =>
    refine ⟨v, ?_, .refl v⟩
    simp only [eval, readParam, hfr.vms, hfr.control] at h
    simp only [chain, eval, readParam, h, ok_bind, pure_ok]
  | var l =>
    exact ⟨fr'.get l.id, by simp only [chain, eval, ok_bind, pure_ok],
      Except.ok.inj h ▸ hfr.get l.id⟩
  | const u => exact ⟨u, rfl, Except.ok.inj h ▸ .value u⟩
  | typeRef => cases h

theorem chainList_refines {fr fr' : Frame} (hfr : fr.Refines fr') (es : List Expr) (n : Nat)
    (hm : ∀ m ∈ methodsOf es, m.Monotone) {vs : List Operand} (h : evalList s fr es = .ok vs) :
    ∃ ws, chainList s base fr' n es = .ok ws ∧ List.Forall₂ Refines vs ws := by
  cases es with
  | nil => exact ⟨[], rfl, Except.ok.inj h ▸ .nil⟩
  | cons x xs =>
    simp only [methodsOf, List.forall_mem_append] at hm
    obtain ⟨v, hx, h⟩ := bind_ok_iff.1 h
    obtain ⟨rest, hxs, h⟩ := bind_ok_iff.1 h
    obtain ⟨w, hw, hvw⟩ := chain_refines hfr x n hm.1 hx
    obtain ⟨ws, hws, hrest⟩ := chainList_refines hfr xs (after base n x) hm.2 hxs
    exact ⟨w :: ws, by simp only [chainList, hw, hws, ok_bind, pure_ok, Link.getD_reached],
      Except.ok.inj h ▸ .cons hvw hrest⟩

end

end

/-- An expression that has a value without guards has one with them that can stand for it. -/
theorem eval_refines {e : Expr} (hm : ∀ m ∈ e.methods, ¬ m.Predeclared → m.Monotone)
    {s : Scope} {fr : Frame} {v : Operand} (h : e.eval s fr = .ok v) :
    ∃ w, e.guardNulls.eval s fr = .ok w ∧ Refines v w := by
  have hmono : ∀ m ∈ e.methods, m.Monotone := fun m hmem => by
    by_cases hp : m.Predeclared
    · exact hp.monotone
    · exact hm m hmem hp
  obtain ⟨w, hw, hvw⟩ := chain_refines s e.nextLocal (.refl fr) e 0 hmono h
  refine ⟨w, ?_, hvw⟩
  rw [guardNulls_eval, meaning, hw, ok_bind, pure_ok, Link.getD_reached]

/-! ## Readers -/

theorem compile_ok_iff {e : Expr} {s : Scope} {r : Reader} :
    Reader.compile e s = .ok r ↔ e.checked s = .ok () ∧ r = ⟨e.guardNulls, s⟩ := by
  rw [Reader.compile, guardNulls_checked]
  cases e.checked s with
  | error err => exact ⟨nofun, fun h => nomatch h.1⟩
  | ok _ => exact ⟨fun h => ⟨rfl, (Except.ok.inj h).symm⟩, fun h => congrArg Except.ok h.2.symm⟩

/-- What guards mean: the value or error of an expression under its guards is that of its chains,
which end with the default of their type at a receiver that may be null and is. So where the
expression has a value without guards, a reader of it has the same value. -/
theorem guardNulls_meaning (e : Expr) (s : Scope) :
    (∀ fr, e.guardNulls.eval s fr = e.meaning s fr) ∧
    ((∀ m ∈ e.methods, ¬ m.Predeclared → m.Monotone) →
      (∀ fr v, e.eval s fr = .ok v → ∃ w, e.guardNulls.eval s fr = .ok w ∧ Refines v w) ∧
      ∀ vms control v, e.checked s = .ok () → e.eval s { vms, control } = .ok (.value v) →
        ∃ r, Reader.compile e s = .ok r ∧ r.read vms control = .ok (.value v)) := by
  refine ⟨fun fr => guardNulls_eval s fr e, fun hm => ⟨fun fr v => eval_refines hm, ?_⟩⟩
  intro vms control v hc hv
  obtain ⟨w, hw, hvw⟩ := eval_refines hm hv
  refine ⟨⟨e.guardNulls, s⟩, ?_, hw.trans (congrArg Except.ok hvw.eq_of_value)⟩
  rw [Reader.compile, guardNulls_checked, hc]
  rfl

/-- A chain through a text that may be null, where it is null and where it is not. -/
theorem guardNulls_meaning_text :
    let s : Scope := ⟨{ dataType := .declared ⟨"Person", false, 2⟩ }, []⟩
    let name : Field := { name := "Name", owner := s.dataType, type := .string }
    let e := Expr.call (.member (.param "_this" s none) name) Method.anyMethods[0] []
    e.guardNulls.eval s { vms := [Value.object none [("Name", .null)]] } = .ok (.value .null) ∧
      ∃ r, Reader.compile e s = .ok r ∧
        r.read [Value.object none [("Name", .text "Ada")]] none = .ok (.value (.text "Ada")) := by
  intro s name e
  have hm : ∀ m ∈ e.methods, ¬ m.Predeclared → m.Monotone := by
    intro m hmem hp
    obtain rfl := List.mem_singleton.1 hmem
    exact absurd (.any (List.getElem_mem _)) hp
  obtain ⟨hmeaning, hdirect⟩ := guardNulls_meaning e s
  exact ⟨(hmeaning _).trans rfl, (hdirect hm).2 _ none (.text "Ada") rfl rfl⟩

/-- A declared method that sees whether a function fails: the length of a text that is null cannot
be read, but with guards it is zero. -/
theorem not_guardNulls_meaning_works :
    let s : Scope := ⟨{ dataType := .declared ⟨"Person", false, 2⟩ }, []⟩
    let works : Method :=
      { name := "Works", owner := s.dataType, isStatic := true, params := [.func [.int] .int],
        result := .bool
        run := some fun
          | _, [.func f] => .ok (Value.bool (f [.int 0]).isOk)
          | _, _ => .ok (Value.bool false) }
    let name := Expr.member (.param "_this" s none)
      { name := "Name", owner := s.dataType, type := .string }
    let e := Expr.callStatic works
      [.lambda [⟨0, "x", .int, false⟩] (.member name Ty.lengthField) (.func [.int] .int)]
    let person := Value.object none [("Name", .null)]
    e.checked s = .ok () ∧ e.eval s { vms := [person] } = .ok (.value (.bool false)) ∧
      ∃ r, Reader.compile e s = .ok r ∧ r.read [person] none = .ok (.value (.bool true)) :=
  ⟨rfl, rfl, _, rfl, rfl⟩

end Expr

end Bindery
