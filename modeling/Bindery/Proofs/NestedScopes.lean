import Bindery.Proofs.ExpressionParts

/-!
# Expressions in a scope inside their own

An expression of a scope is accepted in each scope whose parent that scope is, and it has the value
there that it has in its own scope: the data contexts and the levels of parameters shift by one
(`Reader.read_nested`).
-/

namespace Bindery

theorem Scope.outer_of_parent {s t : Scope} (h : s.parent? = some t) : s.outer = t.levels := by
  unfold parent? at h
  cases houter : s.outer with
  | nil => rw [houter] at h; cases h
  | cons l ls =>
    rw [houter] at h
    cases h
    rfl

namespace Expr

variable {s t : Scope}

theorem levelsOut_nested (hs : s.parent? = some t) {n : Text} {owner : Scope} {k : Nat}
    (h : levelsOut t n owner = .ok k) :
    levelsOut s n owner = .ok (k + 1) ∧ owner.depth + k = t.depth := by
  have houter := Scope.outer_of_parent hs
  have hdepth : s.depth = t.depth + 1 := by simp [Scope.depth, houter, Scope.levels]
  unfold levelsOut at h ⊢
  simp only [hdepth]
  cases ha : t.ancestor? (t.depth - owner.depth) with
  | none => simp only [ha] at h; cases h
  | some a =>
    simp only [ha] at h
    split at h
    · rename_i hcond
      simp only [Bool.and_eq_true, decide_eq_true_eq] at hcond
      obtain rfl := Except.ok.inj h
      have hanc : s.ancestor? (t.depth + 1 - owner.depth) = some a := by
        rw [Nat.sub_add_comm hcond.1, ← ha, Scope.ancestor?, Scope.ancestor?, Scope.levels, houter,
          List.drop_succ_cons]
      simp only [hanc, hcond.2, Bool.and_true, decide_eq_true (Nat.le_succ_of_le hcond.1), if_true]
      exact ⟨congrArg _ (Nat.sub_add_comm hcond.1), Nat.add_sub_cancel' hcond.1⟩
    · cases h

theorem checkedHere_nested (hs : s.parent? = some t) {e : Expr} (h : e.checkedHere t = .ok ()) :
    e.checkedHere s = .ok () := by
  cases e with
  | param n owner special =>
    rw [checkedHere] at h ⊢
    cases hk : levelsOut t n owner with
    | error e => rw [hk] at h; cases h
    | ok k => rw [(levelsOut_nested hs hk).1]; rfl
  | _ => exact h

theorem checked_nested (hs : s.parent? = some t) (e : Expr) (h : e.checked t = .ok ()) :
    e.checked s = .ok () := by
  induction e using induction_children with
  | h e ih =>
    obtain ⟨hchildren, hhere⟩ := checked_ok_iff.1 h
    exact checked_ok_iff.2 ⟨fun x hx => ih x hx (hchildren x hx), checkedHere_nested hs hhere⟩

end Expr

/-- The second control answers one level further out as the first one does. -/
def Control.Shifts : Option Control → Option Control → Prop :=
  Option.Rel fun c c' => ∀ p n, c' p (n + 1) = c p n

namespace Frame

/-- The frame in a scope inside the given one: with one data context more. -/
def nested (x : Value) (control : Option Control) (fr : Frame) : Frame :=
  { fr with vms := x :: fr.vms, control }

theorem bindAll_nested (x : Value) (control : Option Control) (fr : Frame) (ls : List Local)
    (vs : List Value) :
    (fr.nested x control).bindAll ls vs = (fr.bindAll ls vs).nested x control := by
  induction ls generalizing fr vs with
  | nil => rfl
  | cons l ls ih =>
    cases vs with
    | nil => rfl
    | cons v vs => exact ih (fr.bind l v) vs

theorem bindAll_vms (fr : Frame) (ls : List Local) (vs : List Value) :
    (fr.bindAll ls vs).vms = fr.vms ∧ (fr.bindAll ls vs).control = fr.control := by
  induction ls generalizing fr vs with
  | nil => exact ⟨rfl, rfl⟩
  | cons l ls ih =>
    cases vs with
    | nil => exact ⟨rfl, rfl⟩
    | cons v vs => exact ih (fr.bind l v) vs

end Frame

namespace Expr

variable {s t : Scope} {control' : Option Control}

theorem readParam_nested (e : Expr) {fr : Frame} (hcontrol : Control.Shifts fr.control control')
    (x : Value) (p : Param) (k : Nat) :
    readParam e (fr.nested x control') p (k + 1) = readParam e fr p k := by
  obtain ⟨vms, control, vars⟩ := fr
  change Control.Shifts control control' at hcontrol
  cases hcontrol with
  | none => rfl
  | some h => simp only [readParam, Frame.nested, h p k]

theorem evalList_congr (es : List Expr) {fr fr' : Frame}
    (h : ∀ e ∈ es, e.eval s fr = e.eval t fr') : evalList s fr es = evalList t fr' es := by
  induction es with
  | nil => rfl
  | cons e es ih =>
    rw [evalList, evalList, h e List.mem_cons_self, ih fun x hx => h x (List.mem_cons_of_mem e hx)]

/-- An expression that is accepted in a scope has the same value one level further in, if there is a
data context for each level. -/
theorem eval_nested (hs : s.parent? = some t) (x : Value) (e : Expr) {fr : Frame}
    (h : e.checked t = .ok ()) (hlen : fr.vms.length = t.depth + 1)
    (hcontrol : Control.Shifts fr.control control') :
    e.eval s (fr.nested x control') = e.eval t fr := by
  induction e using induction_children generalizing fr with
  | h e ih =>
    have hchildren := (checked_ok_iff.1 h).1
    have hkids y (hy : y ∈ e.children) := ih y hy (hchildren y hy) hlen hcontrol
    cases e with
    | param n owner special =>
      cases hk : levelsOut t n owner with
      | error e => simp only [checked, hk] at h; cases h
      | ok k =>
        obtain ⟨hk', hdepth⟩ := levelsOut_nested hs hk
        simp only [eval, hk, hk']
        cases special with
        | some p => exact readParam_nested _ hcontrol x p k
        | none =>
          have hlt : k < fr.vms.length := by omega
          simp only [Frame.nested, List.getElem?_cons_succ, List.getElem?_eq_getElem hlt]
    | typeRef => cases h
    | var | const => rfl
    | call y m args =>
      rw [eval, eval, hkids y List.mem_cons_self,
        evalList_congr args fun a ha => hkids a (List.mem_cons_of_mem y ha)]
    | callStatic m args | list args => rw [eval, eval, evalList_congr args hkids]
    | lambda ps b u =>
      rw [eval, eval]
      refine congrArg (fun f => Except.ok (Operand.func f)) (funext fun args => ?_)
      obtain ⟨hvms, hctl⟩ := fr.bindAll_vms ps args
      have hb : b ∈ children (.lambda ps b u) := List.mem_singleton_self b
      rw [Frame.bindAll_nested]
      exact ih b hb (hchildren b hb) (by rw [hvms, hlen]) (by rw [hctl]; exact hcontrol)
    | guard y v b u =>
      rw [eval, eval, hkids y List.mem_cons_self]
      refine congrArg _ (funext fun recv => ?_)
      have hb : b ∈ children (.guard y v b u) := by simp [children]
      have hlen : (fr.bind v recv).vms.length = t.depth + 1 := hlen
      have hbody := ih b hb (hchildren b hb) hlen hcontrol
      exact congrArg (fun r => if recv.isNull = true then _ else r) hbody
    | _ =>
      simp only [children, List.mem_cons, List.not_mem_nil, or_false, forall_eq_or_imp,
        forall_eq] at hkids
      simp only [eval, hkids]

end Expr

/-- A binding is accepted in a scope inside its own and reads there what it reads in its own
scope. -/
theorem Reader.read_nested {s t : Scope} (hs : s.parent? = some t) {e : Expr} {r : Reader}
    (h : Reader.compile e t = .ok r) : ∃ r', Reader.compile e s = .ok r' ∧
      ∀ (x : Value) (vms : List Value) (control control' : Option Control),
        vms.length = t.depth + 1 → Control.Shifts control control' →
          r'.read (x :: vms) control' = r.read vms control := by
  obtain ⟨_, hchecked, hr⟩ := bind_ok_iff.1 h
  obtain rfl := Except.ok.inj hr
  refine ⟨⟨e.guardNulls, s⟩, ?_, fun x vms control control' hlen hcontrol => ?_⟩
  · rw [Reader.compile, Expr.checked_nested hs _ hchecked]
    rfl
  · have hlen' : ({ vms, control } : Frame).vms.length = t.depth + 1 := hlen
    exact Expr.eval_nested hs x e.guardNulls hchecked hlen' hcontrol

end Bindery
