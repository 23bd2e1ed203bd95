import Bindery.Binding.Resolvers
import Bindery.Proofs.HoistOperators
import Bindery.Proofs.ValueScripts

/-!
# Negated bindings

The negation of an expression undoes a negation, turns an equality into the opposite one, or puts a
negation around the expression (`Expr.Opposes`). A reader of it fails where a reader of the
expression does, gives null where that gives null, and the other truth value otherwise
(`Expr.Opposes.read`). The scripts of both have the same temporaries, so one gives the negation of
what the other gives (`Script.Opposite`). A negation that is undone leaves what was under it: where
that is no truth value, neither holds (`Expr.negation_of_no_truth`).
-/

namespace Bindery

namespace Client

def Value.negated (v : Value) : Value := .bool !v.isTrue

theorem Host.binary_negated (h : Host) {op op' : BinOp} (hop : op.negated? = some op')
    (v w : Value) : h.binary op' v w = Value.negated <$> h.binary op v w := by
  cases op <;> cases hop <;>
    simp [Host.binary, Value.negated, Value.isTrue]

end Client

namespace Script

open Client

/-! ## Scripts -/

/-- The script `n` gives the negation of what `s` gives, in every environment, and assigns to the
same names. -/
structure Opposite (s n : Script) : Prop where
  assigned : n.assigned = s.assigned
  eval : ∀ (h : Host) (env : Env), n.eval h env = Client.Value.negated <$> s.eval h env

theorem opposite_not (m : Marks) (x : Script) : Opposite x (.unary m .not x) where
  assigned := rfl
  eval h env := by
    simp only [Script.eval, bare, evalRef, Host.unary, bind_assoc, map_bind, pure_bind, map_pure]
    rfl

theorem assigned_binary {op : BinOp} (hop : op ≠ .assign) (m : Marks) (x y : Script) :
    (Script.binary m op x y).assigned = x.assigned ++ y.assigned := by
  cases op <;> first | rfl | exact absurd rfl hop

theorem opposite_equality {op op' : BinOp} (hop : op.negated? = some op') (m m' : Marks)
    (x y : Script) : Opposite (.binary m op x y) (.binary m' op' x y) := by
  have hassign : op ≠ .assign := by rintro rfl; cases hop
  have hassign' : op' ≠ .assign := by rintro rfl; cases op <;> cases hop
  have hright (v : Client.Value) : needsRight op v := by cases op <;> first | rfl | cases hop
  have hright' (v : Client.Value) : needsRight op' v := by
    cases op <;> cases hop <;> rfl
  refine ⟨?_, fun h env => ?_⟩
  · rw [assigned_binary hassign, assigned_binary hassign']
  · simp only [Script.eval, bare, evalRef_binary hassign, evalRef_binary hassign', hright, hright',
      if_true, h.binary_negated hop, map_eq_pure_bind, bind_assoc, pure_bind]

theorem opposite_tidyNode (m : Marks) (x : Script) : Opposite x (tidyNode (.unary m .not x)) := by
  cases x with
  | binary bm op x y =>
    cases hop : op.negated? with
    | some op' =>
      have : tidyNode (.unary m .not (.binary bm op x y)) = .binary m op' x y := by
        simp only [tidyNode, hop]
      rw [this]
      exact opposite_equality hop bm m x y
    | none =>
      have : tidyNode (.unary m .not (.binary bm op x y)) = .unary m .not (.binary bm op x y) := by
        simp only [tidyNode, hop]
      rw [this]
      exact opposite_not m _
  | _ => exact opposite_not m _

theorem assigned_tempered (m : Marks) (temps : List Text) (out : Script) :
    (tempered m temps out).assigned = out.assigned := by
  rw [tempered]
  split
  · rfl
  · simp [assigned, assignedList]

theorem eval_tempered (h : Host) (env : Env) (m : Marks) (temps : List Text) (out : Script) :
    (tempered m temps out).eval h env = (do
      let inner ← bindParams out.assigned temps [] env
      out.eval h inner) := by
  rw [tempered]
  split
  · rename_i hempty
    rw [List.isEmpty_iff.1 hempty, bindParams, pure_bind]
  · simp only [Script.eval, bare, bareList, evalRef, evalCall, evalList, assigned_bare,
      bind_assoc, pure_bind]

theorem Opposite.tempered {s n : Script} (h : Opposite s n) (m m' : Marks) (temps : List Text) :
    Opposite (s.tempered m temps) (n.tempered m' temps) where
  assigned := by rw [assigned_tempered, assigned_tempered, h.assigned]
  eval host env := by
    rw [eval_tempered, eval_tempered, h.assigned, map_bind]
    simp only [h.eval]

/-! A negation and its operand have the same temporaries, and so have opposite equalities. -/

theorem opposite_hoist_not (m : Marks) (x : Script) :
    Opposite x.hoist.tidy (Script.unary m .not x).hoist.tidy := by
  obtain ⟨m', k, hk, hx⟩ := hoist_alone x
  rw [hx, hoist_strict (s := .unary m .not x) rfl, tidy_tempered, tidy_tempered]
  simp only [children, hk, withChildren]
  exact (opposite_tidyNode m k.tidy).tempered m' m _

theorem opposite_hoist_equality {op op' : BinOp} (hop : op.negated? = some op') (m : Marks)
    (x y : Script) :
    Opposite (Script.binary m op x y).hoist.tidy (Script.binary m op' x y).hoist.tidy := by
  obtain ⟨k, l, hkl⟩ := List.length_eq_two.1 (length_hoistedTogether [x, y])
  have hstrict : (Script.binary m op x y).isStrict := by cases op <;> first | rfl | cases hop
  have hstrict' : (Script.binary m op' x y).isStrict := by cases op <;> cases hop <;> rfl
  rw [hoist_strict hstrict, hoist_strict hstrict', tidy_tempered, tidy_tempered]
  simp only [children, hkl, withChildren]
  exact (opposite_equality hop m m k.tidy l.tidy).tempered m m _

end Script

namespace Options

open Script

variable (o : Options) {m : Marks} {x y : Script}

/-- A script with its cells read, and with null checks if they are asked for. -/
def prepared (o : Options) (s : Script) : Script :=
  if o.nullChecks then s.value.checkNulls else s.value

theorem finish_value (s : Script) : o.finish s.value = (o.prepared s).hoist.tidy := rfl

theorem prepared_operator {s : Script} (hs : s.isOperator) (hcell : s.isCell = false) :
    o.prepared s = s.withChildren (s.children.map o.prepared) := by
  have hparen : ∀ m x, s ≠ .paren m x := by rintro m x rfl; cases hs
  unfold prepared
  cases o.nullChecks with
  | true => exact checkNulls_value hs hcell
  | false =>
    simp only [Bool.false_eq_true, if_false]
    rw [value_eq hparen, hcell, if_neg Bool.false_ne_true]

theorem opposite_not (hm : m.cell = none) :
    Opposite (o.finish x.value) (o.finish (Script.unary m .not x).value) := by
  have hcell : (Script.unary m .not x).isCell = false := congrArg Option.isSome hm
  rw [finish_value, finish_value, o.prepared_operator rfl hcell]
  exact opposite_hoist_not m (o.prepared x)

theorem opposite_equality {op op' : BinOp} (hop : op.negated? = some op') (hm : m.cell = none) :
    Opposite (o.finish (Script.binary m op x y).value)
      (o.finish (Script.binary m op' x y).value) := by
  have hcell (op : BinOp) : (Script.binary m op x y).isCell = false := congrArg Option.isSome hm
  rw [finish_value, finish_value, o.prepared_operator rfl (hcell op),
    o.prepared_operator rfl (hcell op')]
  exact opposite_hoist_equality hop m (o.prepared x) (o.prepared y)

end Options

namespace Script.Opposite

open Client

variable {s n : Script} {depth : Nat} {context v : Client.Value} {σ τ : State}

theorem evalWithin_eq (h : Opposite s n) (depth : Nat) (context : Client.Value) :
    evalWithin depth n context = Client.Value.negated <$> evalWithin depth s context := by
  simp only [evalWithin, Environment.eval, h.assigned, h.eval, map_bind]

theorem run_ok (h : Opposite s n) (hrun : (evalWithin depth s context).run.run σ = (.ok v, τ)) :
    (evalWithin depth n context).run.run σ = (.ok v.negated, τ) := by
  rw [h.evalWithin_eq, map_eq_pure_bind, run_bind_ok hrun]
  rfl

theorem run_error (h : Opposite s n) {t : Thrown}
    (hrun : (evalWithin depth s context).run.run σ = (.error t, τ)) :
    (evalWithin depth n context).run.run σ = (.error t, τ) := by
  rw [h.evalWithin_eq, map_eq_pure_bind, run_bind_error hrun]

end Script.Opposite

namespace Expr

/-! ## Expressions -/

/-- The expression `n` is the negation of `e`. -/
inductive Opposes : Expr → Expr → Prop
  | undo (x : Expr) : Opposes (.unary .not x) x
  | equal (x y : Expr) (t : Ty) : Opposes (.binary .equal x y t) (.binary .notEqual x y t)
  | notEqual (x y : Expr) (t : Ty) : Opposes (.binary .notEqual x y t) (.binary .equal x y t)
  | not (e : Expr) : Opposes e (.unary .not e)

theorem exists_negation {e : Expr} (hk : e.type.kind = .bool) :
    ∃ n, e.negation = .ok n ∧ Opposes e n ∧ n.type.kind = .bool := by
  have other : ∃ n, newUnary .not e = .ok n ∧ Opposes e n ∧ n.type.kind = .bool := by
    refine ⟨.unary .not e, ?_, .not e, hk⟩
    simp [newUnary, hk]
  unfold negation
  split
  · exact ⟨_, rfl, .undo _, hk⟩
  · exact ⟨_, rfl, .equal .., hk⟩
  · exact ⟨_, rfl, .notEqual .., hk⟩
  · exact other

theorem convertTo_any {e : Expr} (hk : e.type.kind = .bool) :
    e.convertTo .any true = .ok (.convert .box e .any) := by
  have hidentical : e.type.identical .any = false := by simp [Ty.identical, hk, Ty.kind, Ty.any]
  have hany : Ty.any.kind = .any := rfl
  simp [convertTo, implicit?, hidentical, hany, hk]

/-! ### Values -/

/-- What a binding of the expression reads, of which nothing in particular is expected. -/
def readIn (s : Scope) (vms : List Value) (control : Option Control) (e : Expr) :
    Except Fault Operand :=
  match e.convertTo .any true with
  | .error err => .error err
  | .ok e' => match Reader.compile e' s with
    | .error err => .error err
    | .ok r => r.read vms control

/-- The outcomes of an expression and its negation: both fail with the same failure, both are null,
or one is true and the other is not. -/
inductive Negated : Except Fault Operand → Except Fault Operand → Prop
  | fault (f : Fault) : Negated (.error f) (.error f)
  | null : Negated (.ok (.value .null)) (.ok (.value .null))
  | bool (b : Bool) : Negated (.ok (.value (.bool b))) (.ok (.value (.bool !b)))

theorem Negated.symm {r r' : Except Fault Operand} (h : Negated r r') : Negated r' r := by
  cases h with
  | fault f => exact .fault f
  | null => exact .null
  | bool b =>
    have := Negated.bool !b
    rwa [Bool.not_not] at this

theorem Negated.unique {r r₁ r₂ : Except Fault Operand} (h₁ : Negated r r₁) (h₂ : Negated r r₂) :
    r₁ = r₂ := by
  cases h₁ <;> cases h₂ <;> rfl

def IsTruth (r : Except Fault Operand) : Prop :=
  ∀ v, r = .ok v → v = .value .null ∨ ∃ b, v = .value (.bool b)

theorem Negated.isTruth {r r' : Except Fault Operand} (h : Negated r r') : IsTruth r' := by
  rintro v rfl
  cases h with
  | null => exact .inl rfl
  | bool b => exact .inr ⟨_, rfl⟩

def core : Expr → Expr
  | .unary .not x => x.core
  | e => e

variable {s : Scope} {vms : List Value} {control : Option Control} {e n : Expr}

theorem readIn_eq (hk : e.type.kind = .bool) : e.readIn s vms control = match e.checked s with
    | .error err => .error err
    | .ok _ => e.guardNulls.eval s { vms, control } := by
  have hbox (v : Operand) : applyConversion .box .any v = v := by cases v <;> rfl
  have heval : (Expr.convert .box e .any).guardNulls.eval s { vms, control } =
      e.guardNulls.eval s { vms, control } := by
    rw [guardNulls_convert, eval]
    simp only [hbox]
    exact bind_pure _
  have hchecked : (Expr.convert .box e .any).checked s = e.checked s := rfl
  rw [readIn, convertTo_any hk]
  cases hc : e.checked s with
  | error err =>
    have : Reader.compile (.convert .box e .any) s = .error err := by
      rw [Reader.compile, guardNulls_checked, hchecked, hc]
      rfl
    simp only [this]
  | ok _ =>
    have := compile_ok_iff.2 ⟨hchecked.trans hc, rfl⟩
    simp only [this]
    exact heval

theorem eval_not (x : Expr) (fr : Frame) (hx : IsTruth (x.eval s fr)) :
    Negated (x.eval s fr) ((Expr.unary .not x).eval s fr) := by
  rw [eval]
  cases hv : x.eval s fr with
  | error f => exact .fault f
  | ok v =>
    rcases hx v hv with rfl | ⟨b, rfl⟩
    · exact .null
    · exact .bool b

theorem eval_equality (x y : Expr) (t : Ty) (fr : Frame) :
    Negated ((Expr.binary .equal x y t).eval s fr) ((Expr.binary .notEqual x y t).eval s fr) := by
  simp only [eval]
  cases x.eval s fr with
  | error f => exact .fault f
  | ok l =>
    simp only [ok_bind, applyBinary]
    cases y.eval s fr with
    | error f => exact .fault f
    | ok r => exact .bool (l.toValue.equals r.toValue)

/-! ### Truth values under negations -/

theorem of_core {P : Expr → Prop} (hnot : ∀ x, P x → P (.unary .not x)) (h : P e.core) : P e := by
  fun_induction core e with
  | case1 x ih => exact hnot x (ih h)
  | case2 e _ => exact h

theorem core_of {P : Expr → Prop} (hnot : ∀ x, P (.unary .not x) → P x) (h : P e) : P e.core := by
  fun_induction core e with
  | case1 x ih => exact ih (hnot x h)
  | case2 e _ => exact h

theorem core_type (e : Expr) : e.core.type = e.type :=
  (of_core (P := fun x => x.type = e.core.type) (fun _ h => h) rfl).symm

theorem core_checked (s : Scope) (e : Expr) : e.core.checked s = e.checked s :=
  (of_core (P := fun x => x.checked s = e.core.checked s) (fun _ h => h) rfl).symm

theorem isTruth_of_core {fr : Frame} (h : IsTruth (e.core.guardNulls.eval s fr)) :
    IsTruth (e.guardNulls.eval s fr) :=
  of_core (P := fun x => IsTruth (x.guardNulls.eval s fr))
    (fun _ hx => (eval_not _ fr hx).isTruth) h

/-- The value of the negation, if there is a truth value or null under all negations. -/
theorem Opposes.eval (h : Opposes e n) {fr : Frame}
    (hcore : IsTruth (e.core.guardNulls.eval s fr)) :
    Negated (e.guardNulls.eval s fr) (n.guardNulls.eval s fr) := by
  -- Guards stay inside an equality, whichever it is.
  have guarded (x y : Expr) (t : Ty) : ∃ x' y',
      (Expr.binary .equal x y t).guardNulls = .binary .equal x' y' t ∧
      (Expr.binary .notEqual x y t).guardNulls = .binary .notEqual x' y' t := ⟨_, _, rfl, rfl⟩
  cases h with
  | undo =>
    rw [guardNulls_unary]
    exact (eval_not _ fr (isTruth_of_core (e := n) hcore)).symm
  | equal x y t =>
    obtain ⟨x', y', hequal, hnotEqual⟩ := guarded x y t
    rw [hequal, hnotEqual]
    exact eval_equality x' y' t fr
  | notEqual x y t =>
    obtain ⟨x', y', hequal, hnotEqual⟩ := guarded x y t
    rw [hequal, hnotEqual]
    exact (eval_equality x' y' t fr).symm
  | not =>
    rw [guardNulls_unary]
    exact eval_not _ fr (isTruth_of_core hcore)

/-- A well-typed expression of truth values reads as a truth value or null. -/
theorem isTruth_of_wellTyped {u : Universe} (hn : u.WellNamed) (hu : u.Sound) (hs : s.Formed u)
    (hfr : Frame.Typed u s [] { vms, control }) (he : e.WellTyped u s [])
    (hr : e.receiversHaveValues) (hk : e.type.kind = .bool) :
    IsTruth (e.readIn s vms control) := by
  intro v hv
  rw [readIn_eq hk] at hv
  split at hv
  · cases hv
  have hgives := guardNulls_gives hn hu hs hfr he hr
  rw [hv] at hgives
  obtain ⟨w, rfl, hw⟩ := Operand.HasType.eq_value hgives (by rw [hk]; simp) (by rw [hk]; simp)
  by_cases hnull : w = .null
  · exact .inl (congrArg Operand.value hnull)
  · obtain ⟨b, rfl⟩ := hw.eq_bool hk hnull
    exact .inr ⟨b, rfl⟩

/-- The expression is well typed, and is read in data contexts and with special parameters of the
types that the scope says. -/
def ReadsTyped (s : Scope) (vms : List Value) (control : Option Control) (e : Expr) : Prop :=
  ∃ u : Universe, u.WellNamed ∧ u.Sound ∧ s.Formed u ∧ Frame.Typed u s [] { vms, control } ∧
    e.WellTyped u s [] ∧ e.receiversHaveValues

theorem ReadsTyped.isTruth_core (h : e.ReadsTyped s vms control) (hk : e.type.kind = .bool) :
    IsTruth (e.core.readIn s vms control) := by
  obtain ⟨u, hn, hu, hs, hfr, he, hr⟩ := h
  obtain ⟨he, hr⟩ : e.core.WellTyped u s [] ∧ e.core.receiversHaveValues :=
    core_of (P := fun x => x.WellTyped u s [] ∧ x.receiversHaveValues)
      (fun _ hx => ⟨hx.1.1, hx.2⟩) ⟨he, hr⟩
  exact isTruth_of_wellTyped hn hu hs hfr he hr (e.core_type ▸ hk)

/-- What is read of an expression and of its negation, if a truth value or null is read under all
negations. The same then holds of the negation. -/
theorem Opposes.read (h : Opposes e n) (hk : e.type.kind = .bool) (hkn : n.type.kind = .bool)
    (hcore : IsTruth (e.core.readIn s vms control)) :
    Negated (e.readIn s vms control) (n.readIn s vms control) ∧
      IsTruth (n.core.readIn s vms control) := by
  have hchecked : n.checked s = e.checked s := by cases h <;> rfl
  have hnegated : Negated (e.readIn s vms control) (n.readIn s vms control) := by
    rw [readIn_eq (e.core_type ▸ hk), core_checked] at hcore
    rw [readIn_eq hk, readIn_eq hkn, hchecked]
    cases hc : e.checked s with
    | error err => exact .fault err
    | ok _ =>
      rw [hc] at hcore
      exact h.eval hcore
  refine ⟨hnegated, ?_⟩
  cases h with
  | undo | not => exact hcore
  | equal | notEqual => exact hnegated.isTruth

/-! ### Scripts -/

/-- The value script of a binding of the expression, of which nothing in particular is expected. -/
def valueScript (o : Options) (s : Scope) (e : Expr) : Except Fault Script :=
  match e.convertTo .any true with
  | .error err => .error err
  | .ok e' => do return o.finish (← e'.lower o.registry s).value

theorem valueScript_eq (o : Options) (hk : e.type.kind = .bool) :
    e.valueScript o s = do return o.finish (← e.lower o.registry s).value := by
  rw [valueScript, convertTo_any hk]
  simp only [lower]
  cases e.lower o.registry s <;> rfl

theorem Opposes.lower (h : Opposes e n) {r : Registry} {t : Script} (ht : e.lower r s = .ok t) :
    ∃ t', n.lower r s = .ok t' ∧
      ((∀ o : Options, (o.finish t.value).Opposite (o.finish t'.value)) ∨
        e = .unary .not n ∧ ∀ o : Options, (o.finish t'.value).Opposite (o.finish t.value)) := by
  have operands {op : BinaryOp} {x y : Expr} {ty : Ty}
      (ht : (Expr.binary op x y ty).lower r s = .ok t) :
      ∃ x' y', x.lower r s = .ok x' ∧ y.lower r s = .ok y' ∧
        t = lowerBinary op ty x.type y.type x' y' := by
    obtain ⟨x', hx, ht⟩ := bind_ok_iff.1 ht
    obtain ⟨y', hy, ht⟩ := bind_ok_iff.1 ht
    exact ⟨x', y', hx, hy, (Except.ok.inj ht).symm⟩
  have equality (op : BinaryOp) {x y : Expr} {x' y' : Script} (hx : x.lower r s = .ok x')
      (hy : y.lower r s = .ok y') (ty : Ty) :
      (Expr.binary op x y ty).lower r s = .ok (lowerBinary op ty x.type y.type x' y') := by
    rw [Expr.lower, hx, hy]
    rfl
  cases h with
  | undo =>
    obtain ⟨t', hn, ht⟩ := bind_ok_iff.1 ht
    obtain rfl := Except.ok.inj ht
    exact ⟨t', hn, .inr ⟨rfl, fun o => o.opposite_not rfl⟩⟩
  | equal x y ty =>
    obtain ⟨x', y', hx, hy, rfl⟩ := operands ht
    exact ⟨_, equality .notEqual hx hy ty, .inl fun o => o.opposite_equality rfl rfl⟩
  | notEqual x y ty =>
    obtain ⟨x', y', hx, hy, rfl⟩ := operands ht
    exact ⟨_, equality .equal hx hy ty, .inl fun o => o.opposite_equality rfl rfl⟩
  | not =>
    refine ⟨(Script.unary {} .not t).typed e.type, ?_, .inl fun o => o.opposite_not rfl⟩
    rw [Expr.lower, ht]
    rfl

/-- Every expression of truth values has a negation. Where it is well typed and read in data of the
right types, or at least reads as a truth value or null under all negations, its negation fails
where it fails, is null where it is null, and is the other truth value otherwise; and the negation
of the negation reads as the expression does. Where the value script gives a truth value, that of
the negation gives the other one, if that of the operand of a negation gives a truth value, too. -/
theorem negation_sound (hk : e.type.kind = .bool) : ∃ n, e.negation = .ok n ∧
    (∀ s vms control, e.ReadsTyped s vms control ∨ IsTruth (e.core.readIn s vms control) →
      Negated (e.readIn s vms control) (n.readIn s vms control) ∧
      ∃ n', n.negation = .ok n' ∧ n'.readIn s vms control = e.readIn s vms control) ∧
    ∀ o s script, e.valueScript o s = .ok script → ∃ script', n.valueScript o s = .ok script' ∧
      ∀ depth context σ b τ,
        (Client.evalWithin depth script context).run.run σ = (.ok (.bool b), τ) →
        (e = .unary .not n → ∀ v τ',
          (Client.evalWithin depth script' context).run.run σ = (.ok v, τ') → ∃ b', v = .bool b') →
        (Client.evalWithin depth script' context).run.run σ = (.ok (.bool !b), τ) := by
  obtain ⟨n, hn, hopp, hkn⟩ := exists_negation hk
  refine ⟨n, hn, fun s vms control hread => ?_, fun o s script hscript => ?_⟩
  · have hcore : IsTruth (e.core.readIn s vms control) := hread.elim (·.isTruth_core hk) id
    obtain ⟨hnegated, hcore'⟩ := hopp.read hk hkn hcore
    obtain ⟨n', hn', hopp', hkn'⟩ := exists_negation hkn
    exact ⟨hnegated, n', hn', (hopp'.read hkn hkn' hcore').1.unique hnegated.symm⟩
  · rw [valueScript_eq o hk] at hscript
    obtain ⟨t, ht, hscript⟩ := bind_ok_iff.1 hscript
    obtain rfl := Except.ok.inj hscript
    obtain ⟨t', ht', hopposite⟩ := hopp.lower ht
    refine ⟨o.finish t'.value, ?_, fun depth context σ b τ hrun htruth => ?_⟩
    · rw [valueScript_eq o hkn, ht']
      rfl
    rcases hopposite with h | ⟨hundone, h⟩
    · exact (h o).run_ok hrun
    -- The script of a negation says what that of its operand gave.
    cases hinner : (Client.evalWithin depth (o.finish t'.value) context).run.run σ with
    | mk r τ' =>
      cases r with
      | error cause =>
        rw [(h o).run_error hinner] at hrun
        cases hrun
      | ok v =>
        obtain ⟨b', rfl⟩ := htruth hundone v τ' hinner
        rw [(h o).run_ok hinner] at hrun
        obtain ⟨hb, rfl⟩ := Prod.mk.inj hrun
        obtain rfl : (!b') = b := Client.Value.bool.inj (Except.ok.inj hb)
        rw [Bool.not_not]

/-! ### A negation that is undone -/

def truths : Scope := ⟨{ dataType := .bool }, []⟩

def truthLists : Scope := ⟨{ dataType := .list .bool (.func [.bool] .bool) }, []⟩

/-- `!_this` -/
def notThis : Expr := .unary .not (dataContext truths "_this")

/-- `!_this[0]` -/
def notFirst : Expr :=
  .unary .not (.index (dataContext truthLists "_this") (.const (.int 0) .int) .bool)

def contextOf (data : Client.Value) : Client.Value := .object 0 [("$data", data)]

theorem negation_sound_notThis : notThis.type.kind = .bool ∧ ∃ n script, notThis.negation = .ok n ∧
    notThis.readIn truths [.bool true] none = .ok (.value (.bool false)) ∧
    n.readIn truths [.bool true] none = .ok (.value (.bool true)) ∧
    n.valueScript {} truths = .ok script ∧
    (Client.evalWithin 8 script (contextOf (.bool true))).run.run {} = (.ok (.bool true), {}) := by
  obtain ⟨n, hn, hread, hscript⟩ := negation_sound (e := notThis) rfl
  obtain rfl : dataContext truths "_this" = n := Except.ok.inj hn
  have htruth : IsTruth (notThis.core.readIn truths [.bool true] none) := fun v hv =>
    .inr ⟨true, (Except.ok.inj hv).symm⟩
  obtain ⟨hnegated, -⟩ := hread truths [.bool true] none (.inr htruth)
  have hvalue : notThis.readIn truths [.bool true] none = .ok (.value (.bool false)) := rfl
  rw [hvalue] at hnegated
  obtain ⟨script, hs, hrun⟩ := hscript {} truths _ rfl
  refine ⟨rfl, _, script, hn, hvalue, (hnegated.unique (.bool false)), hs, ?_⟩
  refine hrun 8 (contextOf (.bool true)) {} false {} rfl fun _ v τ hv => ⟨true, ?_⟩
  obtain rfl := Except.ok.inj hs
  exact (Except.ok.inj (congrArg Prod.fst hv)).symm

/-- Where no truth value is under a negation, undoing the negation gives no truth value: data of
another type are read, where the expression has no value, and the script of an element that is not
there gives nothing, where that of the expression is true. -/
theorem negation_of_no_truth :
    (∃ n, notThis.negation = .ok n ∧ notThis.readIn truths [.int 5] none = .error .misfit ∧
      n.readIn truths [.int 5] none = .ok (.value (.int 5))) ∧
    ∃ n script script', notFirst.negation = .ok n ∧ notFirst.type = .bool ∧
      notFirst.valueScript {} truthLists = .ok script ∧ n.valueScript {} truthLists = .ok script' ∧
      (Client.evalWithin 8 script (contextOf (.array 1 []))).run.run {} = (.ok (.bool true), {}) ∧
      (Client.evalWithin 8 script' (contextOf (.array 1 []))).run.run {} = (.ok .undefined, {}) :=
  ⟨⟨_, rfl, rfl, rfl⟩, _, _, _, rfl, rfl, rfl, rfl, rfl, rfl⟩

end Expr

end Bindery
