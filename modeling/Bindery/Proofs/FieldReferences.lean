import Bindery.Proofs.ExpressionParts
import Bindery.Proofs.PageIndexes
import Mathlib.Logic.Relation

/-!
# Referenced fields

`ReferencedProperties` of a binding lists the fields that its expression accesses, in pre-order
(`Expr.accessed`), and names as the main one the field that is left when everything around it is
taken off (`Expr.Wraps`). The argument of a static `ToString` is taken off like the receiver of an
instance method, so a static `ToString` without arguments has nothing under it and the request
crashes (`Compiler.referenced_fields`).
-/

namespace Bindery

namespace Expr

variable {e x : Expr}

/-! ## Fields in pre-order -/

mutual

/-- The fields that member nodes access: that of the node, then those of its parts in order. -/
def accessed : Expr → List Field
  | .param .. | .var _ | .const .. | .typeRef _ => []
  | .member x f => f :: accessed x
  | .call x _ args => accessed x ++ accessedAll args
  | .callStatic _ args => accessedAll args
  | .index x k _ => accessed x ++ accessed k
  | .unary _ x => accessed x
  | .binary _ x y _ => accessed x ++ accessed y
  | .cond c t e _ => accessed c ++ accessed t ++ accessed e
  | .convert _ x _ => accessed x
  | .lambda _ b _ => accessed b
  | .list xs _ => accessedAll xs
  | .guard x _ b _ => accessed x ++ accessed b

def accessedAll : List Expr → List Field
  | [] => []
  | x :: xs => accessed x ++ accessedAll xs

end

def field? : Expr → Option Field
  | .member _ f => some f
  | _ => none

theorem accessed_eq (e : Expr) : e.accessed = e.field?.toList ++ e.children.flatMap accessed := by
  have hall (xs : List Expr) : accessedAll xs = xs.flatMap accessed := by
    induction xs with
    | nil => rfl
    | cons x xs ih => rw [accessedAll, ih, List.flatMap_cons]
  cases e <;> simp [accessed, field?, children, hall]

theorem fields_eq_accessed (e : Expr) : e.fields = e.accessed := by
  induction e using induction_children with
  | h e ih =>
    have hhead : [e].filterMap field? = e.field?.toList := by
      cases h : e.field? <;> simp [h]
    rw [accessed_eq, show e.fields = e.nodes.filterMap field? from rfl, nodes_eq,
      ← List.singleton_append, List.filterMap_append, List.filterMap_flatMap, hhead]
    exact congrArg _ (List.flatMap_congr ih)

/-! ## Unwrapping -/

/-- The expression is a conversion of `x`, a unary operation on it, an operation with a constant, or
a call of `ToString`. -/
inductive Wraps : Expr → Expr → Prop where
  | unary (op : UnaryOp) (x : Expr) : Wraps (.unary op x) x
  | convert (k : Conversion) (x : Expr) (t : Ty) : Wraps (.convert k x t) x
  | call {m : Method} (h : m.name = "ToString") (x : Expr) (args : List Expr) :
      Wraps (.call x m args) x
  | callStatic {m : Method} (h : m.name = "ToString") (x : Expr) (args : List Expr) :
      Wraps (.callStatic m (x :: args)) x
  | left (op : BinaryOp) (x : Expr) {y : Expr} (hy : y.isConst) (t : Ty) :
      Wraps (.binary op x y t) x
  | right (op : BinaryOp) {x y : Expr} (hx : x.isConst) (hy : y.isConst = false) (t : Ty) :
      Wraps (.binary op x y t) y

/-- Under everything that is wrapped around it, the expression is a static `ToString` without
arguments. -/
def WrapsBareToString (e : Expr) : Prop :=
  ∃ m : Method, m.name = "ToString" ∧ Relation.ReflTransGen Wraps e (.callStatic m [])

theorem Wraps.unwrap?_eq (h : Wraps e x) : e.unwrap? = x.unwrap? := by
  cases h <;> simp_all [unwrap?, unwrapFirst?]

theorem Wraps.accessed_subset (h : Wraps e x) : x.accessed ⊆ e.accessed := by
  cases h <;> simp [accessed, accessedAll]

theorem WrapsBareToString.unwrap?_eq_none (h : e.WrapsBareToString) : e.unwrap? = none := by
  obtain ⟨m, hm, hsteps⟩ := h
  induction hsteps using Relation.ReflTransGen.head_induction_on with
  | refl => simp [unwrap?, unwrapFirst?, hm]
  | head hstep _ ih => exact hstep.unwrap?_eq.trans ih

/-- Unwrapping ends at a static `ToString` without arguments, or at what everything is wrapped
around. -/
theorem exists_wraps_unwrap? (e : Expr) :
    e.WrapsBareToString ∨ ∃ x, e.unwrap? = some x ∧ Relation.ReflTransGen Wraps e x := by
  -- Induction on the size, one step for what is wrapped around.
  induction hn : sizeOf e using Nat.strongRecOn generalizing e with
  | ind n ih =>
    have around {x : Expr} (h : Wraps e x) (hsize : sizeOf x < sizeOf e) :
        e.WrapsBareToString ∨ ∃ y, e.unwrap? = some y ∧ Relation.ReflTransGen Wraps e y := by
      rcases ih (sizeOf x) (hn ▸ hsize) x rfl with ⟨m, hm, hsteps⟩ | ⟨y, hy, hsteps⟩
      · exact .inl ⟨m, hm, hsteps.head h⟩
      · exact .inr ⟨y, h.unwrap?_eq.trans hy, hsteps.head h⟩
    have core (h : e.unwrap? = some e) :
        e.WrapsBareToString ∨ ∃ y, e.unwrap? = some y ∧ Relation.ReflTransGen Wraps e y :=
      .inr ⟨e, h, .refl⟩
    cases e with
    | unary op x => exact around (.unary op x) (by simp only [unary.sizeOf_spec]; omega)
    | convert k x t => exact around (.convert k x t) (by simp; omega)
    | call x m args =>
      by_cases h : m.name = "ToString"
      · exact around (.call h x args) (by simp; omega)
      · exact core (by simp [unwrap?, h])
    | callStatic m args =>
      by_cases h : m.name = "ToString"
      · cases args with
        | nil => exact .inl ⟨m, h, .refl⟩
        | cons x args => exact around (.callStatic h x args) (by simp; omega)
      · exact core (by simp [unwrap?, h])
    | binary op x y t =>
      cases hy : y.isConst with
      | true => exact around (.left op x hy t) (by simp; omega)
      | false =>
        cases hx : x.isConst with
        | true => exact around (.right op hx hy t) (by simp; omega)
        | false => exact core (by simp [unwrap?, hx, hy])
    | _ => exact core rfl

theorem accessed_subset (h : Relation.ReflTransGen Wraps e x) : x.accessed ⊆ e.accessed := by
  induction h with
  | refl => exact List.Subset.refl _
  | tail _ hstep ih => exact List.Subset.trans hstep.accessed_subset ih

end Expr

/-! ## Requests -/

/-- The expression of a binding is known, or it is what the source denotes in the data context. -/
def Workspace.Denotes (u : Universe) (w : Workspace) (b : Binding) (e : Expr) : Prop :=
  w.known? b .parsedExpression = some (.ok (.expr e)) ∨
    w.known? b .parsedExpression = none ∧ (∀ t, e ≠ .typeRef t) ∧ ∃ src s names,
      w.known? b .originalString = some (.ok (.text src)) ∧
      w.known? b .dataContext = some (.ok (.scope s)) ∧
      (Source.expression src s u).run.run w.names = (.ok e, names)

namespace Compiler

open Resolving

variable {u : Universe} {o : Options} {w : Workspace} {b : Binding} {e : Expr}

/-- The text of a binding is parsed in its data context when the expression is asked for. -/
theorem parsedExpression_run {n : Nat} {chain : List Property} {src : Text} {s : Scope}
    {names : Source.Session}
    (hexpr : w.known? b .parsedExpression = none) (hchain : .parsedExpression ∉ chain)
    (hsource : w.known? b .originalString = some (.ok (.text src)))
    (hscope : w.known? b .dataContext = some (.ok (.scope s)))
    (hparse : (Source.expression src s u).run.run w.names = (.ok e, names))
    (he : ∀ t, e ≠ .typeRef t) :
    ∃ trace, ((standard u o).getWithin b (n + 2) chain .parsedExpression).run.run w =
      (.ok (.expr e), ({ w with trace, names }).record b .parsedExpression (.ok (.expr e))) := by
  obtain ⟨run, hfun⟩ : ∃ run, (Resolver.parsedExpression u).run = some run := ⟨_, rfl⟩
  have hparsed : parsed (.ok e) = .ok (.expr e) := by
    cases e with
    | typeRef t => exact absurd rfl (he t)
    | _ => rfl
  exact getWithin_recorded (o := .ok (.expr e)) (x := fun trace => { w with trace, names }) hexpr
    hchain (function?_eq_some.2 ⟨rfl, hfun⟩)
    (fun trace => hparsed ▸ compute_parsed (w := { w with trace }) hfun hsource hscope hparse)
    fun _ => hexpr

theorem contextOf_run (n : Nat) :
    ∃ s, (Resolver.contextOf ((standard u o).getWithin b (n + 1) [] .dataContext)).run.run w =
      (.ok s, w) := by
  rcases getWithin_input (c := standard u o) (p := .dataContext) rfl List.not_mem_nil b w n with
    ⟨v, hv⟩ | ⟨e, hrun⟩
  · have hrun := run_attempt ((standard u o).getWithin b (n + 1) [] .dataContext) w
    rw [getWithin_known hv] at hrun
    cases v with
    | scope s => exact ⟨some s, run_bind_ok hrun⟩
    | _ => exact ⟨none, run_bind_ok hrun⟩
  · exact ⟨none, run_bind_ok (by rw [run_attempt, hrun])⟩

section Value

variable {run : Binding → Resolving Artifact → List Artifact → Resolving Artifact}
  (hrun : Resolver.referencedProperties.run = some run)
  {ask : Resolving Artifact} {x : Workspace}

include hrun

theorem references_crash (h : e.unwrap? = none) :
    (run b ask [.expr e]).run.run x = (.error .misfit, x) := by
  obtain rfl := Option.some.inj hrun
  simp only [h]
  rfl

theorem references_value {inner : Expr} (h : e.unwrap? = some inner) {s : Option Scope}
    (hcontext : (Resolver.contextOf ask).run.run x = (.ok s, x)) :
    ∃ memo, (run b ask [.expr e]).run.run x =
      (.ok (.references { main := inner.field?, all := e.accessed, unwrapped := (x.add memo).1 }),
        (x.add memo).2) := by
  obtain rfl := Option.some.inj hrun
  simp only [h, e.fields_eq_accessed]
  exact ⟨_, run_bind_ok hcontext⟩

end Value

variable (hb : b.number < w.memos.size) (h : w.Denotes u b e)
  (hw : w.known? b .referencedProperties = none) (o : Options)

include hb h hw

theorem parsed_run (trace : List Text) :
    ∃ x : Workspace, ((standard u o).getWithin b Property.all.length [.referencedProperties]
      .parsedExpression).run.run { w with trace } = (.ok (.expr e), x) ∧
        x.known? b .referencedProperties = none ∧ b.number < x.memos.size := by
  rcases h with hgiven | ⟨hexpr, he, src, s, names, hsource, hscope, hparse⟩
  · exact ⟨_, getWithin_known (w := { w with trace }) hgiven, hw, hb⟩
  · have hchain : Property.parsedExpression ∉ [.referencedProperties] := by simp
    obtain ⟨trace', hrun⟩ := parsedExpression_run (u := u) (o := o)
      (n := Property.all.length - 2)
      (w := { w with trace }) hexpr hchain hsource hscope hparse he
    refine ⟨_, hrun, ?_, ?_⟩
    · rw [Workspace.known_record]
      · exact hw
      · exact hb
    · rw [Workspace.size_record]
      exact hb

theorem referencedProperties_run :
    e.unwrap? = none ∧ (((standard u o).get b .referencedProperties).run.run w).1 = .error .misfit ∨
      ∃ inner unwrapped, e.unwrap? = some inner ∧
        (((standard u o).get b .referencedProperties).run.run w).1 =
          .ok (.references { main := inner.field?, all := e.accessed, unwrapped }) := by
  obtain ⟨run, hfun⟩ : ∃ run, Resolver.referencedProperties.run = some run := ⟨_, rfl⟩
  obtain ⟨trace, hrun⟩ := getWithin_computed (c := standard u o) (n := Property.all.length) hw
    List.not_mem_nil (function?_eq_some.2 ⟨rfl, hfun⟩)
  obtain ⟨x, hask, hx, hbx⟩ := parsed_run hb h hw o trace
  have hneeded : (required ((standard u o).getWithin b Property.all.length [.referencedProperties])
      [.parsedExpression]).run.run { w with trace } = (.ok [.expr e], x) := by
    rw [required, run_bind_ok hask]
    rfl
  obtain ⟨s, hcontext⟩ := contextOf_run (u := u) (o := o) (b := b) (w := x) 30
  have hcompute {a : Except Fault Artifact} {y : Workspace}
      (h : (run b ((standard u o).getWithin b Property.all.length [] .dataContext)
        [.expr e]).run.run x = (a, y)) :
      ((standard u o).compute b Property.all.length [.referencedProperties]
        Resolver.referencedProperties run).run.run { w with trace } = (a, y) :=
    (run_bind_ok hneeded).trans h
  cases hunwrap : e.unwrap? with
  | none =>
    have hcrash := hcompute (references_crash hfun hunwrap)
    have hget := hrun.trans (run_bind_error (e := .misfit) (by rw [run_attempt, hcrash]; rfl))
    refine .inl ⟨rfl, ?_⟩
    rw [get, run_bind_error (e := .misfit) (by rw [run_attempt, hget]; rfl)]
  | some inner =>
    obtain ⟨memo, hvalue⟩ := references_value hfun hunwrap hcontext
    have hfresh : (x.add memo).2.known? b .referencedProperties = none := by
      rwa [Workspace.known?, (x.gains_add memo).others b hbx]
    have hsettle := hrun.trans (run_bind_ok (by rw [run_attempt, hcompute hvalue]))
    rw [run_settle, hfresh] at hsettle
    exact .inr ⟨inner, _, rfl, congrArg Prod.fst (get_run_ok hsettle)⟩

/-- The fields that the expression of a binding accesses are referenced in pre-order, the main one
among them, unless unwrapping the expression comes to a static `ToString` without arguments: then
the request crashes. -/
theorem referenced_fields :
    let answer := (((standard u o).get b .referencedProperties).run.run w).1
    e.WrapsBareToString ∧ answer = .error .misfit ∨
      ¬ e.WrapsBareToString ∧ ∃ r : References, answer = .ok (.references r) ∧ r.all = e.accessed ∧
        ∀ f, r.main = some f → f ∈ r.all := by
  rcases referencedProperties_run hb h hw o with ⟨hnone, hcrash⟩ | ⟨inner, d, hinner, hvalue⟩
  · refine .inl ⟨?_, hcrash⟩
    rcases e.exists_wraps_unwrap? with hbare | ⟨x, hx, -⟩
    · exact hbare
    · rw [hnone] at hx
      cases hx
  · have hbare : ¬ e.WrapsBareToString := fun hbare => by
      rw [hbare.unwrap?_eq_none] at hinner
      cases hinner
    obtain ⟨x, hx, hsteps⟩ := e.exists_wraps_unwrap?.resolve_left hbare
    obtain rfl := Option.some.inj (hinner.symm.trans hx)
    refine .inr ⟨hbare, _, hvalue, rfl, fun f hf => Expr.accessed_subset hsteps ?_⟩
    cases inner with
    | member y g =>
      cases hf
      exact List.mem_cons_self
    | _ => cases hf

end Compiler

/-! ## A class with a static `ToString` -/

namespace Tariff

open Resolving Compiler

def tariff : Declared := ⟨"App.Tariff", false, 0⟩

def rate : Field := { name := "Rate", owner := .declared tariff, type := .int }

def types : Universe where
  named := Universe.initial.named ++ [(tariff.name, .declared tariff)]
  catalog := ({} : Catalog).set tariff
    { fields := [rate]
      methods := [{ name := "ToString", owner := .declared tariff, isStatic := true, params := [],
                    result := .string }] }

def scope : Scope := ⟨{ dataType := .declared tariff }, []⟩

def only (code : Text) : Workspace :=
  (({} : Workspace).add (Input.memo { code, scope := some scope })).2

def negated? : Except Error Expr → Option Text
  | .ok (.unary .negate (.member (.param ..) f)) => some f.name
  | _ => none

theorem referenced_fields_rate : ∃ e r, (only "-Rate").Denotes types ⟨0⟩ e ∧
    (((standard types {}).get ⟨0⟩ .referencedProperties).run.run (only "-Rate")).1 =
      .ok (.references r) ∧ r.all.map Field.name = [("Rate" : Text)] := by
  have hname : negated? ((Source.expression "-Rate" scope types).run.run {}).1 =
      some ("Rate" : Text) := by decide +kernel
  rcases hparse : (Source.expression "-Rate" scope types).run.run {} with ⟨a, names⟩
  rw [hparse] at hname
  unfold negated? at hname
  split at hname
  · rename_i n s p f ha
    obtain rfl : a = _ := ha
    have h : (only "-Rate").Denotes types ⟨0⟩ (.unary .negate (.member (.param n s p) f)) :=
      .inr ⟨rfl, by simp, "-Rate", scope, names, rfl, rfl, hparse⟩
    rcases referenced_fields (by decide) h rfl {} with ⟨hbare, -⟩ | ⟨-, r, hr, hall, -⟩
    · cases hbare.unwrap?_eq_none
    · refine ⟨_, r, h, hr, ?_⟩
      rw [hall, Expr.accessed, Expr.accessed, Expr.accessed, List.map_singleton,
        Option.some.inj hname]
  · cases hname

def isCrash : Except Fault Artifact → Bool
  | .error (.crash none) => true
  | _ => false

theorem eq_of_isCrash {a : Except Fault Artifact} (h : isCrash a) : a = .error .misfit := by
  unfold isCrash at h
  split at h
  · rfl
  · cases h

/-- The call of a static `ToString` is bound, but its references cannot be asked for. -/
theorem get_static_toString :
    let ask := fun p => (((standard types {}).get ⟨0⟩ p).run.run (only "App.Tariff.ToString()")).1
    (ask .parsedExpression).toOption.isSome ∧ ask .referencedProperties = .error .misfit :=
  ⟨by decide +kernel, eq_of_isCrash (by decide +kernel)⟩

end Tariff

end Bindery
