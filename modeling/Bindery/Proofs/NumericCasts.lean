import Bindery.Proofs.FinishedScripts

/-!
# Numeric casts

What a path to an integer gives when a numeric type is expected of it (`Expr.cast_agrees`). The
server converts the value of the path, so a path that a null stops gives the default of its own
type. A script has the expected type on the path itself, and null checks take the default from
there.
-/

namespace Bindery

open Client

/-- A number at a numeric type: integers are floats at the types of floats. -/
def Value.widen (t : Ty) : Value → Value
  | .int n => if t.kind == .float then .float (Float.ofInt n.toInt) else .int n
  | v => v

/-- A value is the number that a script gives: integers are the floats made from them. -/
inductive Value.SameNumber : Value → Value → Prop
  | refl (v : Value) : SameNumber v v
  | whole (n : Int64) : SameNumber (.float (Float.ofInt n.toInt)) (.int n)
  | zero : SameNumber (.float (Float.ofInt 0)) (revealNumber (.ofFloat 0))

theorem Client.reveal_int {n : Int64} (hn : n.toInt.natAbs ≤ Number.limit) :
    reveal (ofScalar (.int n)) = ([], .int n) := by
  change ([], revealNumber (.ofInt n.toInt)) = _
  rw [Number.ofInt, if_pos hn, revealNumber, Int64.ofInt_toInt]

theorem Client.reveal_float (x : Float) :
    (reveal (ofScalar (.float x))).2 = revealNumber (.ofFloat x) := rfl

namespace Expr

open Script (isWritten_kept)

/-- How an expression of an integer type becomes one of a numeric type: the expression, and the type
that its script is marked with. -/
inductive IsCast (e : Expr) : Ty → Expr → Ty → Prop
  | same : IsCast e e.type e e.type
  | lift (ht : e.type = .int) : IsCast e (.nullable .int) (.convert .lift e (.nullable .int)) e.type
  | float (ht : e.type = .int) : IsCast e .float (.convert .numeric e .float) .float
  | nullable : IsCast e (.nullable .float) (.convert .numeric e (.nullable .float))
      (.nullable .float)

variable {c : Catalog} {r : Registry} {s : Scope} {e e' : Expr} {T t : Ty}

theorem isCast_of_convertTo (hconst : e.isNullConst = false)
    (ht : e.type = .int ∨ e.type = .nullable .int)
    (hT : T ∈ [Ty.int, .nullable .int, .float, .nullable .float])
    (h : e.convertTo T true = .ok e') : ∃ t, IsCast e T e' t := by
  simp only [List.mem_cons, List.not_mem_nil, or_false] at hT
  unfold convertTo implicit? at h
  rw [hconst] at h
  rcases ht with ht | ht
  · rcases hT with rfl | rfl | rfl | rfl <;> rw [ht] at h <;> cases h
    · exact ⟨_, ht ▸ IsCast.same⟩
    · exact ⟨_, .lift ht⟩
    · exact ⟨_, .float ht⟩
    · exact ⟨_, .nullable⟩
  · rcases hT with rfl | rfl | rfl | rfl <;> rw [ht] at h <;> cases h
    · exact ⟨_, ht ▸ IsCast.same⟩
    · exact ⟨_, .nullable⟩

theorem IsCast.checked_eq (h : IsCast e T e' t) : e'.checked s = e.checked s := by cases h <;> rfl

theorem IsCast.lower_eq (h : IsCast e T e' t) {y : Script}
    (hy : e.lower r s = .ok (y.typed e.type)) : e'.lower r s = .ok (y.typed t) := by
  cases h with
  | same => exact hy
  | lift ht => simp only [lower, hy]; rfl
  | float ht | nullable => rw [← y.typed_typed e.type, lower, hy]; rfl

theorem IsCast.chain_eq (h : IsCast e T e' t) (ht : e.type.kind = .int) {fr : Frame} {base n : Nat}
    {l : Link} (hl : e.chain s base fr n = .ok l) {v : Value} (hv : l.getD e.type = .value v)
    (hint : v = .null ∨ ∃ k, v = .int k) :
    ∃ l', e'.chain s base fr n = .ok l' ∧ l'.getD e'.type = .value (v.widen T) := by
  have hkeeps {t : Ty} (ht : t.kind = .int) : v.widen t = v := by
    rcases hint with rfl | ⟨k, rfl⟩
    · rfl
    · simp [Value.widen, ht]
  have hnumeric (t : Ty) : applyConversion .numeric t (.value v) = .value (v.widen t) := by
    rcases hint with rfl | ⟨k, rfl⟩
    · rfl
    · simp only [applyConversion, Value.widen]
      split <;> rfl
  have convert (kind : Conversion) (t : Ty) : (Expr.convert kind e t).chain s base fr n =
      .ok (.reached (applyConversion kind t (.value v))) := by
    rw [chain, hl, ← hv]
    rfl
  cases h with
  | same => exact ⟨l, hl, hv.trans (congrArg Operand.value (hkeeps ht).symm)⟩
  | lift => exact ⟨_, convert .lift _, congrArg Operand.value (hkeeps rfl).symm⟩
  | float | nullable => exact ⟨_, convert .numeric _, hnumeric _⟩

/-- What a path leads to is the same number at the types of both sides, or else the two defaults are
not those of one type. -/
theorem IsCast.sameNumber (h : IsCast e T e' t) (ht : e.type = .int ∨ e.type = .nullable .int)
    {l : Option Value} (hint : ∀ v ∈ l, v = .null ∨ ∃ n, v = .int n)
    (hsmall : ∀ n, l = some (.int n) → n.toInt.natAbs ≤ Number.limit) :
    (e.type = .int → T = .nullable .float → l = none →
      (reveal (ofScalar (l.getD t.default))).2 = .null) ∧
    (¬ (e.type = .int ∧ T = .nullable .float ∧ l = none) →
      ((l.getD e.type.default).widen T).SameNumber (reveal (ofScalar (l.getD t.default))).2) := by
  cases l with
  | none =>
    cases h with
    | same => rcases ht with ht | ht <;> rw [ht] <;> exact ⟨nofun, fun _ => .refl _⟩
    | lift ht => rw [ht]; exact ⟨nofun, fun _ => .refl _⟩
    | float ht =>
      have hint : (Ty.int.default).widen .float = .float (Float.ofInt 0) := rfl
      have hfloat : Ty.float.default = .float 0 := rfl
      rw [ht, Option.getD_none, Option.getD_none, hint, hfloat, reveal_float]
      exact ⟨nofun, fun _ => .zero⟩
    | nullable =>
      refine ⟨fun _ _ _ => rfl, fun h => ?_⟩
      rcases ht with ht | ht
      · exact absurd ⟨ht, rfl, rfl⟩ h
      · rw [ht]; exact .refl _
  | some u =>
    refine ⟨nofun, fun _ => ?_⟩
    rcases hint u rfl with rfl | ⟨n, rfl⟩
    · exact .refl _
    · rw [Option.getD_some, Option.getD_some, reveal_int (hsmall n rfl), Value.widen]
      split
      · exact .whole n
      · exact .refl _

section Results

variable (he : e.IsPath c Registry.standard s) (ht : e.type = .int ∨ e.type = .nullable .int)
  {vms : List Value} (hvms : Models c s vms)

include he ht hvms

theorem IsPath.int_or_null {ρ : Env} (hρ : Surrounds ρ vms) :
    ∀ v ∈ e.follow s vms, v = .null ∨ ∃ n, v = .int n := by
  intro v hv
  obtain ⟨_, -, hreads⟩ := he.reads { vms } 0 hvms
  obtain ⟨_, hx⟩ := hreads _ hρ
  have hkind : e.type.kind = .int := by rcases ht with ht | ht <;> rw [ht] <;> rfl
  exact or_iff_not_imp_left.2 ((hx.typed v hv).eq_int hkind)

variable {indexes : List Int64} {element : Value}
  (hbuild : ∃ u σ, (Context.build { models := vms, indexes, element }).run.run {} = (.ok u, σ))

include hbuild

/-- What the server and a script give for a path as a number. Each takes the default of a type of
its own. -/
theorem IsCast.outcomes (hc : IsCast e T e' t) (control : Option Control) (depth : Nat) :
    ∃ reader tree, Reader.compile e' s = .ok reader ∧ e'.lower Registry.standard s = .ok tree ∧
      reader.read vms control = .ok (.value (((e.follow s vms).getD e.type.default).widen T)) ∧
      outcome (depth + 1) (({ nullChecks := true } : Options).finish tree.value)
        { models := vms, indexes, element } =
          .ok ⟨false, (reveal (ofScalar ((e.follow s vms).getD t.default))).2⟩ := by
  have hkind : e.type.kind = .int := by rcases ht with ht | ht <;> rw [ht] <;> rfl
  obtain ⟨y, hy, hreads⟩ := he.reads { vms, control } depth hvms
  obtain ⟨_, hρ⟩ := exists_surrounds hbuild
  obtain ⟨_, hx⟩ := hreads _ hρ
  have hint := he.int_or_null ht hvms hρ
  have hscalar : ∀ v ∈ e.follow s vms, (Literal.ofValue? v).isSome := fun v hv => by
    rcases hint v hv with rfl | ⟨n, rfl⟩ <;> rfl
  have hvalue : (e.follow s vms).getD e.type.default = .null ∨
      ∃ n, (e.follow s vms).getD e.type.default = .int n := by
    cases hv : e.follow s vms with
    | none => rcases ht with ht | ht <;> rw [ht] <;> first | exact .inl rfl | exact .inr ⟨0, rfl⟩
    | some v => exact hint v hv
  obtain ⟨reader, hreader, hread⟩ := Reader.read_of_chain control
    (hc.checked_eq.trans he.checked) fun base n => hc.chain_eq hkind (hx.chain base n)
      (show (Link.of _).getD e.type = _ by cases e.follow s vms <;> rfl) hvalue
  have hwritten := isWritten_kept.variant
    (isWritten_kept.resolveCells (he.typed_written hy t)) false
  refine ⟨reader, _, hreader, hc.lower_eq hy, hread,
    outcome_of_yields hwritten hbuild fun ρ hρ => ?_⟩
  obtain ⟨_, hx⟩ := hreads ρ hρ
  exact ⟨_, hx.yields hscalar t, isPrimitive_ofScalar _, reveal_ofScalar _⟩

/-- Where a path to an integer is expected to be of a numeric type, the server gives the number that
the path leads to, or the default of the path where a null stops it, at that type. A script gives
the same number, except where an integer that a float or null is expected of is stopped: it gives
null. -/
theorem cast_agrees (hT : T ∈ [Ty.int, .nullable .int, .float, .nullable .float])
    (hcast : e.convertTo T true = .ok e')
    (hsmall : ∀ n, e.follow s vms = some (.int n) → n.toInt.natAbs ≤ Number.limit)
    (control : Option Control) (depth : Nat) :
    let v := ((e.follow s vms).getD e.type.default).widen T
    ∃ reader tree w, Reader.compile e' s = .ok reader ∧ e'.lower Registry.standard s = .ok tree ∧
      reader.read vms control = .ok (.value v) ∧
      outcome (depth + 1) (({ nullChecks := true } : Options).finish tree.value)
        { models := vms, indexes, element } = .ok ⟨false, w⟩ ∧
      (e.type = .int → T = .nullable .float → e.follow s vms = none → w = .null) ∧
      (¬ (e.type = .int ∧ T = .nullable .float ∧ e.follow s vms = none) → v.SameNumber w) := by
  have hconst : e.isNullConst = false := by cases he <;> rfl
  obtain ⟨t, hc⟩ := isCast_of_convertTo hconst ht hT hcast
  obtain ⟨_, hρ⟩ := exists_surrounds hbuild
  obtain ⟨reader, tree, hreader, htree, hread, hrun⟩ := hc.outcomes he ht hvms hbuild control depth
  exact ⟨reader, tree, _, hreader, htree, hread, hrun,
    hc.sameNumber ht (he.int_or_null ht hvms hρ) hsmall⟩

end Results

end Expr

namespace Team

/-- The age of a lead where a float or null is expected. -/
theorem cast_agrees_age : ∃ reader tree w,
    Reader.compile (.convert .numeric (ofLead age) (.nullable .float)) scope = .ok reader ∧
    (Expr.convert .numeric (ofLead age) (.nullable .float)).lower Registry.standard scope =
      .ok tree ∧
    reader.read [newTeam (newPerson 41 .null .null)] none = .ok (.value (.float (Float.ofInt 41))) ∧
    outcome 1 (({ nullChecks := true } : Options).finish tree.value)
      { models := [newTeam (newPerson 41 .null .null)] } = .ok ⟨false, w⟩ ∧
    (Value.float (Float.ofInt 41)).SameNumber w := by
  have hvms := newTeam_models (newPerson_hasType (n := 41) (.null rfl) (.null rfl))
  have hbuild := exists_build (c := { models := [newTeam (newPerson 41 .null .null)] })
    (by decide +kernel)
  obtain ⟨reader, tree, w, hreader, htree, hread, hw, -, hsame⟩ :=
    Expr.cast_agrees (ofLead_isPath (List.mem_cons_self ..)) (.inl rfl) hvms hbuild
      (T := .nullable .float) (by simp) rfl (fun n hn => by cases hn; decide) none 0
  exact ⟨reader, tree, w, hreader, htree, hread, hw, hsame nofun⟩

/-- Without a lead, the server gives zero and the script null. -/
theorem not_sameNumber_age : ∃ reader tree,
    Reader.compile (.convert .numeric (ofLead age) (.nullable .float)) scope = .ok reader ∧
    (Expr.convert .numeric (ofLead age) (.nullable .float)).lower Registry.standard scope =
      .ok tree ∧
    reader.read [newTeam .null] none = .ok (.value (.float (Float.ofInt 0))) ∧
    outcome 1 (({ nullChecks := true } : Options).finish tree.value)
      { models := [newTeam .null] } = .ok ⟨false, .null⟩ ∧
    ¬ (Value.float (Float.ofInt 0)).SameNumber .null := by
  have hcast : Expr.IsCast (ofLead age) (.nullable .float)
      (.convert .numeric (ofLead age) (.nullable .float)) (.nullable .float) := .nullable
  obtain ⟨reader, tree, hreader, htree, hread, hrun⟩ := hcast.outcomes
    (ofLead_isPath (List.mem_cons_self ..)) (.inl rfl) (newTeam_models (.null rfl))
    (exists_build (c := { models := [newTeam .null] }) (by decide +kernel)) none 0
  refine ⟨reader, tree, hreader, htree, hread, hrun, fun h => ?_⟩
  generalize hv : Value.float (Float.ofInt 0) = v, hw : Value.null = w at h
  cases h with
  | refl => cases hv; cases hw
  | whole => cases hw
  | zero =>
    generalize Number.ofFloat 0 = x at hw
    cases x with
    | float => rw [revealNumber] at hw; split at hw <;> cases hw
    | _ => cases hw

end Team

end Bindery
