import Bindery.Proofs.BindingLocality

/-!
# Indexes of the bindings of a page

Before anything else is compiled, the bindings of a page are made one after another and get their
indexes among siblings. The index of a binding is the count of its syntax tree and scope so far, and
one more for each earlier binding of the page in the same syntax tree and scope
(`Compiler.prepare_run`).
-/

namespace Bindery

open Resolving Compiler

/-! ## What is known from the start -/

namespace Memo

theorem lookup_text (p q : Property) (t : Text) : (text q t).lookup p =
    if p = q then if t.isEmpty then none else some (.ok (.text t)) else none := by
  unfold text
  split
  · simp
  · exact lookup_cons_eq p q _ _

theorem lookup_seed {α : Type} (p q : Property) (f : α → Artifact) (o : Option α) :
    (seed q f o).lookup p = if p = q then o.map fun a => .ok (f a) else none := by
  cases o with
  | none => simp [seed]
  | some a => exact lookup_cons_eq p q _ _

end Memo

namespace Input

variable (i : Input)

theorem lookup_memo (p : Property) : i.memo.lookup p = match p with
    | .dataContext => i.scope.map fun s => .ok (.scope s)
    | .originalString => if i.code.isEmpty then none else some (.ok (.text i.code))
    | .parsedExpression => i.expr.map fun e => .ok (.expr e)
    | .expectedType => i.expectedType.map fun t => .ok (.type t)
    | .declaringProperty => if i.property.isEmpty then none else some (.ok (.text i.property))
    | .treeRoot => if i.treeRoot.isEmpty then none else some (.ok (.text i.treeRoot))
    | .locationInfo => i.location.map fun l => .ok (.location l)
    | _ => none := by
  simp only [memo, List.lookup_append, Memo.lookup_text, Memo.lookup_seed]
  cases p <;> simp

/-- How errors name the binding: by its source, else by its expression. -/
def source : Text :=
  if i.code.isEmpty then match i.expr with
    | some e => e.text
    | none => ∅
  else i.code

/-- The error of a binding that is in a syntax tree and has no data context to be counted in. -/
def startError : Option Error :=
  if i.treeRoot.isEmpty || i.scope.isSome then none
  else some ((getWithin.unresolved .dataContext).withSource i.source (.other 0))

/-- What is known of the binding with the index `n` among siblings when it has entered a page. -/
def entered (n : Nat) : Memo :=
  if i.treeRoot.isEmpty then i.memo
  else (.siblingIndex, match i.scope with
    | some _ => .ok (.int n)
    | none => .error (getWithin.unresolved .dataContext)) :: i.memo

/-- The syntax tree and the scope in which the binding is counted. Scopes that are not told apart
(`Scope.same`) are counted together. -/
def place? : Option (Text × Text) :=
  if i.treeRoot.isEmpty then none else i.scope.map fun s => (i.treeRoot, s.describe)

/-- The number of bindings in the place of `i`, given the counts at first and the bindings since. -/
def siblingsAfter (s : Siblings) (earlier : List Input) : Nat :=
  match i.place? with
  | some place => s.count place + earlier.countP fun j => j.place? = some place
  | none => 0

end Input

theorem Input.siblingsAfter_cons {s s' : Siblings} {i j : Input} {earlier : List Input}
    (h : ∀ place, s'.count place = s.count place + if i.place? = some place then 1 else 0) :
    j.siblingsAfter s' earlier = j.siblingsAfter s (i :: earlier) := by
  unfold siblingsAfter
  cases j.place? with
  | none => rfl
  | some place =>
    simp only [h place, List.countP_cons, decide_eq_true_eq]
    omega

theorem Siblings.count_next (s : Siblings) (root : Text) (scope : Scope) (place : Text × Text) :
    (s.next root scope).2.count place =
      s.count place + if place = (root, scope.describe) then 1 else 0 := by
  simp only [next, count, lookup_cons_eq]
  by_cases h : place = (root, scope.describe)
  · simp [h]
  · have hothers : (s.counts.filter fun e => e.1 != (root, scope.describe)).lookup place =
        s.counts.lookup place := by
      induction s.counts with
      | nil => rfl
      | cons e es ih =>
        by_cases he : e.1 = (root, scope.describe)
        · rw [List.filter_cons_of_neg (by simpa using he), ih, ← Prod.eta e, lookup_cons_eq,
            if_neg (he ▸ h)]
        · rw [List.filter_cons_of_pos (by simpa using he), ← Prod.eta e, lookup_cons_eq,
            lookup_cons_eq, ih]
    simp [h, hothers]

/-! ## Entering a page -/

/-- The workspace has one more binding, with the memory `m`. -/
structure Workspace.Gains (m : Memo) (w x : Workspace) : Prop where
  size : x.memos.size = w.memos.size + 1
  memo : x.memo ⟨w.memos.size⟩ = m
  others : ∀ b : Binding, b.number < w.memos.size → x.memo b = w.memo b
  names : x.names = w.names

theorem Workspace.gains_add (w : Workspace) (m : Memo) : w.Gains m (w.add m).2 where
  size := by simp [add]
  memo := memo_add m
  others b hb := by
    have : w.memos.size ≠ b.number := by omega
    simp [Workspace.memo, add, Array.getD_eq_getD_getElem?, Array.getElem?_push, this.symm]
  names := rfl

theorem Workspace.Gains.record {m : Memo} {w x : Workspace} (h : w.Gains m x) {p : Property}
    {k : Except Error Artifact} {y : Workspace}
    (hmemos : y.memos = (x.record ⟨w.memos.size⟩ p k).memos) (hnames : y.names = x.names) :
    w.Gains ((p, k) :: m) y := by
  have hmemo (b : Binding) : y.memo b = (x.record ⟨w.memos.size⟩ p k).memo b := by
    rw [Workspace.memo, hmemos, Workspace.memo]
  refine ⟨?_, ?_, fun b hb => ?_, hnames.trans h.names⟩
  · rw [hmemos, size_record, h.size]
  · have hbound : (⟨w.memos.size⟩ : Binding).number < x.memos.size := by
      rw [h.size]
      exact Nat.lt_succ_self _
    rw [hmemo, memo_record_self hbound, h.memo]
  · have hne : b ≠ ⟨w.memos.size⟩ := by
      rintro rfl
      exact Nat.lt_irrefl _ hb
    rw [hmemo, memo_record_ne hne, h.others b hb]

/-- The workspace has the bindings of a page, each with its index among siblings. -/
structure Workspace.Enters (inputs : List Input) (rs : List Compiled) (w x : Workspace) : Prop where
  length : rs.length = inputs.length
  size : x.memos.size = w.memos.size + inputs.length
  others : ∀ b : Binding, b.number < w.memos.size → x.memo b = w.memo b
  names : x.names = w.names
  entry : ∀ k i, inputs[k]? = some i →
    rs[k]? = some { binding := ⟨w.memos.size + k⟩, error := i.startError } ∧
      x.memo ⟨w.memos.size + k⟩ = i.entered (i.siblingsAfter w.siblings (inputs.take k))

namespace Workspace.Enters

variable {inputs : List Input} {rs : List Compiled} {w x : Workspace}
  (h : w.Enters inputs rs x) {k : Nat}

include h

theorem inBounds {i : Input} (hi : inputs[k]? = some i) : w.memos.size + k < x.memos.size := by
  have := (List.getElem?_eq_some_iff.1 hi).1
  rw [h.size]
  omega

theorem exists_input {r : Compiled} (hr : rs[k]? = some r) :
    ∃ i, inputs[k]? = some i ∧ r = { binding := ⟨w.memos.size + k⟩, error := i.startError } := by
  have hlt : k < inputs.length := h.length ▸ (List.getElem?_eq_some_iff.1 hr).1
  have hi := List.getElem?_eq_getElem hlt
  exact ⟨_, hi, Option.some.inj (hr.symm.trans (h.entry k _ hi).1)⟩

end Workspace.Enters

namespace Compiler

variable {u : Universe} {o : Options} {w : Workspace} {b : Binding} {i : Input}

theorem siblingIndex_run {run} (hrun : Resolver.siblingIndex.run = some run) (b : Binding)
    (ask : Resolving Artifact) {root : Text} (hroot : root.isEmpty = false) (s : Scope)
    (w : Workspace) : (run b ask ([.scope s] ++ [.text root])).run.run w =
      (.ok (.int (w.siblings.count (root, s.describe))),
        { w with siblings := (w.siblings.next root s).2 }) := by
  obtain rfl := Option.some.inj hrun
  have htext : Resolver.asText (([Artifact.scope s] ++ [Artifact.text root]).getD 1 .absent) =
    root := rfl
  simp only [htext, hroot, Bool.false_eq_true, if_false]
  rfl

/-- The index of a binding that is in a syntax tree and has a data context is the count so far. -/
theorem index_run (hindex : w.known? b .siblingIndex = none) {s : Option Scope}
    (hcontext : w.known? b .dataContext = s.map fun s => .ok (.scope s)) {root : Text}
    (htree : w.known? b .treeRoot = some (.ok (.text root))) (hroot : root.isEmpty = false)
    (n : Nat) :
    ∃ k x, ((standard u o).getWithin b (n + 2) [] .siblingIndex).run.run w = (remembered k, x) ∧
      x.memos = (w.record b .siblingIndex k).memos ∧ x.names = w.names ∧
      ((∃ s', s = some s' ∧ k = .ok (.int (w.siblings.count (root, s'.describe))) ∧
          x.siblings = (w.siblings.next root s').2) ∨
        s = none ∧ k = .error (getWithin.unresolved .dataContext) ∧ x.siblings = w.siblings) := by
  obtain ⟨run, hfun⟩ : ∃ run, Resolver.siblingIndex.run = some run := ⟨_, rfl⟩
  have recorded {k : Except Error Artifact} {x : List Text → Workspace}
      (hcompute : ∀ trace, ((standard u o).compute b (n + 1) [.siblingIndex] .siblingIndex
        run).run.run { w with trace } = (remembered k, x trace)) :=
    getWithin_recorded hindex List.not_mem_nil (function?_eq_some.2 ⟨rfl, hfun⟩) hcompute
  cases s with
  | some s =>
    have hneeded (trace) : (required ((standard u o).getWithin b (n + 1) [.siblingIndex])
        [.dataContext]).run.run { w with trace } = (.ok [.scope s], { w with trace }) :=
      required_known (.cons hcontext .nil)
    have hothers (trace) : (optional ((standard u o).getWithin b (n + 1) [.siblingIndex])
        [.treeRoot]).run.run { w with trace } = (.ok [.text root], { w with trace }) := by
      rw [optional, run_bind_ok (by
        rw [run_attempt, getWithin_known (w := { w with trace }) htree]
        rfl)]
      rfl
    obtain ⟨trace, hrun⟩ := recorded (k := .ok (.int (w.siblings.count (root, s.describe))))
      (x := fun trace => { w with trace, siblings := (w.siblings.next root s).2 })
      (fun trace => (run_bind_ok (hneeded trace)).trans ((run_bind_ok (hothers trace)).trans
        (siblingIndex_run hfun b _ hroot s _))) fun _ => hindex
    exact ⟨_, _, hrun, rfl, rfl, .inl ⟨s, rfl, rfl, rfl⟩⟩
  | none =>
    obtain ⟨trace, hrun⟩ := recorded (k := .error (getWithin.unresolved .dataContext))
      (x := fun trace => { w with trace }) (fun trace => run_bind_error (run_bind_error
        (getWithin_unresolved (w := { w with trace }) hcontext (by simp) rfl))) fun _ => hindex
    exact ⟨_, _, hrun, rfl, rfl, .inr ⟨rfl, rfl, rfl⟩⟩

/-- A classified error of a binding that was not counted names the source of the binding. -/
theorem annotate_entered {k : Except Error Artifact}
    (hmemo : w.memo b = (.siblingIndex, k) :: i.memo) {e : Error}
    (he : e.diagnosis?.isSome) :
    w.annotate b e = .error (e.withSource i.source (.other 0)) := by
  have hvalue (p : Property) (hp : p ≠ .siblingIndex) : w.known? b p = i.memo.lookup p := by
    rw [Workspace.known?, hmemo, lookup_cons_eq, if_neg hp]
  unfold Workspace.annotate Workspace.value? Input.source
  rw [hvalue _ (by simp), hvalue _ (by simp), i.lookup_memo, i.lookup_memo]
  cases hcode : i.code.isEmpty with
  | false => simp [hcode, he]
  | true =>
    have hempty : (∅ : Text).isEmpty := rfl
    cases hexpr : i.expr with
    | none | some x => simp [he, hempty]

/-- Entering a page makes a binding and gives it its index. -/
theorem enter_run (i : Input) (w : Workspace) : ∃ x, ((standard u o).enter i).run.run w =
      (.ok { binding := ⟨w.memos.size⟩, error := i.startError }, x) ∧
    w.Gains (i.entered (i.siblingsAfter w.siblings [])) x ∧
    ∀ place, x.siblings.count place =
      w.siblings.count place + if i.place? = some place then 1 else 0 := by
  have hcreate : (create i).run.run w = (.ok ⟨w.memos.size⟩, (w.add i.memo).2) := rfl
  rw [enter, run_bind_ok hcreate]
  cases hroot : i.treeRoot.isEmpty with
  | true =>
    refine ⟨(w.add i.memo).2, ?_, ?_, fun place => ?_⟩
    · simp only [Input.startError, hroot, if_true, Bool.true_or]
      rfl
    · simpa only [Input.entered, hroot, if_true] using w.gains_add i.memo
    · simp only [Input.place?, hroot, if_true]
      rfl
  | false =>
    have hknown (p : Property) : (w.add i.memo).2.known? ⟨w.memos.size⟩ p = i.memo.lookup p := by
      rw [Workspace.known?, (w.gains_add i.memo).memo]
    have hindex := (hknown .siblingIndex).trans (i.lookup_memo _)
    have hcontext := (hknown .dataContext).trans (i.lookup_memo _)
    have htree := (hknown .treeRoot).trans (i.lookup_memo _)
    simp only [hroot, Bool.false_eq_true, if_false] at htree
    obtain ⟨k, x, hrun, hmemos, hnames, hk⟩ :=
      index_run (u := u) (o := o) hindex hcontext htree hroot 30
    have hgains := (w.gains_add i.memo).record hmemos hnames
    refine ⟨x, ?_⟩
    simp only [Input.startError, Input.entered, Input.siblingsAfter, Input.place?, hroot,
      Bool.false_eq_true, Bool.false_or, if_false]
    rcases hk with ⟨s, hscope, rfl, hsiblings⟩ | ⟨hscope, rfl, hsiblings⟩ <;> rw [hscope]
    · refine ⟨?_, hgains, fun place => ?_⟩
      · rw [run_bind_ok (by rw [run_attempt, get_run_ok hrun])]
        rfl
      · rw [hsiblings, Siblings.count_next]
        simp only [Option.map_some, Option.some.injEq, eq_comm]
        rfl
    · refine ⟨?_, hgains, fun place => by rw [hsiblings]; rfl⟩
      rw [run_bind_ok (by rw [run_attempt, get_run_error hrun, annotate_entered hgains.memo rfl])]
      rfl

/-- Every binding of a page gets its index: the count of its syntax tree and scope at first, and one
more for each earlier binding of the page that is counted there. -/
theorem prepare_run (inputs : List Input) (w : Workspace) :
    ∃ rs x, ((standard u o).prepare inputs).run.run w = (.ok rs, x) ∧ w.Enters inputs rs x := by
  induction inputs generalizing w with
  | nil => exact ⟨[], w, rfl, rfl, rfl, fun _ _ => rfl, rfl, nofun⟩
  | cons i is ih =>
    obtain ⟨y, hrun, hgains, hcounts⟩ := enter_run (u := u) (o := o) i w
    obtain ⟨rs, x, hrest, h⟩ := ih y
    refine ⟨{ binding := ⟨w.memos.size⟩, error := i.startError } :: rs, x, ?_,
      ⟨congrArg (· + 1) h.length, ?_, fun b hb => ?_, h.names.trans hgains.names, ?_⟩⟩
    · rw [prepare, run_bind_ok hrun, run_bind_ok hrest]
      rfl
    · rw [h.size, hgains.size, List.length_cons]
      omega
    · exact (h.others b (by rw [hgains.size]; omega)).trans (hgains.others b hb)
    · rintro (_ | k) j hj
      · obtain rfl := Option.some.inj hj
        refine ⟨rfl, (h.others ⟨w.memos.size⟩ ?_).trans hgains.memo⟩
        rw [hgains.size]
        exact Nat.lt_succ_self _
      · have hbinding : y.memos.size + k = w.memos.size + (k + 1) := by
          rw [hgains.size]
          omega
        rw [← hbinding, List.take_succ_cons, ← Input.siblingsAfter_cons hcounts]
        exact h.entry k j hj

end Compiler

end Bindery
