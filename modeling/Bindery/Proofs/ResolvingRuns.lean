import Bindery.Binding.Resolvers
import Bindery.Proofs.Outcome
import Mathlib.Data.List.Forall2

/-!
# Runs of steps on bindings

What the steps of `Resolving` give from a workspace, and what they leave behind. A request for a
property is answered from memory (`Compiler.getWithin_known`), fails because the property waits for
itself (`Compiler.getWithin_cycle`) or because nothing computes it
(`Compiler.getWithin_unresolved`), or runs its resolver and remembers the outcome
(`Compiler.getWithin_computed`).
-/

namespace Bindery

theorem lookup_cons_eq {α β : Type} [BEq α] [LawfulBEq α] [DecidableEq α] (a k : α) (v : β)
    (l : List (α × β)) : ((k, v) :: l).lookup a = if a = k then some v else l.lookup a := by
  rw [List.lookup_cons]
  by_cases h : a = k
  · simp [h]
  · have : (a == k) = false := by simpa using h
    simp [h, this]

/-- What is remembered, as the outcome of a step. -/
def remembered : Except Error Artifact → Except Fault Artifact
  | .ok v => .ok v
  | .error e => .error (.error e)

/-- The outcome is remembered: it is no failure for lack of an order. -/
def Lasts : Except Error Artifact → Bool
  | .ok _ => true
  | .error e => !e.isProblem .cycle

namespace Workspace

variable {w : Workspace} {b b' : Binding} {p q : Property} {k : Except Error Artifact}

theorem memo_record_self (h : b.number < w.memos.size) :
    (w.record b p k).memo b = (p, k) :: w.memo b := by
  simp [memo, record, Array.getD_eq_getD_getElem?, Array.getElem_modify, h]

theorem memo_record_ne (h : b' ≠ b) : (w.record b p k).memo b' = w.memo b' := by
  have hn : b.number ≠ b'.number := fun hn => h (congrArg Binding.mk hn.symm)
  simp [memo, record, Array.getD_eq_getD_getElem?, Array.getElem?_modify, hn]

theorem size_record : (w.record b p k).memos.size = w.memos.size := by simp [record]

theorem known_record (h : b.number < w.memos.size) :
    (w.record b p k).known? b q = if q = p then some k else w.known? b q := by
  rw [known?, memo_record_self h, lookup_cons_eq]
  rfl

theorem memo_add (m : Memo) : (w.add m).2.memo (w.add m).1 = m := by
  simp [memo, add, Array.getD_eq_getD_getElem?]

end Workspace

namespace Resolving

variable {α : Type} {m : Resolving α} {w w' : Workspace}

theorem run_attempt (m : Resolving α) (w : Workspace) :
    (attempt m).run.run w = match m.run.run w with
      | (.ok a, w') => (.ok (.ok a), w')
      | (.error (.error e), w') => (.ok (.error e), w')
      | (.error (.crash t), w') => (.error (.crash t), w') := by
  simp only [attempt, tryCatch, tryCatchThe, MonadExceptOf.tryCatch, ExceptT.tryCatch, ExceptT.mk,
    Functor.map, ExceptT.map, bind, StateT.bind, ExceptT.run, StateT.run]
  rcases m w with ⟨(_ | _) | _, w'⟩ <;> rfl

theorem crash_of_attempt {e : Fault} (h : (attempt m).run.run w = (.error e, w')) :
    ∃ text, e = .crash text := by
  rw [run_attempt] at h
  split at h
  · cases h
  · cases h
  · exact ⟨_, Except.error.inj (congrArg Prod.fst h).symm⟩

theorem run_known? (b : Binding) (p : Property) (w : Workspace) :
    (known? b p).run.run w = (.ok (w.known? b p), w) := rfl

theorem run_naming (step : Source.Binder α) (w : Workspace) :
    (naming step).run.run w = match step.run.run w.names with
      | (.ok a, names) => (.ok a, { w with names })
      | (.error e, names) => (.error (.error e), { w with names }) := by
  have hget : (get : Resolving Workspace).run.run w = (.ok w, w) := rfl
  rw [naming, run_bind_ok hget]
  rcases step.run.run w.names with ⟨_ | _, _⟩ <;> rfl

/-- An outcome is recorded if it lasts and nothing is known yet; what is known goes first. -/
theorem run_settle (b : Binding) (p : Property) (o : Except Error Artifact) (w : Workspace) :
    (settle b p o).run.run w = match w.known? b p with
      | some k => (remembered k, w)
      | none => (remembered o, if Lasts o then w.record b p o else w) := by
  have hget : (get : Resolving Workspace).run.run w = (.ok w, w) := rfl
  rw [settle, run_bind_ok hget]
  cases hk : w.known? b p with
  | some k => cases k <;> rfl
  | none =>
    cases o with
    | ok v => rfl
    | error e => cases he : e.isProblem .cycle <;> simp only [he, Lasts] <;> rfl

end Resolving

namespace Compiler

open Resolving

variable {c : Compiler} {b : Binding} {n : Nat} {chain : List Property} {p : Property}
  {w : Workspace} {r : Resolver}

/-- The computation of a property by the function `run` of its resolver. -/
def compute (c : Compiler) (b : Binding) (n : Nat) (chain : List Property) (r : Resolver)
    (run : Binding → Resolving Artifact → List Artifact → Resolving Artifact) :
    Resolving Artifact := do
  let needed ← required (c.getWithin b n chain) r.deps
  let others ← optional (c.getWithin b n chain) r.optional
  run b (c.getWithin b n [] .dataContext) (needed ++ others)

theorem getWithin_known {k : Except Error Artifact} (hk : w.known? b p = some k) :
    (c.getWithin b (n + 1) chain p).run.run w = (remembered k, w) := by
  rw [getWithin, run_bind_ok (run_known? b p w), hk]
  cases k <;> rfl

theorem getWithin_cycle (hk : w.known? b p = none) (hp : p ∈ chain) :
    (c.getWithin b (n + 1) chain p).run.run w = (.error (.error (cycleError chain p)), w) := by
  rw [getWithin, run_bind_ok (run_known? b p w), hk]
  simp only [List.contains_iff_mem.2 hp, if_true]
  rfl

def function? (c : Compiler) (p : Property) :
    Option (Resolver × (Binding → Resolving Artifact → List Artifact → Resolving Artifact)) :=
  (c.resolver? p).bind fun r => r.run.map fun run => (r, run)

theorem function?_eq_some
    {run : Binding → Resolving Artifact → List Artifact → Resolving Artifact} :
    c.function? p = some (r, run) ↔ c.resolver? p = some r ∧ r.run = some run := by
  simp only [function?, Option.bind_eq_some_iff, Option.map_eq_some_iff, Prod.mk.injEq]
  constructor
  · rintro ⟨r', hr, run', hrun, rfl, rfl⟩
    exact ⟨hr, hrun⟩
  · rintro ⟨hr, hrun⟩
    exact ⟨r, hr, run, hrun, rfl, rfl⟩

theorem getWithin_unresolved (hk : w.known? b p = none) (hp : p ∉ chain)
    (hf : c.function? p = none) : (c.getWithin b (n + 1) chain p).run.run w =
      (.error (.error (getWithin.unresolved p)), w) := by
  have hc : chain.contains p = false := by simpa using hp
  rw [getWithin, run_bind_ok (run_known? b p w), hk]
  simp only [hc, Bool.false_eq_true, if_false]
  cases hr : c.resolver? p with
  | none => rfl
  | some r =>
    cases hrun : r.run with
    | none => simp only [hrun]; rfl
    | some run => simp [function?, hr, hrun] at hf

/-- Apart from a trace line, a property that is not known is computed and the outcome recorded. -/
theorem getWithin_computed (hk : w.known? b p = none) (hp : p ∉ chain)
    {run : Binding → Resolving Artifact → List Artifact → Resolving Artifact}
    (hf : c.function? p = some (r, run)) : ∃ trace, (c.getWithin b (n + 1) chain p).run.run w =
      (attempt (c.compute b n (p :: chain) r run) >>= settle b p).run.run { w with trace } := by
  have hc : chain.contains p = false := by simpa using hp
  obtain ⟨hr, hrun⟩ := function?_eq_some.1 hf
  rw [getWithin, run_bind_ok (run_known? b p w), hk]
  simp only [hc, Bool.false_eq_true, if_false, hr, hrun]
  cases ht : c.options.trace with
  | true => exact ⟨("resolving " ++ p.name ++ w.describe b) :: w.trace, rfl⟩
  | false => exact ⟨w.trace, rfl⟩

/-- The outcome of a computation that leaves the property unknown is recorded. -/
theorem getWithin_recorded (hk : w.known? b p = none) (hp : p ∉ chain) {run}
    (hf : c.function? p = some (r, run)) {o : Except Error Artifact} {x : List Text → Workspace}
    (h : ∀ trace, (c.compute b n (p :: chain) r run).run.run { w with trace } =
      (remembered o, x trace))
    (hx : ∀ trace, (x trace).known? b p = none) :
    ∃ trace, (c.getWithin b (n + 1) chain p).run.run w =
      (remembered o, if Lasts o then (x trace).record b p o else x trace) := by
  obtain ⟨trace, hrun⟩ := getWithin_computed hk hp hf
  have hattempt : (attempt (c.compute b n (p :: chain) r run)).run.run { w with trace } =
      (.ok o, x trace) := by
    rw [run_attempt, h]
    cases o <;> rfl
  refine ⟨trace, hrun.trans ?_⟩
  rw [run_bind_ok hattempt, run_settle, hx]

/-- A property that is only an input is answered from what is known, or not at all. -/
theorem getWithin_input (hf : c.function? p = none) (hp : p ∉ chain) (b : Binding) (w : Workspace)
    (n : Nat) : (∃ v, w.known? b p = some (.ok v)) ∨
      ∃ e, (c.getWithin b (n + 1) chain p).run.run w = (.error (.error e), w) := by
  match hk : w.known? b p with
  | some (.ok v) => exact .inl ⟨v, rfl⟩
  | some (.error e) => exact .inr ⟨e, getWithin_known hk⟩
  | none => exact .inr ⟨_, getWithin_unresolved hk hp hf⟩

theorem required_known {ps : List Property} {vs : List Artifact}
    (h : List.Forall₂ (fun p v => w.known? b p = some (.ok v)) ps vs) :
    (required (c.getWithin b (n + 1) chain) ps).run.run w = (.ok vs, w) := by
  induction h with
  | nil => rfl
  | cons hv _ ih =>
    rw [required, run_bind_ok (getWithin_known hv)]
    exact run_bind_ok ih

theorem required_inputs {ps : List Property} (hps : ∀ p ∈ ps, c.function? p = none ∧ p ∉ chain) :
    (∃ vs, List.Forall₂ (fun p v => w.known? b p = some (.ok v)) ps vs) ∨
      ∃ e, (required (c.getWithin b (n + 1) chain) ps).run.run w = (.error (.error e), w) := by
  induction ps with
  | nil => exact .inl ⟨[], .nil⟩
  | cons p ps ih =>
    obtain ⟨⟨hf, hp⟩, hps⟩ := List.forall_mem_cons.1 hps
    rw [required]
    rcases getWithin_input hf hp b w n with ⟨v, hv⟩ | ⟨e, hask⟩
    · rw [run_bind_ok (getWithin_known hv)]
      rcases ih hps with ⟨vs, hvs⟩ | ⟨e, hrest⟩
      · exact .inl ⟨v :: vs, .cons hv hvs⟩
      · exact .inr ⟨e, run_bind_error hrest⟩
    · exact .inr ⟨e, run_bind_error hask⟩

/-- What is remembered of a parse. A type by itself is no value. -/
def parsed : Except Error Expr → Except Error Artifact
  | .ok (.typeRef t) => .error (Expr.typeNotValue t)
  | .ok e => .ok (.expr e)
  | .error e => .error e

/-- The text of a binding is parsed in its data context. -/
theorem compute_parsed {u : Universe} {run} (hrun : (Resolver.parsedExpression u).run = some run)
    {src : Text} {s : Scope} {r : Except Error Expr} {names : Source.Session}
    (hsource : w.known? b .originalString = some (.ok (.text src)))
    (hscope : w.known? b .dataContext = some (.ok (.scope s)))
    (hparse : (Source.expression src s u).run.run w.names = (r, names)) :
    (c.compute b (n + 1) chain (Resolver.parsedExpression u) run).run.run w =
      (remembered (parsed r), { w with names }) := by
  have hneeded :
      (required (c.getWithin b (n + 1) chain) [.originalString, .dataContext]).run.run w =
      (.ok [.text src, .scope s], w) := required_known (.cons hsource (.cons hscope .nil))
  have hnaming := run_naming (Source.expression src s u) w
  rw [hparse] at hnaming
  obtain rfl := Option.some.inj hrun
  refine (run_bind_ok hneeded).trans ?_
  cases r with
  | error e => exact run_bind_error (x := naming (Source.expression src s u)) hnaming
  | ok e =>
    refine (run_bind_ok (x := naming (Source.expression src s u)) hnaming).trans ?_
    cases e <;> rfl

def request (c : Compiler) (b : Binding) (p : Property) : Resolving Artifact :=
  c.getWithin b (Property.all.length + 1) [] p

theorem get_run_ok {v : Artifact} {x : Workspace} (h : (c.request b p).run.run w = (.ok v, x)) :
    (c.get b p).run.run w = (.ok v, x) := by
  rw [request] at h
  rw [get, run_bind_ok (by rw [run_attempt, h])]
  rfl

theorem get_run_error {e : Error} {x : Workspace}
    (h : (c.request b p).run.run w = (.error (.error e), x)) :
    (c.get b p).run.run w = (.error (x.annotate b e), x) := by
  rw [request] at h
  rw [get, run_bind_ok (by rw [run_attempt, h])]
  rfl

end Compiler

end Bindery
