import Bindery.Proofs.ManifestPages

/-!
# Histories of manifests

A manifest that comes of adding entries and pages is read back from its data as it was, has the
first entry of each identity, and stays the same when a page is added again
(`Manifest.history_round_trip`). That a page can be added again is a fact about workspaces. Making
an entry asks for properties, and the only ones that come to be known by it are expressions and
types of bindings (`Workspace.Later`). What was done once can then be done from every later
workspace (`Resolving.Repeats`).
-/

namespace Bindery

open Resolving

/-! ## What recording makes known -/

/-- What recording can make known of a property: an expression, a type, or an error. -/
def Property.Recorded : Property → Except Error Artifact → Prop
  | .parsedExpression, .ok v => ∃ e, v = .expr e
  | .resultType, .ok v => ∃ t, v = .type t
  | .parsedExpression, .error _ | .resultType, .error _ => True
  | _, _ => False

namespace Workspace

variable {w x y : Workspace} {b : Binding} {p : Property} {k : Except Error Artifact}

/-- What is known stays so, and what is new is as recording makes it known. -/
def Later (w x : Workspace) : Prop :=
  ∀ b p, x.known? b p = w.known? b p ∨
    w.known? b p = none ∧ ∃ k, x.known? b p = some k ∧ p.Recorded k

namespace Later

theorem refl (w : Workspace) : w.Later w := fun _ _ => .inl rfl

theorem of_memos (h : x.memos = w.memos) : w.Later x := fun b p =>
  .inl (by rw [known?, memo, h, known?, memo])

theorem trans (h : w.Later x) (h' : x.Later y) : w.Later y := by
  intro b p
  rcases h b p with hx | ⟨hw, k, hx, hk⟩
  · rw [← hx]
    exact h' b p
  · rcases h' b p with hy | ⟨hx', -⟩
    · exact .inr ⟨hw, k, hy.trans hx, hk⟩
    · cases hx'.symm.trans hx

theorem record (hw : w.known? b p = none) (hk : p.Recorded k) : w.Later (w.record b p k) := by
  intro b' q
  rw [known_record_eq]
  split
  · rename_i h
    obtain ⟨rfl, -, rfl⟩ := h
    exact .inr ⟨hw, k, rfl, hk⟩
  · exact .inl rfl

theorem known (h : w.Later x) (hk : w.known? b p = some k) : x.known? b p = some k := by
  rcases h b p with hx | ⟨hw, -⟩
  · rw [hx, hk]
  · cases hw.symm.trans hk

theorem given (h : w.Later x) (hp : ∀ k, ¬ p.Recorded k) : x.known? b p = w.known? b p :=
  (h b p).resolve_right fun ⟨_, k, _, hk⟩ => hp k hk

theorem recorded (h : w.Later x) (hw : w.known? b p = none) (hk : x.known? b p = some k) :
    p.Recorded k := by
  rcases h b p with hx | ⟨-, k', hk', hrec⟩
  · cases (hx.trans hw).symm.trans hk
  · exact Option.some.inj (hk'.symm.trans hk) ▸ hrec

theorem expr (h : w.Later x)
    (hw : ∀ v, w.known? b .parsedExpression = some (.ok v) → ∃ e, v = .expr e) (v : Artifact)
    (hv : x.known? b .parsedExpression = some (.ok v)) : ∃ e, v = .expr e := by
  rcases h b .parsedExpression with hx | ⟨-, k, hk, hrec⟩
  · exact hw v (hx ▸ hv)
  · cases hk.symm.trans hv
    exact hrec

end Later

/-- The source or the expression is there to name the binding in errors. -/
def Speaks (w : Workspace) (b : Binding) : Prop :=
  (∃ t, w.known? b .originalString = some (.ok (.text t)) ∧ t.isEmpty = false) ∨
    ∀ v, w.known? b .parsedExpression = some (.ok v) → ∃ e, v = .expr e

theorem Speaks.later (h : w.Speaks b) (hx : w.Later x) : x.Speaks b := by
  rcases h with ⟨t, ht, hne⟩ | h
  · exact .inl ⟨t, hx.known ht, hne⟩
  · exact .inr (hx.expr h)

theorem value?_eq_some {v : Artifact} : w.value? b p = some v ↔ w.known? b p = some (.ok v) := by
  unfold value?
  split <;> simp_all

/-- Errors can be noted exactly if there is something to name the binding by. -/
theorem speaks_iff (w : Workspace) (b : Binding) (e : Error) :
    w.Speaks b ↔ ∃ e', w.annotate b e = .error e' := by
  unfold Speaks annotate
  extract_lets source attach
  have hattach (t : Text) : ∃ e', attach t = .error e' := by
    simp only [attach]
    split
    · exact ⟨_, rfl⟩
    · split <;> exact ⟨_, rfl⟩
  have hsource : (∃ t, w.known? b .originalString = some (.ok (.text t)) ∧ t.isEmpty = false) ↔
      source.isEmpty = false := by
    simp only [source, ← value?_eq_some]
    split
    · rename_i t ht
      simp [ht]
    · rename_i hno
      exact ⟨fun ⟨t, ht, _⟩ => absurd ht (hno t), nofun⟩
  rw [hsource]
  cases source.isEmpty with
  | false => exact iff_of_true (.inl rfl) (hattach source)
  | true =>
    simp only [← value?_eq_some, Bool.true_eq_false, false_or, Bool.not_true, Bool.false_eq_true,
      if_false]
    split
    · rename_i x hx
      exact iff_of_true (fun v hv => ⟨x, Option.some.inj (hv.symm.trans hx)⟩) (hattach _)
    · rename_i v hno hv
      exact iff_of_false (fun h => (h v hv).elim hno) nofun
    · rename_i hnone
      exact iff_of_true (fun v hv => nomatch hnone.symm.trans hv) (hattach ∅)

/-- The source and the data context, if both are there, are of the kinds that parsing takes. -/
def Parses (w : Workspace) (b : Binding) : Prop :=
  ∀ vs, List.Forall₂ (fun p v => w.known? b p = some (.ok v)) [.originalString, .dataContext] vs →
    ∃ t s, vs = [.text t, .scope s]

/-- The expression is of its kind, or can be computed. -/
def Types (w : Workspace) (b : Binding) : Prop :=
  (∀ v, w.known? b .parsedExpression = some (.ok v) → ∃ e, v = .expr e) ∧
    (w.known? b .parsedExpression = none → w.Parses b)

theorem Parses.later (h : w.Parses b) (hx : w.Later x) : x.Parses b := by
  have hsource := hx.given (b := b) (p := .originalString) fun _ => id
  have hcontext := hx.given (b := b) (p := .dataContext) fun _ => id
  simpa only [Parses, List.forall₂_cons_left_iff, List.forall₂_nil_left_iff, hsource,
    hcontext] using h

theorem Types.later (h : w.Types b) (hx : w.Later x) : x.Types b := by
  refine ⟨hx.expr h.1, fun hnone => (h.2 ?_).later hx⟩
  cases hk : w.known? b .parsedExpression with
  | none => rfl
  | some k => cases hnone.symm.trans (hx.known hk)

end Workspace

/-! ## Requests of recording -/

namespace Compiler

variable {c : Compiler} {u : Universe} {o : Options} {b : Binding} {p : Property}
  {w x : Workspace} {n : Nat} {chain : List Property} {able : Prop} {a : Except Fault Artifact}

/-- The answer is an error or of the kind of the property if it can be computed, and otherwise a
crash. -/
def Ended (p : Property) (able : Prop) : Except Fault Artifact → Prop
  | .ok v => able ∧ p.Recorded (.ok v)
  | .error (.error _) => able
  | .error (.crash _) => ¬ able

theorem Ended.remembered (h : able) {k : Except Error Artifact} (hk : p.Recorded k) :
    Ended p able (remembered k) := by
  cases k with
  | ok v => exact ⟨h, hk⟩
  | error e => exact h

theorem getWithin_ended (hp : ∀ e, p.Recorded (.error e)) (hw : w.known? b p = none)
    (hchain : p ∉ chain) {r : Resolver} {run} (hf : c.function? p = some (r, run))
    (h : ∀ trace, ∃ a x, (c.compute b n (p :: chain) r run).run.run { w with trace } = (a, x) ∧
      w.Later x ∧ Ended p able a) :
    ∃ a x, (c.getWithin b (n + 1) chain p).run.run w = (a, x) ∧ w.Later x ∧ Ended p able a := by
  obtain ⟨trace, hrun⟩ := getWithin_computed hw hchain hf
  obtain ⟨a, x, hcompute, hx, ha⟩ := h trace
  have settled {k : Except Error Artifact} (hk : p.Recorded k) (hable : able)
      (hattempt : (attempt (c.compute b n (p :: chain) r run)).run.run { w with trace } =
        (.ok k, x)) : ∃ a x, (c.getWithin b (n + 1) chain p).run.run w = (a, x) ∧ w.Later x ∧
          Ended p able a := by
    rw [hrun, run_bind_ok hattempt, run_settle]
    cases hknown : x.known? b p with
    | some k' => exact ⟨_, x, rfl, hx, .remembered hable (hx.recorded hw hknown)⟩
    | none =>
      refine ⟨_, _, rfl, ?_, .remembered hable hk⟩
      split
      · exact hx.trans (.record hknown hk)
      · exact hx
  match a, ha with
  | .ok v, ha => exact settled ha.2 ha.1 (by rw [run_attempt, hcompute])
  | .error (.error e), ha => exact settled (hp e) ha (by rw [run_attempt, hcompute])
  | .error (.crash t), ha =>
    exact ⟨_, x, hrun.trans (run_bind_error (by rw [run_attempt, hcompute])), hx, ha⟩

theorem parsed_recorded (r : Except Error Expr) :
    Property.parsedExpression.Recorded (parsed r) := by
  rcases r with _ | e
  · trivial
  · cases e with
    | typeRef t => trivial
    | _ => exact ⟨_, rfl⟩

theorem compute_parsedExpression {run} (hrun : (Resolver.parsedExpression u).run = some run)
    (hchain : ∀ p ∈ [.originalString, .dataContext], p ∉ chain) :
    ∃ a x, ((standard u o).compute b (n + 1) chain (Resolver.parsedExpression u) run).run.run w =
      (a, x) ∧ x.memos = w.memos ∧ Ended .parsedExpression (w.Parses b) a := by
  have hinputs : ∀ p ∈ (Resolver.parsedExpression u).deps,
      (standard u o).function? p = none ∧ p ∉ chain := fun p hp => by
    refine ⟨?_, hchain p hp⟩
    rcases List.mem_pair.1 hp with rfl | rfl <;> rfl
  rcases required_inputs (b := b) (w := w) (n := n) hinputs with ⟨vs, hvs⟩ | ⟨e, hneeded⟩
  · by_cases hkinds : ∃ t s, vs = [.text t, .scope s]
    · obtain ⟨t, s, rfl⟩ := hkinds
      obtain _ | ⟨hsource, _ | ⟨hcontext, ⟨⟩⟩⟩ := hvs
      have hparses : w.Parses b := fun vs' hvs' => by
        obtain _ | ⟨hsource', _ | ⟨hcontext', ⟨⟩⟩⟩ := hvs'
        cases hsource.symm.trans hsource'
        cases hcontext.symm.trans hcontext'
        exact ⟨t, s, rfl⟩
      exact ⟨_, _, compute_parsed hrun hsource hcontext rfl, rfl,
        .remembered hparses (parsed_recorded _)⟩
    · obtain rfl := Option.some.inj hrun
      refine ⟨.error .misfit, w, (run_bind_ok (required_known hvs)).trans ?_, rfl,
        fun h => hkinds (h vs hvs)⟩
      obtain _ | @⟨_, v, _, _, -, _ | @⟨_, v', _, _, -, ⟨⟩⟩⟩ := hvs
      cases v with
      | text t =>
        cases v' with
        | scope s => exact absurd ⟨t, s, rfl⟩ hkinds
        | _ => rfl
      | _ => rfl
  · refine ⟨_, w, run_bind_error hneeded, rfl, fun vs hvs => ?_⟩
    cases (required_known hvs).symm.trans hneeded

theorem parsedExpression_ended (chain : List Property) (hw : w.known? b .parsedExpression = none)
    (hchain : ∀ p ∈ [.parsedExpression, .originalString, .dataContext], p ∉ chain) :
    ∃ a x, ((standard u o).getWithin b (n + 2) chain .parsedExpression).run.run w = (a, x) ∧
      w.Later x ∧ Ended .parsedExpression (w.Types b) a := by
  obtain ⟨run, hrun⟩ : ∃ run, (Resolver.parsedExpression u).run = some run := ⟨_, rfl⟩
  obtain ⟨hexpr, hinputs⟩ := List.forall_mem_cons.1 hchain
  refine getWithin_ended (p := .parsedExpression) (fun _ => trivial) hw hexpr
    (function?_eq_some.2 ⟨rfl, hrun⟩) fun trace => ?_
  have hinputs' : ∀ p ∈ [.originalString, .dataContext], p ∉ .parsedExpression :: chain := by
    simpa using hinputs
  obtain ⟨a, x, hcompute, hmemos, ha⟩ := compute_parsedExpression (o := o) (n := n) (b := b)
    (w := { w with trace }) hrun hinputs'
  have htypes : w.Types b ↔ w.Parses b := by simp [Workspace.Types, hw]
  rw [htypes]
  exact ⟨a, x, hcompute, .of_memos hmemos, ha⟩

def typeOf : Except Fault Artifact → Except Fault Artifact
  | .ok (.expr e) => .ok (.type e.type)
  | .ok _ => .error .misfit
  | .error e => .error e

theorem compute_resultType {run} (hrun : Resolver.resultType.run = some run)
    (h : ((standard u o).getWithin b n chain .parsedExpression).run.run w = (a, x)) :
    ((standard u o).compute b n chain Resolver.resultType run).run.run w = (typeOf a, x) := by
  obtain rfl := Option.some.inj hrun
  cases a with
  | error e =>
    have hneeded : (required ((standard u o).getWithin b n chain) [.parsedExpression]).run.run w =
        (.error e, x) := run_bind_error h
    exact run_bind_error hneeded
  | ok v =>
    have hneeded : (required ((standard u o).getWithin b n chain) [.parsedExpression]).run.run w =
        (.ok [v], x) := run_bind_ok h
    refine (run_bind_ok hneeded).trans ?_
    cases v <;> rfl

theorem typeOf_ended (h : Ended .parsedExpression able a) : Ended .resultType able (typeOf a) := by
  match a, h with
  | .ok _, ⟨h, e, rfl⟩ => exact ⟨h, _, rfl⟩
  | .error (.error _), h | .error (.crash _), h => exact h

theorem resultType_ended (hw : w.known? b .resultType = none) :
    ∃ a x, ((standard u o).getWithin b (n + 3) [] .resultType).run.run w = (a, x) ∧
      w.Later x ∧ Ended .resultType (w.Types b) a := by
  obtain ⟨run, hrun⟩ : ∃ run, Resolver.resultType.run = some run := ⟨_, rfl⟩
  refine getWithin_ended (p := .resultType) (fun _ => trivial) hw List.not_mem_nil
    (function?_eq_some.2 ⟨rfl, hrun⟩) fun trace => ?_
  match hexpr : w.known? b .parsedExpression with
  | some k =>
    refine ⟨_, _, compute_resultType hrun (getWithin_known (w := { w with trace }) hexpr),
      .of_memos rfl, ?_⟩
    have htypes : w.Types b ↔ ∀ v, k = .ok v → ∃ e, v = .expr e := by
      simp [Workspace.Types, hexpr]
    rw [htypes]
    match k with
    | .error e => exact fun v hv => nomatch hv
    | .ok v =>
      cases v with
      | expr e => exact ⟨fun v hv => ⟨e, (Except.ok.inj hv).symm⟩, _, rfl⟩
      | _ => exact fun h => nomatch h _ rfl
  | none =>
    obtain ⟨a, x, hask, hx, ha⟩ := parsedExpression_ended (u := u) (o := o) (n := n)
      (w := { w with trace }) [.resultType] hexpr (by simp)
    exact ⟨_, x, compute_resultType hrun hask, hx, typeOf_ended ha⟩

/-- What recording asks for, where it is not known. -/
theorem request_ended (hp : p = .parsedExpression ∨ p = .resultType) (hw : w.known? b p = none) :
    ∃ a x, ((standard u o).request b p).run.run w = (a, x) ∧ w.Later x ∧ Ended p (w.Types b) a := by
  rcases hp with rfl | rfl
  · exact parsedExpression_ended [] hw (by simp)
  · exact resultType_ended hw

/-- The answer can be named: it is a value, or an error that can be noted. -/
def Nameable (x : Workspace) (b : Binding) : Except Fault Artifact → Prop
  | .ok v => v ≠ .absent
  | .error (.error _) => x.Speaks b
  | .error (.crash _) => False

theorem Ended.nameable (h : Ended p able a) (hable : able) (hx : x.Speaks b) : Nameable x b a := by
  match a, h with
  | .ok v, ⟨_, hv⟩ =>
    rintro rfl
    cases p with
    | parsedExpression | resultType => obtain ⟨_, h⟩ := hv; cases h
    | _ => exact hv.elim
  | .error (.error e), _ => exact hx
  | .error (.crash t), h => exact h hable

/-- An answer that can be named once can be named later. -/
theorem request_again (hp : p = .parsedExpression ∨ p = .resultType)
    (h : ((standard u o).request b p).run.run w = (a, x)) (ha : Nameable x b a) :
    w.Later x ∧ ∀ y, x.Later y → ∃ a' z, ((standard u o).request b p).run.run y = (a', z) ∧
      y.Later z ∧ Nameable z b a' := by
  cases hw : w.known? b p with
  | some k =>
    cases (getWithin_known hw).symm.trans h
    refine ⟨.refl w, fun y hy => ⟨_, y, getWithin_known (hy.known hw), .refl y, ?_⟩⟩
    match k, ha with
    | .ok v, ha => exact ha
    | .error e, ha => exact ha.later hy
  | none =>
    obtain ⟨_, _, hrun, hx, hend⟩ := request_ended (u := u) (o := o) hp hw
    cases hrun.symm.trans h
    have htypes : w.Types b := by
      match a, hend, ha with
      | .ok v, hend, _ => exact hend.1
      | .error (.error e), hend, _ => exact hend
    refine ⟨hx, fun y hy => ?_⟩
    have hspeaks : y.Speaks b := .inr (htypes.later (hx.trans hy)).1
    cases hknown : y.known? b p with
    | some k =>
      refine ⟨_, y, getWithin_known hknown, .refl y, ?_⟩
      exact (Ended.remembered trivial ((hx.trans hy).recorded hw hknown)).nameable trivial hspeaks
    | none =>
      obtain ⟨a', z, hrun', hz, hend'⟩ := request_ended (u := u) (o := o) hp hknown
      exact ⟨a', z, hrun', hz, hend'.nameable (htypes.later (hx.trans hy)) (hspeaks.later hz)⟩

end Compiler

/-! ## Steps that can be repeated -/

namespace Resolving

/-- If the first step returns, the second one does so from every later workspace, with a result
that is related by `Q`. Both leave a later workspace behind. -/
def Repeats {α β : Type} (Q : α → β → Prop) (m : Resolving α) (m' : Resolving β) : Prop :=
  ∀ w a x, m.run.run w = (.ok a, x) → w.Later x ∧ ∀ y, x.Later y →
    ∃ b z, m'.run.run y = (.ok b, z) ∧ y.Later z ∧ Q a b

/-- The step can be repeated. -/
abbrev Repeatable {α : Type} (m : Resolving α) : Prop := Repeats (fun _ _ => True) m m

namespace Repeats

variable {α β γ δ : Type} {Q : α → β → Prop} {R : γ → δ → Prop} {m : Resolving α} {m' : Resolving β}

theorem pure {a : α} {b : β} (h : Q a b) : Repeats Q (pure a) (pure b) := by
  intro w _ _ hrun
  cases hrun
  exact ⟨.refl w, fun y _ => ⟨b, y, rfl, .refl y, h⟩⟩

theorem throw (e : Fault) : Repeats Q (throw e) m' := fun _ _ _ hrun => nomatch hrun

theorem bind {f : α → Resolving γ} {f' : β → Resolving δ} (h : Repeats Q m m')
    (hf : ∀ a b, Q a b → Repeats R (f a) (f' b)) : Repeats R (m >>= f) (m' >>= f') := by
  intro w c x hrun
  obtain ⟨a, w₁, hm, hrest⟩ := run_bind_eq_ok hrun
  obtain ⟨hw₁, again⟩ := h w a w₁ hm
  have hx : w₁.Later x := by
    obtain ⟨b, _, -, -, hab⟩ := again w₁ (.refl w₁)
    exact (hf a b hab w₁ c x hrest).1
  refine ⟨hw₁.trans hx, fun y hy => ?_⟩
  obtain ⟨b, y₁, hm', hy₁, hab⟩ := again y (hx.trans hy)
  obtain ⟨d, z, hrest', hz, hcd⟩ := (hf a b hab w₁ c x hrest).2 y₁ (hy.trans hy₁)
  exact ⟨d, z, (run_bind_ok hm').trans hrest', hy₁.trans hz, hcd⟩

end Repeats

end Resolving

namespace Compiler

variable {u : Universe} {o : Options} {b : Binding} {p : Property} {w x : Workspace}

/-- Asking again for a property that is only an input gives the same. -/
theorem repeats_input (hf : (standard u o).function? p = none) (hp : ∀ k, ¬ p.Recorded k) :
    Repeats (fun r r' => r.toOption = r'.toOption) (attempt ((standard u o).get b p))
      (attempt ((standard u o).get b p)) := by
  intro w r x hrun
  rw [run_attempt] at hrun
  rcases getWithin_input hf List.not_mem_nil b w Property.all.length with ⟨v, hv⟩ | ⟨e, hask⟩
  · rw [get_run_ok (getWithin_known hv)] at hrun
    cases hrun
    refine ⟨.refl w, fun y hy => ⟨.ok v, y, ?_, .refl y, rfl⟩⟩
    rw [run_attempt, get_run_ok (getWithin_known (hy.known hv))]
  · rw [get_run_error hask] at hrun
    cases hnote : w.annotate b e with
    | crash t =>
      rw [hnote] at hrun
      cases hrun
    | error e₁ =>
      rw [hnote] at hrun
      cases hrun
      have hspeaks := (w.speaks_iff b e).2 ⟨_, hnote⟩
      refine ⟨.refl w, fun y hy => ?_⟩
      rcases getWithin_input hf List.not_mem_nil b y Property.all.length with ⟨v, hv⟩ | ⟨e', hask'⟩
      · rw [hy.given hp] at hv
        cases (getWithin_known hv).symm.trans hask
      · obtain ⟨e₂, he₂⟩ := (y.speaks_iff b e').1 (hspeaks.later hy)
        exact ⟨.error e₂, y, by rw [run_attempt, get_run_error hask', he₂], .refl y, rfl⟩

section Named

variable {α β : Type} {c : Compiler} {kind : Expected α}
  {f : Except Error (Option α) → Resolving β} (hnone : f (.ok none) = throw .misfit)
  (hsome : ∀ r, r ≠ .ok none → ∃ t, f r = pure t)

include hnone hsome

theorem named_run {a : Except Fault Artifact} (h : (c.request b p).run.run w = (a, x)) :
    (Nameable x b a ∧ ∃ t, (attempt (c.getAs b p kind) >>= f).run.run w = (.ok t, x)) ∨
      (¬ Nameable x b a ∧ ∃ e, (attempt (c.getAs b p kind) >>= f).run.run w = (.error e, x)) := by
  have returned {r : Except Error (Option α)} (hr : r ≠ .ok none)
      (hattempt : (attempt (c.getAs b p kind)).run.run w = (.ok r, x)) :
      ∃ t, (attempt (c.getAs b p kind) >>= f).run.run w = (.ok t, x) := by
    obtain ⟨t, ht⟩ := hsome r hr
    rw [run_bind_ok hattempt, ht]
    exact ⟨t, rfl⟩
  rcases a with (e | t) | v
  case ok =>
    by_cases hv : v = .absent
    · subst hv
      have hgetAs : (c.getAs b p kind).run.run w = (.ok none, x) := run_bind_ok (get_run_ok h)
      rw [run_bind_ok (by rw [run_attempt, hgetAs]), hnone]
      exact .inr ⟨fun h => h rfl, .misfit, rfl⟩
    · refine .inl ⟨hv, ?_⟩
      have hgetAs : ∃ r, (c.getAs b p kind).run.run w = (r, x) ∧
          ((∃ a, r = .ok (some a)) ∨ ∃ e, r = .error (.error e)) := by
        rw [getAs, run_bind_ok (get_run_ok h)]
        split
        · exact absurd rfl hv
        · split
          · exact ⟨_, rfl, .inl ⟨_, rfl⟩⟩
          · exact ⟨_, rfl, .inr ⟨_, rfl⟩⟩
      obtain ⟨_, hrun, ⟨a, rfl⟩ | ⟨e, rfl⟩⟩ := hgetAs
      · exact returned (r := .ok (some a)) (by rintro ⟨⟩) (by rw [run_attempt, hrun])
      · exact returned (r := .error e) (by rintro ⟨⟩) (by rw [run_attempt, hrun])
  case error.error =>
    have hgetAs : (c.getAs b p kind).run.run w = (.error (x.annotate b e), x) :=
      run_bind_error (get_run_error h)
    cases hnote : x.annotate b e with
    | error e' =>
      rw [hnote] at hgetAs
      exact .inl ⟨(x.speaks_iff b e).2 ⟨e', hnote⟩,
        returned (r := .error e') (by rintro ⟨⟩) (by rw [run_attempt, hgetAs])⟩
    | crash t =>
      rw [hnote] at hgetAs
      refine .inr ⟨fun hspeaks => ?_, _, run_bind_error (by rw [run_attempt, hgetAs])⟩
      obtain ⟨e', he'⟩ := (x.speaks_iff b e).1 hspeaks
      cases hnote.symm.trans he'
  case error.crash =>
    have hget : (c.get b p).run.run w = (.error (.crash t), x) :=
      run_bind_error (by rw [run_attempt]; exact h ▸ rfl)
    have hgetAs : (c.getAs b p kind).run.run w = (.error (.crash t), x) := run_bind_error hget
    exact .inr ⟨id, _, run_bind_error (by rw [run_attempt, hgetAs])⟩

theorem repeatable_named (hp : p = .parsedExpression ∨ p = .resultType) :
    Repeatable (attempt ((standard u o).getAs b p kind) >>= f) := by
  intro w t x hrun
  rcases hask : ((standard u o).request b p).run.run w with ⟨a, x'⟩
  rcases named_run hnone hsome hask with ⟨ha, _, hname⟩ | ⟨-, _, hname⟩ <;>
    cases hname.symm.trans hrun
  obtain ⟨hx, again⟩ := request_again hp hask ha
  refine ⟨hx, fun y hy => ?_⟩
  obtain ⟨a', z, hask', hz, ha'⟩ := again y hy
  obtain ⟨-, t, ht⟩ := (named_run hnone hsome hask').resolve_right fun h => h.1 ha'
  exact ⟨t, z, ht, hz, trivial⟩

end Named

theorem repeatable_recordedProperty : Repeatable ((standard u o).recordedProperty b) := by
  refine (repeats_input (p := .declaringProperty) rfl fun _ => id).bind fun r r' hr => ?_
  rcases r with e | v <;> rcases r' with e' | v' <;> cases hr
  · exact .pure trivial
  · cases v with
    | text t => exact .pure trivial
    | _ => exact .throw _

theorem repeatable_recordedCode : Repeatable ((standard u o).recordedCode b) := by
  refine (repeats_input (p := .originalString) rfl fun _ => id).bind fun r r' hr => ?_
  rcases r with e | v <;> rcases r' with e' | v' <;> cases hr
  · refine repeatable_named rfl (fun r hr => ?_) (.inl rfl)
    rcases r with e | _ | e <;> first | exact ⟨_, rfl⟩ | exact absurd rfl hr
  · cases v with
    | text t => exact .pure trivial
    | _ => exact .throw _

theorem repeatable_recordedType : Repeatable ((standard u o).recordedType b) := by
  refine repeatable_named rfl (fun r hr => ?_) (.inr rfl)
  rcases r with e | _ | t <;> first | exact ⟨_, rfl⟩ | exact absurd rfl hr

/-- Once an entry was made, one can be made again. -/
theorem repeatable_entry (r : Compiled) : Repeatable ((standard u o).entry r) := by
  rw [entry]
  exact repeatable_recordedCode.bind fun _ _ _ => repeatable_recordedProperty.bind fun _ _ _ =>
    repeatable_recordedType.bind fun _ _ _ => .pure trivial

theorem id_of_entry {c : Compiler} {r : Compiled} {e : Entry}
    (h : (c.entry r).run.run w = (.ok e, x)) : e.id = r.id := by
  rw [entry] at h
  obtain ⟨code, w₁, -, h⟩ := run_bind_eq_ok h
  obtain ⟨property, w₂, -, h⟩ := run_bind_eq_ok h
  obtain ⟨type, w₃, -, h⟩ := run_bind_eq_ok h
  cases h
  rfl

end Compiler

/-! ## Results of pages -/

namespace Manifest

open Compiler

variable {u : Universe} {o : Options} {c : Compiler} {w x : Workspace} {m m' : Manifest}
  {rs : List Compiled} {name : Text} {page : Page}

/-- The results that a manifest records: those with an identity. -/
def recorded (rs : List Compiled) : List Compiled := rs.filter fun r => !r.id.isEmpty

/-- Recording results makes their entries one after the other, and adds those whose identities are
new. -/
theorem addAll_of_addResults (h : (addResults c rs m).run.run w = (.ok m', x)) :
    ∃ es : List Entry, ((recorded rs).mapM c.entry).run.run w = (.ok es, x) ∧
      es.map (·.id) = (recorded rs).map (·.id) ∧ m' = m.addAll es := by
  induction rs generalizing w m with
  | nil =>
    cases h
    exact ⟨[], rfl, rfl, rfl⟩
  | cons r rs ih =>
    rw [addResults] at h
    by_cases hid : r.id.isEmpty
    · have hskip : recorded (r :: rs) = recorded rs := List.filter_cons_of_neg (by simp [hid])
      rw [if_pos hid] at h
      rw [hskip]
      exact ih h
    · have hkeep : recorded (r :: rs) = r :: recorded rs := List.filter_cons_of_pos (by simp [hid])
      rw [if_neg hid] at h
      obtain ⟨e, y, hentry, hrest⟩ := run_bind_eq_ok h
      obtain ⟨es, hes, hids, hm⟩ := ih hrest
      refine ⟨e :: es, ?_, by rw [hkeep, List.map_cons, List.map_cons, hids, id_of_entry hentry],
        hm⟩
      rw [hkeep, List.mapM_cons, run_bind_ok hentry, run_bind_ok hes]
      rfl

theorem repeats_addResults (rs : List Compiled) (m m' : Manifest) :
    Repeats (fun _ _ => True) (addResults (standard u o) rs m)
      (addResults (standard u o) rs m') := by
  induction rs generalizing m m' with
  | nil => exact .pure trivial
  | cons r rs ih =>
    rw [addResults, addResults]
    split
    · exact ih m m'
    · exact (repeatable_entry r).bind fun e e' _ => ih (m.add e) (m'.add e')

/-! ## Histories -/

/-- The second manifest comes from the first by adding entries and pages, by any compilers and from
any workspaces. -/
inductive Leads (m : Manifest) : Manifest → Prop
  | refl : Leads m m
  | add {m₁ : Manifest} (e : Entry) : Leads m m₁ → Leads m (m₁.add e)
  | page {m₁ m₂ : Manifest} {c : Compiler} {name : Text} {page : Page} {w x : Workspace} :
    Leads m m₁ → (m₁.addPage c name page).run.run w = (.ok m₂, x) → Leads m m₂

theorem pages_add (m : Manifest) (e : Entry) : (m.add e).pages = m.pages := pages_addAll m [e]

theorem list_addName (m : Manifest) (name : Text) : (m.addName name).list = m.list := by
  unfold addName
  split <;> rfl

theorem lookup_addName (m : Manifest) (name id : Text) :
    (m.addName name).lookup id = m.lookup id := by
  rw [lookup, list_addName, lookup]

theorem mem_pages_addName {t : Text} : t ∈ (m.addName name).pages ↔ t ∈ m.pages ∨ t = name := by
  unfold addName
  split
  · rename_i h
    rw [List.contains_iff_mem] at h
    exact ⟨.inl, fun ht => ht.elim id (· ▸ h)⟩
  · simp

/-- The manifest has the page, and an entry for each identity of its bindings. -/
def Covers (m : Manifest) (name : Text) (page : Page) : Prop :=
  name ∈ m.pages ∧ ∀ id ∈ (recorded page.results).map (·.id), (m.lookup id).isSome

theorem lookup_addPage (h : (m.addPage c name page).run.run w = (.ok m', x)) :
    ∃ es : List Entry, ((recorded page.results).mapM c.entry).run.run w = (.ok es, x) ∧
      es.map (·.id) = (recorded page.results).map (·.id) ∧
      ∀ id, m'.lookup id = (m.lookup id).or (es.find? (·.id == id)) := by
  obtain ⟨es, hes, hids, rfl⟩ := addAll_of_addResults h
  exact ⟨es, hes, hids, fun id => by rw [lookup_addAll, lookup_addName]⟩

theorem Covers.of_addPage (h : (m.addPage c name page).run.run w = (.ok m', x)) :
    m'.Covers name page := by
  obtain ⟨es, -, hes, rfl⟩ := addAll_of_addResults h
  refine ⟨by rw [pages_addAll, mem_pages_addName]; exact .inr rfl, fun id hid => ?_⟩
  rw [← hes] at hid
  obtain ⟨e, he, rfl⟩ := List.mem_map.1 hid
  rw [lookup_addAll, Option.isSome_or, Bool.or_eq_true]
  exact .inr (List.find?_isSome.2 ⟨e, he, beq_self_eq_true e.id⟩)

theorem addAll_eq_self {es : List Entry} (h : ∀ e ∈ es, (m.lookup e.id).isSome) :
    m.addAll es = m := by
  induction es with
  | nil => rfl
  | cons e es ih =>
    obtain ⟨he, hes⟩ := List.forall_mem_cons.1 h
    have hadd : m.addAll (e :: es) = (m.add e).addAll es := rfl
    rw [hadd, add, if_pos he]
    exact ih hes

/-- Adding a page that is covered changes nothing. -/
theorem Covers.addPage_eq (h : m.Covers name page)
    (hrun : (m.addPage c name page).run.run w = (.ok m', x)) : m' = m := by
  obtain ⟨es, -, hes, rfl⟩ := addAll_of_addResults hrun
  have hname : m.addName name = m := if_pos (List.contains_iff_mem.2 h.1)
  rw [hname]
  refine addAll_eq_self fun e he => h.2 e.id ?_
  rw [← hes]
  exact List.mem_map_of_mem he

namespace Leads

/-- What adding one entry and one name keeps is kept all along. -/
theorem keeps {P : Manifest → Prop} (hm : m.Leads m') (h : P m)
    (hadd : ∀ m e, P m → P (m.add e)) (hname : ∀ m name, P m → P (m.addName name)) : P m' := by
  induction hm with
  | refl => exact h
  | add e _ ih => exact hadd _ e ih
  | page _ hrun ih =>
    obtain ⟨es, -, -, rfl⟩ := addAll_of_addResults hrun
    exact List.foldlRecOn es Manifest.add (hname _ _ ih) fun m hm e _ => hadd m e hm

theorem distinct (hm : m.Leads m') (h : m.Distinct) : m'.Distinct :=
  hm.keeps h (fun _ e h => h.add e) fun m name h => by rwa [Distinct, list_addName]

theorem lookup (hm : m.Leads m') {id : Text} {e : Entry} (h : m.lookup id = some e) :
    m'.lookup id = some e :=
  hm.keeps h (fun m e' h => by rw [lookup_add, h, Option.some_or])
    fun m name h => (m.lookup_addName name id).trans h

theorem pages (hm : m.Leads m') (h : name ∈ m.pages) : name ∈ m'.pages :=
  hm.keeps (P := fun m => name ∈ m.pages) h (fun m e h => by rwa [pages_add])
    fun _ _ h => mem_pages_addName.2 (.inl h)

theorem covers (hm : m.Leads m') (h : m.Covers name page) : m'.Covers name page := by
  refine ⟨hm.pages h.1, fun id hid => ?_⟩
  obtain ⟨e, he⟩ := Option.isSome_iff_exists.1 (h.2 id hid)
  rw [hm.lookup he]
  rfl

end Leads

theorem entries_entries (m : Manifest) :
    ({ m with list := m.entries } : Manifest).entries = m.entries :=
  List.mergeSort_of_pairwise (@List.pairwise_mergeSort _ (fun a b : Entry => a.id.le b.id)
    (fun _ _ _ => Text.le_trans) (fun a b => Text.le_total a.id b.id) m.list)

/-- What comes of adding entries and pages. If its texts are UTF-8, its data stands for a manifest
with the same pages and entries. There is one entry for each identity, the first that was added: of
a page, the entry of its first result with that identity. A page that was added adds nothing when it
is added again, and it can be. -/
theorem history_round_trip (h : ({} : Manifest).Leads m) :
    ((∀ t ∈ m.pages, t.isUtf8) → (∀ e ∈ m.list, e.isUtf8) →
      ∃ d m', m.toData = .ok d ∧ ofData d = .ok m' ∧ m'.pages = m.pages ∧
        m'.entries = m.entries ∧ ∀ id, m'.lookup id = m.lookup id) ∧
    m.Distinct ∧
    (∀ e id, (m.add e).lookup id = (m.lookup id).or (if e.id = id then some e else none)) ∧
    ∀ c name page w m₁ x, (m.addPage c name page).run.run w = (.ok m₁, x) →
      (∃ es : List Entry, ((recorded page.results).mapM c.entry).run.run w = (.ok es, x) ∧
        es.map (·.id) = (recorded page.results).map (·.id) ∧
        ∀ id, m₁.lookup id = (m.lookup id).or (es.find? (·.id == id))) ∧
      ∀ m₂, m₁.Leads m₂ →
        (∀ c' y m₃ z, (m₂.addPage c' name page).run.run y = (.ok m₃, z) → m₃ = m₂) ∧
        ∀ u o, c = standard u o → ∃ y, (m₂.addPage c name page).run.run x = (.ok m₂, y) := by
  have hdistinct : m.Distinct := h.distinct List.nodup_nil
  refine ⟨fun hpages hlist => ?_, hdistinct, m.lookup_add, fun c name page w m₁ x hrun => ?_⟩
  · exact ⟨_, _, toData_eq_ok_iff.2 ⟨⟨hpages, hlist⟩, rfl⟩, ofData_data m, rfl, m.entries_entries,
      hdistinct.lookup_entries⟩
  · refine ⟨lookup_addPage hrun, fun m₂ hm₂ => ?_⟩
    have hcovers : m₂.Covers name page := hm₂.covers (.of_addPage hrun)
    refine ⟨fun c' y m₃ z => hcovers.addPage_eq, ?_⟩
    rintro u o rfl
    obtain ⟨m₃, y, hagain, -⟩ :=
      (repeats_addResults page.results _ (m₂.addName name) w m₁ x hrun).2 x (.refl x)
    exact ⟨y, hcovers.addPage_eq hagain ▸ hagain⟩

end Manifest

namespace Linked

open Compiler

/-- Three bindings with two identities are read back as two entries, and add nothing when they are
added again. -/
theorem history_round_trip_repeated : ∃ page w m x,
    ((standard types {}).compilePage false repeated).run.run {} = (.ok page, w) ∧
    (Manifest.addPage {} (standard types {}) "page" page).run.run w = (.ok m, x) ∧
    page.results.length = 3 ∧ m.size = 2 ∧
    (∃ d m', m.toData = .ok d ∧ Manifest.ofData d = .ok m' ∧ m'.pages = m.pages ∧
      m'.entries = m.entries ∧ ∀ id, m'.lookup id = m.lookup id) ∧
    ∃ y, (m.addPage (standard types {}) "page" page).run.run x = (.ok m, y) := by
  have hsummary : ((do
      let page ← (standard types {}).compilePage false repeated
      let m ← Manifest.addPage {} (standard types {}) "page" page
      return (page.results.length, m.size, m.pages.all Text.isUtf8 && m.list.all Entry.isUtf8) :
        Resolving (Nat × Nat × Bool)).run.run {}).1.toOption = some (3, 2, true) := by
    decide +kernel
  rcases hpage : ((standard types {}).compilePage false repeated).run.run {} with ⟨e | page, w⟩
  · rw [run_bind_error hpage] at hsummary
    cases hsummary
  rw [run_bind_ok hpage] at hsummary
  rcases hm : (Manifest.addPage {} (standard types {}) "page" page).run.run w with ⟨e | m, x⟩
  · rw [run_bind_error hm] at hsummary
    cases hsummary
  rw [run_bind_ok hm] at hsummary
  obtain ⟨hresults, hsize, hutf8⟩ : page.results.length = 3 ∧ m.size = 2 ∧
      (m.pages.all Text.isUtf8 && m.list.all Entry.isUtf8) := by
    simpa using Option.some.inj hsummary
  obtain ⟨hpages, hlist⟩ := Bool.and_eq_true_iff.1 hutf8
  have hread := (Manifest.history_round_trip (.page .refl hm)).1 (List.all_eq_true.1 hpages)
    (List.all_eq_true.1 hlist)
  have hagain := ((Manifest.history_round_trip .refl).2.2.2 _ _ _ _ m x hm).2 m .refl
  exact ⟨page, w, m, x, rfl, hm, hresults, hsize, hread, hagain.2 types {} rfl⟩

end Linked

end Bindery
