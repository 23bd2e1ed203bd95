import Bindery.Proofs.CleanCode
import Bindery.Proofs.CleanSources
import Bindery.Proofs.PageSchedules

/-!
# Clean bindings

What the standard compiler remembers of a binding has the kind that belongs to its property, and is
clean (`Property.Admits`). Compiling a page of clean inputs keeps to that
(`Compiler.compileIn_keeps`), forgets nothing and leaves alone what it does not compute
(`Workspace.Grows`). Asking for the source, the declaring property, the expression or its type
never crashes (`Compiler.input_calm`, `Compiler.parsedExpression_calm`, `Compiler.resultType_calm`).
-/

namespace Bindery

open Resolving

/-- The value has the kind that belongs to the property, and its texts are UTF-8. A binding that is
`blank` has neither a source nor an expression. -/
def Property.Admits (blank : Prop) : Property → Artifact → Prop
  | .originalString, v => (∃ t, v = .text t ∧ Source.isClean t) ∧ ¬ blank
  | .declaringProperty, v => ∃ t, v = .text t ∧ t.isUtf8
  | .dataContext, v => ∃ s, v = .scope s ∧ s.Clean
  | .parsedExpression, v => (∃ e, v = .expr e ∧ e.Clean) ∧ ¬ blank
  | .castedExpression, v => ∃ e, v = .expr e ∧ e.Clean
  | .expectedType, v => ∃ t, v = .type t ∧ t.Clean
  | .resultType, v => ∃ t, v = .type t ∧ t.Clean
  | .scriptAST, v => ∃ s, v = .script s ∧ s.Clean
  | .resolvedScript, v => ∃ r, v = .resolved r ∧ r.root.Clean
  | .valueScript, v => ∃ c, v = .code c ∧ c.Clean
  | .cellScript, v => ∃ c, v = .code c ∧ c.Clean
  | .id, v => ∃ t, v = .id t ∧ t.isUtf8
  | _, _ => True

/-- What is known of the property is admitted, or is a clean error. -/
abbrev Property.Known (blank : Prop) (p : Property) : Except Error Artifact → Prop :=
  Ends (p.Admits blank) Error.Clean

namespace Workspace

/-- What is known of bindings has the kinds of the properties, and is clean. -/
structure Kinded (blank : Binding → Prop) (w : Workspace) : Prop where
  table : w.names.table.Clean
  admits : ∀ b p k, w.known? b p = some k → p.Known (blank b) k

theorem kinded_empty (blank : Binding → Prop) : ({} : Workspace).Kinded blank :=
  ⟨nofun, fun _ _ _ hk => nomatch hk⟩

/-- What was known is still known, and nothing is new about properties that are only inputs. -/
structure Grows (c : Compiler) (w x : Workspace) : Prop where
  size : x.memos.size = w.memos.size
  known : ∀ b p k, w.known? b p = some k → x.known? b p = some k
  given : ∀ b p, c.function? p = none → x.known? b p = w.known? b p

variable {blank : Binding → Prop} {c : Compiler} {w x y : Workspace}

theorem Grows.refl (c : Compiler) (w : Workspace) : w.Grows c w :=
  ⟨rfl, fun _ _ _ => id, fun _ _ _ => rfl⟩

theorem Grows.trans (h : w.Grows c x) (h' : x.Grows c y) : w.Grows c y where
  size := h'.size.trans h.size
  known b p k hk := h'.known b p k (h.known b p k hk)
  given b p hp := (h'.given b p hp).trans (h.given b p hp)

theorem Grows.of_memos (c : Compiler) (h : x.memos = w.memos) : w.Grows c x := by
  have hknown (b : Binding) (p : Property) : x.known? b p = w.known? b p := by
    rw [known?, memo, h, known?, memo]
  exact ⟨by rw [h], fun b p k hk => (hknown b p).trans hk, fun b p _ => hknown b p⟩

theorem Kinded.of_memos (hw : w.Kinded blank) (h : x.memos = w.memos)
    (htable : x.names.table.Clean) : x.Kinded blank where
  table := htable
  admits b p k hk := by
    rw [known?, memo, h] at hk
    exact hw.admits b p k hk

theorem known_record_eq (b b' : Binding) (p q : Property) (k : Except Error Artifact) :
    (w.record b p k).known? b' q =
      if b' = b ∧ b.number < w.memos.size ∧ q = p then some k else w.known? b' q := by
  by_cases hb : b' = b
  · subst hb
    by_cases hin : b'.number < w.memos.size
    · rw [known_record hin]
      simp [hin]
    · have hout : w.memos[b'.number]? = none := by
        rw [Array.getElem?_eq_none]
        omega
      have hmemo : (w.record b' p k).memo b' = w.memo b' := by
        simp [memo, record, Array.getD_eq_getD_getElem?, Array.getElem?_modify, hout]
      rw [known?, hmemo]
      simp [hin, known?]
  · rw [known?, memo_record_ne hb]
    simp [hb, known?]

theorem Grows.record {b : Binding} {p : Property} (hk : w.known? b p = none)
    (hp : (c.function? p).isSome) (k : Except Error Artifact) :
    w.Grows c (w.record b p k) where
  size := size_record
  known b' q k' hk' := by
    rw [known_record_eq, if_neg]
    · exact hk'
    · rintro ⟨rfl, -, rfl⟩
      rw [hk] at hk'
      cases hk'
  given b' q hq := by
    rw [known_record_eq, if_neg]
    rintro ⟨-, -, rfl⟩
    rw [hq] at hp
    cases hp

theorem Kinded.record (hw : w.Kinded blank) {b : Binding} {p : Property}
    {k : Except Error Artifact} (hk : p.Known (blank b) k) : (w.record b p k).Kinded blank where
  table := hw.table
  admits b' q k' hk' := by
    rw [known_record_eq] at hk'
    split at hk'
    · rename_i h
      obtain ⟨rfl, -, rfl⟩ := h
      exact Option.some.inj hk' ▸ hk
    · exact hw.admits b' q k' hk'

end Workspace

/-! ## Steps that keep to the kinds -/

namespace Resolving

abbrev Outcome {α : Type} (calm : Bool) (P : α → Prop) : Except Fault α → Prop :=
  Ends P (Fault.Calm calm)

variable {calm : Bool}

theorem outcome_remembered {blank : Prop} {p : Property} {k : Except Error Artifact}
    (h : p.Known blank k) : Outcome calm (p.Admits blank) (remembered k) := by
  cases k with
  | ok v | error e => exact h

theorem outcome_of {α : Type} {P : α → Prop} {Q : Artifact → Prop} {f : α → Artifact}
    {r : Except Error α} (h : Ends P Error.Clean r) (hf : ∀ a, P a → Q (f a)) :
    Outcome calm Q (Resolver.outcome f r) := by
  cases r with
  | ok a => exact hf a h
  | error e => exact h

/-- From a workspace that keeps to the kinds, the step leaves one that has grown from it and keeps
to them too. -/
def Keeps {α : Type} (blank : Binding → Prop) (c : Compiler) (calm : Bool) (m : Resolving α)
    (P : α → Prop) : Prop :=
  ∀ w, w.Kinded blank → ∃ o x, m.run.run w = (o, x) ∧ x.Kinded blank ∧ w.Grows c x ∧
    Outcome calm P o

namespace Keeps

variable {blank : Binding → Prop} {c : Compiler} {calm : Bool} {α β : Type}
  {m : Resolving α} {f : α → Resolving β} {P P' : α → Prop} {Q : β → Prop}

theorem pure {a : α} (h : P a) : Keeps blank c calm (Pure.pure a) P :=
  fun w hw => ⟨_, w, rfl, hw, .refl c w, h⟩

theorem throw {e : Error} (h : e.Clean) :
    Keeps blank c calm (MonadExcept.throw (.error e) : Resolving α) P :=
  fun w hw => ⟨_, w, rfl, hw, .refl c w, h⟩

theorem misfit : Keeps blank c false (MonadExcept.throw .misfit : Resolving α) P :=
  fun w hw => ⟨_, w, rfl, hw, .refl c w, rfl⟩

theorem mono (h : Keeps blank c calm m P) (hP : ∀ a, P a → P' a) : Keeps blank c calm m P' := by
  intro w hw
  obtain ⟨o, x, hrun, hx, hgrows, ho⟩ := h w hw
  exact ⟨o, x, hrun, hx, hgrows, ho.imp hP fun _ => id⟩

theorem weaken (h : Keeps blank c calm m P) : Keeps blank c false m P := by
  intro w hw
  obtain ⟨o, x, hrun, hx, hgrows, ho⟩ := h w hw
  refine ⟨o, x, hrun, hx, hgrows, ho.imp (fun _ => id) fun e he => ?_⟩
  cases e with
  | error e => exact he
  | crash t => rfl

theorem bind (h : Keeps blank c calm m P) (hf : ∀ a, P a → Keeps blank c calm (f a) Q) :
    Keeps blank c calm (m >>= f) Q := by
  intro w hw
  obtain ⟨o, x, hrun, hx, hgrows, ho⟩ := h w hw
  cases o with
  | error e => exact ⟨_, x, run_bind_error hrun, hx, hgrows, ho⟩
  | ok a =>
    obtain ⟨o, y, hrun', hy, hgrows', ho⟩ := hf a ho x hx
    exact ⟨o, y, (run_bind_ok hrun).trans hrun', hy, hgrows.trans hgrows', ho⟩

theorem attempt (h : Keeps blank c calm m P) :
    Keeps blank c calm (Resolving.attempt m) (Ends P Error.Clean) := by
  intro w hw
  obtain ⟨o, x, hrun, hx, hgrows, ho⟩ := h w hw
  rw [run_attempt, hrun]
  cases o with
  | ok a => exact ⟨_, x, rfl, hx, hgrows, ho⟩
  | error e =>
    cases e with
    | error e | crash t => exact ⟨_, x, rfl, hx, hgrows, ho⟩

theorem attempt_run (h : Keeps blank c true m P) {w : Workspace} (hw : w.Kinded blank) :
    ∃ r x, (Resolving.attempt m).run.run w = (.ok r, x) ∧ x.Kinded blank ∧ w.Grows c x ∧
      Ends P Error.Clean r := by
  obtain ⟨o, x, hrun, hx, hgrows, ho⟩ := h.attempt w hw
  cases o with
  | ok r => exact ⟨r, x, hrun, hx, hgrows, ho⟩
  | error e =>
    obtain ⟨t, rfl⟩ := crash_of_attempt hrun
    cases ho

theorem settle {b : Binding} {p : Property} (hp : (c.function? p).isSome)
    {r : Except Error Artifact} (hr : p.Known (blank b) r) :
    Keeps blank c calm (Resolving.settle b p r) (p.Admits (blank b)) := by
  intro w hw
  rw [run_settle]
  cases hk : w.known? b p with
  | some k => exact ⟨_, w, rfl, hw, .refl c w, outcome_remembered (hw.admits b p k hk)⟩
  | none =>
    refine ⟨_, _, rfl, ?_, ?_, outcome_remembered hr⟩
    · split
      · exact hw.record hr
      · exact hw
    · split
      · exact .record hk hp r
      · exact .refl c w

theorem of_memos (h : ∀ w, w.Kinded blank → ∃ o x, m.run.run w = (o, x) ∧ x.memos = w.memos ∧
    x.names.table.Clean ∧ Outcome calm P o) : Keeps blank c calm m P := by
  intro w hw
  obtain ⟨o, x, hrun, hmemos, htable, ho⟩ := h w hw
  exact ⟨o, x, hrun, hw.of_memos hmemos htable, .of_memos c hmemos, ho⟩

theorem naming {step : Source.Binder α} (h : step.Cleanly P) :
    Keeps blank c calm (Resolving.naming step) P := by
  refine .of_memos fun w hw => ?_
  obtain ⟨r, t, hrun, ht, hr⟩ := h w.names hw.table
  rw [run_naming, hrun]
  cases r with
  | ok a | error e => exact ⟨_, _, rfl, rfl, ht, hr⟩

theorem liftExcept {P : Artifact → Prop} {r : Except Fault Artifact} (h : Outcome calm P r) :
    Keeps blank c calm (Resolver.pure.liftExcept r) P := by
  intro w hw
  cases r with
  | ok v | error e => exact ⟨_, w, rfl, hw, .refl c w, h⟩

end Keeps

end Resolving

/-! ## Resolvers -/

theorem Identity.isUtf8_compute (i : Identity) : i.compute.isUtf8 := Text.isUtf8_ofChars _

theorem Options.format_clean (o : Options) {s : Script} (hs : s.Clean) : (o.format s).Clean :=
  (o.finish_clean hs).format o.debug

theorem Property.isUtf8_name (p : Property) : p.name.isUtf8 := by
  cases p <;> exact Text.isUtf8_ofString _

namespace Compiler

variable {blank : Binding → Prop} {u : Universe} {o : Options} {b : Binding}

/-- The properties that compiling a page and recording it ask for. -/
def asked (p : Property) : Bool := onPage p || p == .resultType

/-- The property is computed without a crash. -/
def isCalm (p : Property) : Bool := p == .parsedExpression || p == .resultType

/-- The value is admitted, or absent. -/
def Fits (blank : Prop) (p : Property) (v : Artifact) : Prop := p.Admits blank v ∨ v = .absent

theorem identity_outcome {blank : Prop} {source expr : Artifact}
    (hsource : Fits blank .originalString source) (hexpr : Fits blank .parsedExpression expr)
    (context index location property : Artifact) :
    Outcome false (Property.id.Admits blank)
      (Resolver.identity [context, index, source, expr, location, property]) := by
  have made (i : Identity) : Property.id.Admits blank (.id i.compute) := ⟨_, rfl, i.isUtf8_compute⟩
  cases context with
  | scope s =>
    cases index with
    | int n =>
      rcases hsource with ⟨⟨t, rfl, -⟩, -⟩ | rfl
      · exact made _
      · rcases hexpr with ⟨⟨e, rfl, -⟩, -⟩ | rfl
        · exact made _
        · exact Text.isUtf8_ofString _
    | _ => exact rfl
  | _ => exact rfl

/-- What is asked for is computed from properties that are asked for, and has the kind of its
property. The expression and its type are computed without a crash. -/
theorem standard_keeps (blank : Binding → Prop) (b : Binding) (hu : u.Clean)
    (hregistry : o.registry.Clean) {p : Property} (hp : asked p) {r : Resolver} {run}
    (hf : (standard u o).function? p = some (r, run)) :
    (∀ q ∈ r.deps ++ r.optional, asked q) ∧ ∀ ask vs us,
      List.Forall₂ (Property.Admits (blank b)) r.deps vs →
      List.Forall₂ (Fits (blank b)) r.optional us →
      Keeps blank (standard u o) (isCalm p) (run b ask (vs ++ us)) (p.Admits (blank b)) := by
  obtain ⟨hr, hrun⟩ := function?_eq_some.1 hf
  cases p <;> try cases hp
  case originalString | dataContext | declaringProperty | treeRoot => cases hr
  all_goals
    obtain rfl := Option.some.inj hr
    refine ⟨by simp [Resolver.parsedExpression, Resolver.castedExpression, Resolver.readDelegate,
      Resolver.writeDelegate, Resolver.scriptAST, Resolver.resolvedScript, Resolver.ofResolved,
      Resolver.expectedType, Resolver.resultType, Resolver.locationInfo, Resolver.siblingIndex,
      Resolver.id, Resolver.pure, asked, onPage], fun ask vs us hvs hus => ?_⟩
    obtain rfl := Option.some.inj hrun
  case parsedExpression =>
    obtain _ | ⟨⟨⟨src, rfl, hsrc⟩, hblank⟩, _ | ⟨⟨s, rfl, hs⟩, ⟨⟩⟩⟩ := hvs
    refine (Keeps.naming (Source.expression_clean hsrc hs hu)).bind fun e he => ?_
    split
    · exact .throw (Expr.typeNotValue_clean he)
    · exact .pure ⟨⟨_, rfl, he⟩, hblank⟩
  case resultType =>
    obtain _ | ⟨⟨⟨e, rfl, he⟩, -⟩, ⟨⟩⟩ := hvs
    exact .liftExcept ⟨_, rfl, he.type⟩
  case expectedType => exact .liftExcept ⟨_, rfl, Ty.clean_basic .any⟩
  case castedExpression =>
    obtain _ | ⟨⟨⟨e, rfl, he⟩, -⟩, _ | ⟨⟨t, rfl, ht⟩, ⟨⟩⟩⟩ := hvs
    exact .liftExcept (outcome_of (he.convertTo ht true) fun x hx => ⟨x, rfl, hx⟩)
  case readDelegate =>
    obtain _ | ⟨⟨e, rfl, he⟩, _ | ⟨⟨s, rfl, hs⟩, ⟨⟩⟩⟩ := hvs
    exact .liftExcept (outcome_of (he.compileReader hs) fun _ _ => trivial)
  case writeDelegate =>
    obtain _ | ⟨⟨⟨e, rfl, he⟩, -⟩, _ | ⟨⟨s, rfl, hs⟩, ⟨⟩⟩⟩ := hvs
    exact .liftExcept (outcome_of (he.compileWriter hs) fun _ _ => trivial)
  case scriptAST =>
    obtain _ | ⟨⟨e, rfl, he⟩, _ | ⟨⟨s, rfl, hs⟩, ⟨⟩⟩⟩ := hvs
    exact .liftExcept ((he.lower hregistry hs).map fun x hx => ⟨x, rfl, hx⟩)
  case resolvedScript =>
    obtain _ | ⟨⟨s, rfl, hs⟩, ⟨⟩⟩ := hvs
    exact .liftExcept ⟨_, rfl, Script.isClean_kept.resolveCells hs⟩
  case valueScript | cellScript =>
    obtain _ | ⟨⟨r, rfl, hr⟩, ⟨⟩⟩ := hvs
    exact .liftExcept ⟨_, rfl, o.format_clean (Script.isClean_kept.variant hr _)⟩
  case id =>
    obtain _ | ⟨-, _ | ⟨-, ⟨⟩⟩⟩ := hvs
    obtain _ | ⟨hsource, _ | ⟨hexpr, _ | ⟨-, _ | ⟨-, ⟨⟩⟩⟩⟩⟩ := hus
    exact .liftExcept (identity_outcome hsource hexpr _ _ _ _)
  case siblingIndex =>
    simp only
    split
    · exact .pure trivial
    · split
      · exact .of_memos fun w hw => ⟨_, _, rfl, rfl, hw.table, trivial⟩
      · exact .misfit
  case locationInfo => exact .pure trivial

/-! ## Requests -/

section Requests

variable {c : Compiler} {calm : Bool} {ask : Property → Resolving Artifact}
  {P : Property → Artifact → Prop}

theorem required_keeps (ps : List Property) (h : ∀ p ∈ ps, Keeps blank c calm (ask p) (P p)) :
    Keeps blank c calm (required ask ps) (List.Forall₂ P ps) := by
  induction ps with
  | nil => exact .pure .nil
  | cons p ps ih =>
    refine (h p (List.mem_cons_self ..)).bind fun v hv => ?_
    refine (ih fun q hq => h q (List.mem_cons_of_mem _ hq)).bind fun vs hvs => ?_
    exact .pure (.cons hv hvs)

theorem optional_keeps (ps : List Property) (h : ∀ p ∈ ps, Keeps blank c calm (ask p) (P p)) :
    Keeps blank c calm (optional ask ps) (List.Forall₂ (fun p v => P p v ∨ v = .absent) ps) := by
  induction ps with
  | nil => exact .pure .nil
  | cons p ps ih =>
    rw [optional]
    have rest {v : Artifact} (hv : P p v ∨ v = .absent) : Keeps blank c calm
        (do return v :: (← optional ask ps))
        (List.Forall₂ (fun p v => P p v ∨ v = .absent) (p :: ps)) :=
      (ih fun q hq => h q (List.mem_cons_of_mem _ hq)).bind fun vs hvs => .pure (.cons hv hvs)
    refine (h p (List.mem_cons_self ..)).attempt.bind fun r hr => ?_
    cases r with
    | ok v => exact rest (.inl hr)
    | error e =>
      simp only
      split
      · exact .throw hr
      · exact rest (.inr rfl)

theorem cycleError_clean (chain : List Property) (p : Property) : (cycleError chain p).Clean := by
  refine Error.Clean.of (Text.isUtf8_join (Text.isUtf8_ofString _) fun t ht => ?_)
  obtain ⟨q, -, rfl⟩ := List.mem_map.1 ht
  exact q.isUtf8_name

theorem unresolved_clean (p : Property) : (getWithin.unresolved p).Clean :=
  Text.isUtf8_append (Text.isUtf8_ofString _) p.isUtf8_name

theorem getWithin_keeps_of_compute {n : Nat} {chain : List Property} {p : Property}
    (h : ∀ r run, c.function? p = some (r, run) →
      Keeps blank c calm (c.compute b n (p :: chain) r run) (p.Admits (blank b))) :
    Keeps blank c calm (c.getWithin b (n + 1) chain p) (p.Admits (blank b)) := by
  intro w hw
  cases hk : w.known? b p with
  | some k =>
    exact ⟨_, w, getWithin_known hk, hw, .refl c w, outcome_remembered (hw.admits b p k hk)⟩
  | none =>
    by_cases hchain : p ∈ chain
    · exact ⟨_, w, getWithin_cycle hk hchain, hw, .refl c w, cycleError_clean chain p⟩
    cases hf : c.function? p with
    | none =>
      exact ⟨_, w, getWithin_unresolved hk hchain hf, hw, .refl c w, unresolved_clean p⟩
    | some rule =>
      obtain ⟨r, run⟩ := rule
      obtain ⟨trace, hrun⟩ := getWithin_computed (n := n) hk hchain hf
      have hsettle := (h r run hf).attempt.bind fun outcome ho =>
        Keeps.settle (by rw [hf]; rfl) ho
      have htraced : w.Grows c { w with trace } := .of_memos c rfl
      obtain ⟨o, x, hx, hkinded, hgrows, ho⟩ := hsettle { w with trace } (hw.of_memos rfl hw.table)
      exact ⟨o, x, hrun.trans hx, hkinded, htraced.trans hgrows, ho⟩

end Requests

theorem input_calm {p : Property} (hf : (standard u o).function? p = none) (n : Nat)
    (chain : List Property) : Keeps blank (standard u o) true
      ((standard u o).getWithin b (n + 1) chain p) (p.Admits (blank b)) :=
  getWithin_keeps_of_compute fun r run h => by rw [hf] at h; cases h

section Standard

variable (hu : u.Clean) (hregistry : o.registry.Clean)

include hu hregistry

theorem compute_keeps {n : Nat} {chain : List Property} {p : Property} (hp : asked p)
    {calm : Bool} (hcalm : calm → isCalm p) {r : Resolver} {run}
    (hf : (standard u o).function? p = some (r, run))
    (hask : ∀ q ∈ r.deps ++ r.optional, asked q → Keeps blank (standard u o) calm
      ((standard u o).getWithin b n chain q) (q.Admits (blank b))) :
    Keeps blank (standard u o) calm ((standard u o).compute b n chain r run)
      (p.Admits (blank b)) := by
  obtain ⟨hasks, hrun⟩ := standard_keeps blank b hu hregistry hp hf
  have request (q : Property) (hq : q ∈ r.deps ++ r.optional) := hask q hq (hasks q hq)
  refine (required_keeps r.deps fun q hq => request q (by simp [hq])).bind fun vs hvs => ?_
  refine (optional_keeps r.optional fun q hq => request q (by simp [hq])).bind fun us hus => ?_
  have h := hrun ((standard u o).getWithin b n [] .dataContext) vs us hvs hus
  cases calm with
  | false => exact h.weaken
  | true => exact hcalm rfl ▸ h

/-- What is asked for keeps to the kinds. -/
theorem getWithin_keeps (n : Nat) (chain : List Property) (p : Property) (hp : asked p) :
    Keeps blank (standard u o) false ((standard u o).getWithin b n chain p)
      (p.Admits (blank b)) := by
  induction n generalizing chain p with
  | zero => exact .misfit
  | succ n ih =>
    refine getWithin_keeps_of_compute fun r run hf => ?_
    exact compute_keeps hu hregistry hp Bool.noConfusion hf fun q _ hq => ih _ q hq

theorem parsedExpression_calm (n : Nat) (chain : List Property) :
    Keeps blank (standard u o) true ((standard u o).getWithin b (n + 2) chain .parsedExpression)
      (Property.parsedExpression.Admits (blank b)) := by
  refine getWithin_keeps_of_compute fun r run hf => ?_
  refine compute_keeps hu hregistry rfl (fun _ => rfl) hf ?_
  obtain rfl := Option.some.inj (function?_eq_some.1 hf).1
  intro q hq _
  simp only [Resolver.parsedExpression, List.append_nil, List.mem_cons, List.not_mem_nil,
    or_false] at hq
  rcases hq with rfl | rfl <;> exact input_calm rfl n _

theorem resultType_calm (n : Nat) (chain : List Property) :
    Keeps blank (standard u o) true ((standard u o).getWithin b (n + 3) chain .resultType)
      (Property.resultType.Admits (blank b)) := by
  refine getWithin_keeps_of_compute fun r run hf => ?_
  refine compute_keeps hu hregistry rfl (fun _ => rfl) hf ?_
  obtain rfl := Option.some.inj (function?_eq_some.1 hf).1
  intro q hq _
  obtain rfl : q = .parsedExpression := by simpa [Resolver.resultType, Resolver.pure] using hq
  exact parsedExpression_calm hu hregistry n _

end Standard

/-! ## Requests from outside -/

theorem annotate_clean {w : Workspace} (hw : w.Kinded blank) (b : Binding) {e : Error}
    (he : e.Clean) : ∃ e', w.annotate b e = .error e' ∧ e'.Clean := by
  have hvalue {p : Property} {v : Artifact} (hv : w.value? b p = some v) :
      p.Admits (blank b) v := by
    unfold Workspace.value? at hv
    split at hv
    · rename_i v' hk
      exact Option.some.inj hv ▸ hw.admits b p _ hk
    · cases hv
  have attach {source : Text} (hsource : source.isUtf8) : ∃ e',
      (if e.diagnosis?.isSome then Fault.error (e.withSource source (.other 0))
        else if source.isEmpty then .error e
        else .error (.noted source e)) = .error e' ∧ e'.Clean := by
    split
    · exact ⟨_, rfl, he.withSource _ _⟩
    · split
      · exact ⟨_, rfl, he⟩
      · exact ⟨_, rfl, hsource, he⟩
  have hexpr : w.value? b .parsedExpression = none ∨
      ∃ x, w.value? b .parsedExpression = some (.expr x) ∧ x.text.isUtf8 := by
    cases hv : w.value? b .parsedExpression with
    | none => exact .inl rfl
    | some v =>
      obtain ⟨⟨x, rfl, hx⟩, -⟩ := hvalue hv
      exact .inr ⟨x, rfl, hx.isUtf8_text⟩
  unfold Workspace.annotate
  cases hv : w.value? b .originalString with
  | some v =>
    obtain ⟨⟨t, rfl, ht⟩, -⟩ := hvalue hv
    have ht := (Bool.and_eq_true_iff.1 ht).1
    rcases hexpr with hx | ⟨x, hx, hxt⟩
    all_goals simp only [hx]; split
    · exact attach ht
    · exact attach rfl
    · exact attach ht
    · exact attach hxt
  | none =>
    rcases hexpr with hx | ⟨x, hx, hxt⟩
    · simp only [hx]
      exact attach rfl
    · simp only [hx]
      exact attach hxt

variable {c : Compiler} {calm : Bool} {p : Property}

theorem get_keeps (h : Keeps blank c calm (c.request b p)
    (p.Admits (blank b))) : Keeps blank c calm (c.get b p) (p.Admits (blank b)) := by
  refine h.attempt.bind fun r hr => ?_
  cases r with
  | ok v => exact .pure hr
  | error e =>
    intro w hw
    obtain ⟨e', he', hclean⟩ := annotate_clean hw b hr
    refine ⟨.error (.error e'), w, ?_, hw, .refl c w, hclean⟩
    rw [← he']
    rfl

theorem isUtf8_artifactForm (v : Artifact) : v.formName.isUtf8 := by
  cases v with
  | expr e => cases e <;> exact Text.isUtf8_ofString _
  | script s => cases s <;> exact Text.isUtf8_ofString _
  | _ => exact Text.isUtf8_ofString _

theorem getAs_keeps {α : Type} {kind : Expected α} (hkind : kind.name.isUtf8)
    (h : Keeps blank c calm (c.request b p)
      (p.Admits (blank b))) :
    Keeps blank c calm (c.getAs b p kind) fun r => (r = none → p.Admits (blank b) .absent) ∧
      ∀ a, r = some a → ∃ v, p.Admits (blank b) v ∧ kind.match? v = some a := by
  refine (get_keeps h).bind fun v hv => ?_
  split
  · exact .pure ⟨fun _ => hv, nofun⟩
  · split
    · rename_i a ha
      exact .pure ⟨nofun, fun b hb => ⟨v, hv, Option.some.inj hb ▸ ha⟩⟩
    · have hp := p.isUtf8_name
      have hform := isUtf8_artifactForm v
      exact .throw (by change Text.isUtf8 _ = true; grind)

end Compiler

/-! ## Pages -/

/-- The texts of what is compiled of a binding are UTF-8. -/
structure Compiled.Clean (r : Compiled) : Prop where
  id : r.id.isUtf8
  value : ∀ c, r.value = some c → c.Clean
  cell : ∀ c, r.cell = some c → c.Clean
  error : ∀ e, r.error = some e → e.Clean

namespace Compiler

variable {blank : Binding → Prop} {u : Universe} {o : Options}

theorem stage_keeps (hu : u.Clean) (hregistry : o.registry.Clean)
    {f : Compiled → Resolving Compiled} (hf : f ∈ (standard u o).stages) {r : Compiled}
    (hr : r.Clean) : Keeps blank (standard u o) false (f r) fun r' =>
      r'.binding = r.binding ∧ r'.Clean := by
  have request (p : Property) (hp : asked p) {α : Type} {kind : Expected α}
      (hkind : kind.name.isUtf8) : Keeps blank (standard u o) false
        ((standard u o).getAs r.binding p kind) _ :=
    getAs_keeps hkind (getWithin_keeps hu hregistry _ _ p hp)
  simp only [stages, List.mem_cons, List.not_mem_nil, or_false] at hf
  rcases hf with rfl | rfl | rfl | rfl | rfl
  · refine (request .id rfl rfl).bind fun id hid => .pure ⟨rfl, ?_, hr.value, hr.cell, hr.error⟩
    cases id with
    | none => rfl
    | some id =>
      obtain ⟨v, ⟨t, rfl, hutf8⟩, hmatch⟩ := hid.2 id rfl
      exact Option.some.inj hmatch ▸ hutf8
  · exact (request .readDelegate rfl rfl).bind fun _ _ =>
      .pure ⟨rfl, hr.id, hr.value, hr.cell, hr.error⟩
  · exact (request .writeDelegate rfl rfl).bind fun _ _ =>
      .pure ⟨rfl, hr.id, hr.value, hr.cell, hr.error⟩
  · refine (request .valueScript rfl rfl).bind fun c hc =>
      .pure ⟨rfl, hr.id, fun d hd => ?_, hr.cell, hr.error⟩
    obtain ⟨v, ⟨t, rfl, hclean⟩, hmatch⟩ := hc.2 d hd
    exact Option.some.inj hmatch ▸ hclean
  · refine (request .cellScript rfl rfl).bind fun c hc =>
      .pure ⟨rfl, hr.id, hr.value, fun d hd => ?_, hr.error⟩
    obtain ⟨v, ⟨t, rfl, hclean⟩, hmatch⟩ := hc.2 d hd
    exact Option.some.inj hmatch ▸ hclean

/-- The task is clean, and is in steps of compiling. -/
structure Kept (c : Compiler) (t : Task) : Prop where
  clean : t.result.Clean
  steps : ∀ f ∈ t.steps, f ∈ c.stages

theorem work_keeps (hu : u.Clean) (hregistry : o.registry.Clean) (turns : List Nat)
    {ts : List Task} (hts : ∀ t ∈ ts, Kept (standard u o) t) :
    Keeps blank (standard u o) false ((standard u o).work turns ts) fun ts' =>
      ts'.map (·.result.binding) = ts.map (·.result.binding) ∧ ∀ t ∈ ts', t.result.Clean := by
  -- A turn changes one task at most, and that one stays in steps of compiling.
  induction turns generalizing ts with
  | nil => exact .pure ⟨rfl, fun t ht => (hts t ht).clean⟩
  | cons k turns ih =>
    rw [work]
    split
    · rename_i r f fs hk
      have ht := hts _ (List.mem_of_getElem? hk)
      have next {t : Task} (hbinding : t.result.binding = r.binding)
          (ht : Kept (standard u o) t) : Keeps blank (standard u o) false
            ((standard u o).work turns (ts.set k t)) fun ts' =>
              ts'.map (·.result.binding) = ts.map (·.result.binding) ∧
                ∀ t ∈ ts', t.result.Clean := by
        have hset : (ts.set k t).map (·.result.binding) = ts.map (·.result.binding) := by
          refine List.ext_getElem? fun j => ?_
          by_cases hj : k = j
          · subst hj
            obtain ⟨hlt, hget⟩ := List.getElem?_eq_some_iff.1 hk
            simp [hlt, hget, hbinding]
          · simp [hj]
        refine (ih fun t' ht' => ?_).mono fun ts' hts' => ⟨hts'.1.trans hset, hts'.2⟩
        rcases List.mem_or_eq_of_mem_set ht' with ht' | rfl
        · exact hts t' ht'
        · exact ht
      refine (stage_keeps hu hregistry (ht.steps f (by simp)) ht.clean).attempt.bind
        fun a ha => ?_
      cases a with
      | ok r' => exact next ha.1 ⟨ha.2, fun g hg => ht.steps g (List.mem_cons_of_mem _ hg)⟩
      | error e =>
        have he : e.Clean := ha
        simp only
        split
        · exact .throw ⟨Text.isUtf8_append (Text.isUtf8_ofString _) (Text.isUtf8_ofNat k), he⟩
        · obtain ⟨hid, hvalue, hcell, -⟩ := ht.clean
          exact next rfl ⟨⟨hid, hvalue, hcell, fun _ h => Option.some.inj h ▸ he⟩, by rintro _ ⟨⟩⟩
    · exact ih hts

end Compiler

/-- Neither a source nor an expression is given. -/
def Input.isBlank (i : Input) : Bool := i.code.isEmpty && i.expr.isNone

/-- The source, the declaring property and the names and texts in the scope, the expression and the
expected type are UTF-8, and so are those in the syntax tree of the source. -/
structure Input.Clean (i : Input) : Prop where
  code : Source.isClean i.code
  property : i.property.isUtf8
  scope : ∀ s, i.scope = some s → s.Clean
  expr : ∀ e, i.expr = some e → e.Clean
  expectedType : ∀ t, i.expectedType = some t → t.Clean

/-- The binding has what the input gives. -/
structure Workspace.Holds (w : Workspace) (b : Binding) (i : Input) : Prop where
  source : w.known? b .originalString =
    if i.code.isEmpty then none else some (.ok (.text i.code))
  property : w.known? b .declaringProperty =
    if i.property.isEmpty then none else some (.ok (.text i.property))
  expr : ∀ e, i.expr = some e → w.known? b .parsedExpression = some (.ok (.expr e))

theorem Workspace.Holds.grows {u : Universe} {o : Options} {w x : Workspace} {b : Binding}
    {i : Input} (h : w.Holds b i) (hx : w.Grows (.standard u o) x) : x.Holds b i where
  source := (hx.given b _ rfl).trans h.source
  property := (hx.given b _ rfl).trans h.property
  expr e he := hx.known b _ _ (h.expr e he)

namespace Input

variable {i : Input}

theorem lookup_entered (i : Input) (n : Nat) {p : Property} (hp : p ≠ .siblingIndex) :
    (i.entered n).lookup p = i.memo.lookup p := by
  unfold entered
  split
  · rfl
  · rw [lookup_cons_eq, if_neg hp]

theorem Clean.isUtf8_source (h : i.Clean) : i.source.isUtf8 := by
  unfold source
  split
  · split
    · rename_i e he
      exact (h.expr e he).isUtf8_text
    · rfl
  · exact (Bool.and_eq_true_iff.1 h.code).1

theorem Clean.startError (i : Input) : ∀ e, i.startError = some e → e.Clean := by
  intro e he
  unfold Input.startError at he
  split at he
  · cases he
  · exact Option.some.inj he ▸ (Compiler.unresolved_clean .dataContext).withSource _ _

theorem Clean.admits (h : i.Clean) {n : Nat} {p : Property} {k : Except Error Artifact}
    (hk : (i.entered n).lookup p = some k) : p.Known (i.isBlank) k := by
  by_cases hp : p = .siblingIndex
  · subst hp
    unfold entered at hk
    split at hk
    · rw [i.lookup_memo] at hk
      cases hk
    · rw [lookup_cons_eq, if_pos rfl] at hk
      obtain rfl := Option.some.inj hk
      split
      · trivial
      · exact Compiler.unresolved_clean .dataContext
  rw [lookup_entered i n hp, i.lookup_memo] at hk
  cases p <;> simp only [reduceCtorEq] at hk
  case originalString =>
    split at hk
    · cases hk
    · rename_i hcode
      obtain rfl := Option.some.inj hk
      exact ⟨⟨_, rfl, h.code⟩, by simp [isBlank, hcode]⟩
  case declaringProperty =>
    split at hk
    · cases hk
    · obtain rfl := Option.some.inj hk
      exact ⟨_, rfl, h.property⟩
  case treeRoot =>
    split at hk
    · cases hk
    · obtain rfl := Option.some.inj hk
      trivial
  case dataContext =>
    obtain ⟨s, hs, rfl⟩ := Option.map_eq_some_iff.1 hk
    exact ⟨s, rfl, h.scope s hs⟩
  case parsedExpression =>
    obtain ⟨e, he, rfl⟩ := Option.map_eq_some_iff.1 hk
    exact ⟨⟨e, rfl, h.expr e he⟩, by simp [isBlank, he]⟩
  case expectedType =>
    obtain ⟨t, ht, rfl⟩ := Option.map_eq_some_iff.1 hk
    exact ⟨t, rfl, h.expectedType t ht⟩
  case locationInfo =>
    obtain ⟨l, -, rfl⟩ := Option.map_eq_some_iff.1 hk
    trivial

end Input

namespace Compiler

variable {u : Universe} {o : Options} {w x : Workspace} {inputs : List Input}

/-- The bindings of a page that have neither a source nor an expression. -/
def blanks (w : Workspace) (inputs : List Input) (b : Binding) : Prop :=
  ∃ k i, b = ⟨w.memos.size + k⟩ ∧ inputs[k]? = some i ∧ i.isBlank

theorem blanks_iff {k : Nat} {i : Input} (hi : inputs[k]? = some i) :
    blanks w inputs ⟨w.memos.size + k⟩ ↔ i.isBlank := by
  constructor
  · rintro ⟨k', i', hb, hi', hblank⟩
    obtain rfl : k = k' := by
      have := congrArg Binding.number hb
      simpa using this
    rw [hi] at hi'
    exact Option.some.inj hi' ▸ hblank
  · exact fun h => ⟨k, i, rfl, hi, h⟩

theorem kinded_of_enters {rs : List Compiled} (hw : w.Kinded fun _ => False)
    (hinputs : ∀ i ∈ inputs, i.Clean) (hx : w.Enters inputs rs x) :
    x.Kinded (blanks w inputs) where
  table := hx.names ▸ hw.table
  admits b p known hknown := by
    by_cases hold : b.number < w.memos.size
    -- Bindings from before the page are as they were, and none of them counts as blank.
    · have hblank : blanks w inputs b = False := by
        simp only [eq_iff_iff, iff_false]
        rintro ⟨k, i, rfl, -⟩
        exact Nat.not_lt.2 (Nat.le_add_right _ k) hold
      rw [hblank]
      refine hw.admits b p known ?_
      rw [Workspace.known?, ← hx.others b hold]
      exact hknown
    · obtain ⟨k, rfl⟩ : ∃ k, b = ⟨w.memos.size + k⟩ :=
        ⟨b.number - w.memos.size, congrArg Binding.mk (by omega)⟩
      cases hi : inputs[k]? with
      | none =>
        have hout : x.memos.size ≤ w.memos.size + k := by
          have := List.getElem?_eq_none_iff.1 hi
          rw [hx.size]
          omega
        have hmemo : x.memo ⟨w.memos.size + k⟩ = [] := by
          simp [Workspace.memo, Array.getD_eq_getD_getElem?, Array.getElem?_eq_none hout]
        rw [Workspace.known?, hmemo] at hknown
        cases hknown
      | some i =>
        rw [propext (blanks_iff hi)]
        rw [Workspace.known?, (hx.entry k i hi).2] at hknown
        exact (hinputs i (List.mem_of_getElem? hi)).admits hknown

theorem holds_of_enters {rs : List Compiled} (hx : w.Enters inputs rs x) {k : Nat} {i : Input}
    (hi : inputs[k]? = some i) : x.Holds ⟨w.memos.size + k⟩ i := by
  have hknown {p : Property} (hp : p ≠ .siblingIndex) :
      x.known? ⟨w.memos.size + k⟩ p = i.memo.lookup p := by
    rw [Workspace.known?, (hx.entry k i hi).2, Input.lookup_entered _ _ hp]
  refine ⟨?_, ?_, fun e he => ?_⟩
  all_goals rw [hknown (by simp), i.lookup_memo]
  rw [he]
  rfl

theorem kept_of_enters {rs : List Compiled} (hx : w.Enters inputs rs x) :
    ∀ t ∈ rs.map (standard u o).start, Kept (standard u o) t := by
  intro t ht
  obtain ⟨r, hr, rfl⟩ := List.mem_map.1 ht
  obtain ⟨k, hlt, hk⟩ := List.mem_iff_getElem.1 hr
  obtain ⟨i, hi⟩ : ∃ i, inputs[k]? = some i := ⟨_, List.getElem?_eq_getElem (hx.length ▸ hlt)⟩
  have hentry := (hx.entry k i hi).1
  rw [List.getElem?_eq_getElem hlt, hk] at hentry
  obtain rfl := Option.some.inj hentry
  refine ⟨⟨rfl, nofun, nofun, Input.Clean.startError i⟩, fun f hf => ?_⟩
  exact (start_sublist _ _).subset hf

/-- What compiling a page leaves behind keeps to the kinds, and its results are clean. -/
theorem compileIn_keeps (hu : u.Clean) (hregistry : o.registry.Clean)
    (hw : w.Kinded fun _ => False) (hinputs : ∀ i ∈ inputs, i.Clean) {turns : List Nat}
    {page : Page} (h : ((standard u o).compileIn turns inputs).run.run w = (.ok page, x)) :
    x.Kinded (blanks w inputs) ∧ List.Forall₂ (fun i r => x.Holds r.binding i ∧ r.Clean ∧
      (blanks w inputs r.binding ↔ i.isBlank)) inputs page.results := by
  obtain ⟨rs, y, hprepare, henters⟩ := prepare_run (u := u) (o := o) inputs w
  obtain ⟨outcome, z, hwork, hkinded, hgrows, ho⟩ :=
    work_keeps hu hregistry turns (kept_of_enters henters) y (kinded_of_enters hw hinputs henters)
  rw [compileIn, run_bind_ok hprepare] at h
  cases outcome with
  | error e =>
    rw [run_bind_error hwork] at h
    cases h
  | ok ts =>
    rw [run_bind_ok hwork] at h
    obtain ⟨rfl, rfl⟩ : (⟨ts.map (·.result)⟩ : Page) = page ∧ z = x := by
      have h := Prod.mk.inj h
      exact ⟨Except.ok.inj h.1, h.2⟩
    have hbindings : (ts.map (·.result)).map (·.binding) = rs.map (·.binding) := by
      simpa [start, Function.comp_def] using ho.1
    have hlength : inputs.length = (ts.map (·.result)).length := by
      have := congrArg List.length hbindings
      simp only [List.length_map] at this ⊢
      rw [this, henters.length]
    refine ⟨hkinded, List.forall₂_iff_get.2 ⟨hlength, fun k hk hk' => ?_⟩⟩
    generalize hr : (ts.map (·.result)).get ⟨k, hk'⟩ = r
    have hi : inputs[k]? = some (inputs.get ⟨k, hk⟩) := List.getElem?_eq_getElem hk
    have hbinding : r.binding = ⟨w.memos.size + k⟩ := by
      have h := congrArg (·[k]?) hbindings
      simp only [List.getElem?_map, (henters.entry k _ hi).1] at h
      rw [List.get_eq_getElem, List.getElem_map] at hr
      simpa [List.getElem?_eq_getElem (by simpa using hk'), hr] using h
    have hclean : r.Clean := by
      obtain ⟨t, ht, rfl⟩ := List.mem_map.1 (hr ▸ List.get_mem _ _)
      exact ho.2 t ht
    rw [hbinding]
    exact ⟨(holds_of_enters henters hi).grows hgrows, hclean, blanks_iff hi⟩

end Compiler

end Bindery
