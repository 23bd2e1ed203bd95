import Bindery.Binding.Page
import Bindery.Proofs.ResolvingRuns
import Bindery.Proofs.SharedTypes

/-!
# Compiling a binding

What is compiled of a binding depends on the memory of the binding alone, as long as the shared
types can be told apart by name (`Compiler.stage_agree`), and changes no other memory. Nothing that
is asked for uses the counts of siblings: the index of the binding is known beforehand, or it
belongs to no syntax tree and has none.
-/

namespace Bindery

/-- Two outcomes that are the same up to a relation of values. -/
inductive Matches {ε α β : Type} (R : α → β → Prop) : Except ε α → Except ε β → Prop
  | ok {a : α} {b : β} : R a b → Matches R (.ok a) (.ok b)
  | error (e : ε) : Matches R (.error e) (.error e)

namespace Matches

variable {ε α β : Type} {R : α → β → Prop} {y : Except ε β}

theorem of_ok {a : α} (h : Matches R (.ok a) y) : ∃ b, y = .ok b ∧ R a b := by
  cases h with
  | ok hR => exact ⟨_, rfl, hR⟩

theorem of_error {e : ε} (h : Matches R (.error e) y) : y = .error e := by
  cases h
  rfl

end Matches

/-- The same value; if it is a scope, its types are in the set. -/
def Shared (T : Ty → Prop) (v v' : Artifact) : Prop :=
  v = v' ∧ ∀ s, v = .scope s → s.Within T

theorem Shared.all {T : Ty → Prop} {vs vs' : List Artifact} (h : List.Forall₂ (Shared T) vs vs') :
    vs = vs' ∧ ∀ s, .scope s ∈ vs → s.Within T := by
  induction h with
  | nil => exact ⟨rfl, nofun⟩
  | cons hv _ ih =>
    refine ⟨by rw [hv.1, ih.1], fun s hs => ?_⟩
    rcases List.mem_cons.1 hs with hs | hs
    · exact hv.2 s hs.symm
    · exact ih.2 s hs

/-! ## Workspaces that agree on a binding -/

namespace Workspace

variable {T : Ty → Prop} {indexed : Bool} {b b' : Binding} {w w' x : Workspace}

/-- The binding can be compiled without the counts of siblings, and the types that this meets are in
the set. If `indexed`, the index of the binding is known, and otherwise it is in no syntax tree. -/
structure Ready (T : Ty → Prop) (indexed : Bool) (b : Binding) (w : Workspace) : Prop where
  inBounds : b.number < w.memos.size
  table : w.names.table.Within T
  scope : ∀ p s, w.known? b p = some (.ok (.scope s)) → s.Within T
  index : if indexed then (w.known? b .siblingIndex).isSome else w.known? b .treeRoot = none

/-- Two bindings, each in its workspace, of which the same is known. -/
structure Alike (T : Ty → Prop) (indexed : Bool) (b : Binding) (w : Workspace) (b' : Binding)
    (w' : Workspace) : Prop where
  memo : w.memo b = w'.memo b'
  left : w.Ready T indexed b
  right : w'.Ready T indexed b'

structure Spares (b : Binding) (w x : Workspace) : Prop where
  size : x.memos.size = w.memos.size
  memo : ∀ b', b' ≠ b → x.memo b' = w.memo b'

theorem Spares.refl (b : Binding) (w : Workspace) : Spares b w w := ⟨rfl, fun _ _ => rfl⟩

theorem Spares.trans {y : Workspace} (h : Spares b w x) (h' : Spares b x y) : Spares b w y :=
  ⟨h'.size.trans h.size, fun b' hb => (h'.memo b' hb).trans (h.memo b' hb)⟩

theorem Spares.record (b : Binding) (p : Property) (k : Except Error Artifact) (w : Workspace) :
    Spares b w (w.record b p k) := ⟨size_record, fun _ hb => memo_record_ne hb⟩

theorem Alike.known (h : Alike T indexed b w b' w') (p : Property) :
    w'.known? b' p = w.known? b p := by
  rw [known?, known?, h.memo]

theorem Alike.annotate (h : Alike T indexed b w b' w') (e : Error) :
    w'.annotate b' e = w.annotate b e := by
  have hvalue (p : Property) : w'.value? b' p = w.value? b p := by rw [value?, value?, h.known]
  rw [Workspace.annotate, hvalue, hvalue]
  rfl

/-- Recording keeps a binding ready, except that the syntax tree of a binding without one must not
be recorded. -/
theorem Ready.record (h : w.Ready T indexed b) {p : Property} (hp : p ≠ .treeRoot)
    {k : Except Error Artifact} (hk : ∀ s, k = .ok (.scope s) → s.Within T) :
    (w.record b p k).Ready T indexed b where
  inBounds := by rw [size_record]; exact h.inBounds
  table := h.table
  scope q s hq := by
    rw [known_record h.inBounds] at hq
    split at hq
    · exact hk s (Option.some.inj hq)
    · exact h.scope q s hq
  index := by
    have hindex := h.index
    rw [known_record h.inBounds, known_record h.inBounds, if_neg hp.symm]
    split
    · rename_i hi
      rw [if_pos hi] at hindex
      split
      · rfl
      · exact hindex
    · rename_i hi
      rwa [if_neg hi] at hindex

theorem Alike.record (h : Alike T indexed b w b' w') {p : Property} (hp : p ≠ .treeRoot)
    {k : Except Error Artifact} (hk : ∀ s, k = .ok (.scope s) → s.Within T) :
    Alike T indexed b (w.record b p k) b' (w'.record b' p k) where
  memo := by rw [memo_record_self h.left.inBounds, memo_record_self h.right.inBounds, h.memo]
  left := h.left.record hp hk
  right := h.right.record hp hk

theorem Alike.traced (h : Alike T indexed b w b' w') (trace trace' : List Text) :
    Alike T indexed b { w with trace } b' { w' with trace := trace' } :=
  ⟨h.memo, ⟨h.left.inBounds, h.left.table, h.left.scope, h.left.index⟩,
    ⟨h.right.inBounds, h.right.table, h.right.scope, h.right.index⟩⟩

end Workspace

/-! ## Steps that agree -/

namespace Resolving

open Workspace

variable {T : Ty → Prop} {indexed : Bool} {b b' : Binding} {α β : Type}

/-- From workspaces that agree on the bindings, the steps have the same outcome up to `R` and leave
such workspaces behind. The first step changes the memory of no other binding. -/
def Agree (T : Ty → Prop) (indexed : Bool) (b b' : Binding) (m m' : Resolving α)
    (R : α → α → Prop) : Prop :=
  ∀ w w', Alike T indexed b w b' w' → ∃ o o' x x', m.run.run w = (o, x) ∧ m'.run.run w' = (o', x') ∧
    Matches R o o' ∧ Alike T indexed b x b' x' ∧ Spares b w x

namespace Agree

variable {m m' : Resolving α} {f f' : α → Resolving β} {R R' : α → α → Prop} {S : β → β → Prop}

theorem pure {a a' : α} (h : R a a') : Agree T indexed b b' (Pure.pure a) (Pure.pure a') R :=
  fun w w' hw => ⟨_, _, w, w', rfl, rfl, .ok h, hw, .refl b w⟩

theorem throw (e : Fault) :
    Agree T indexed b b' (MonadExcept.throw e : Resolving α) (MonadExcept.throw e) R :=
  fun w w' hw => ⟨_, _, w, w', rfl, rfl, .error e, hw, .refl b w⟩

theorem bind (h : Agree T indexed b b' m m' R)
    (hf : ∀ a a', R a a' → Agree T indexed b b' (f a) (f' a') S) :
    Agree T indexed b b' (m >>= f) (m' >>= f') S := by
  intro w w' hw
  obtain ⟨o, o', x, x', hrun, hrun', ho, hx, hspares⟩ := h w w' hw
  cases ho with
  | error e =>
    exact ⟨_, _, x, x', run_bind_error hrun, run_bind_error hrun', .error e, hx, hspares⟩
  | ok ha =>
    obtain ⟨o, o', y, y', hrun₂, hrun₂', ho, hy, hspares₂⟩ := hf _ _ ha x x' hx
    refine ⟨o, o', y, y', ?_, ?_, ho, hy, hspares.trans hspares₂⟩
    · rw [run_bind_ok hrun, hrun₂]
    · rw [run_bind_ok hrun', hrun₂']

theorem mono (h : Agree T indexed b b' m m' R) (hR : ∀ a a', R a a' → R' a a') :
    Agree T indexed b b' m m' R' := by
  intro w w' hw
  obtain ⟨o, o', x, x', hrun, hrun', ho, hx, hspares⟩ := h w w' hw
  refine ⟨o, o', x, x', hrun, hrun', ?_, hx, hspares⟩
  cases ho with
  | ok ha => exact .ok (hR _ _ ha)
  | error e => exact .error e

theorem attempt (h : Agree T indexed b b' m m' R) :
    Agree T indexed b b' (Resolving.attempt m) (Resolving.attempt m') (Matches R) := by
  intro w w' hw
  obtain ⟨o, o', x, x', hrun, hrun', ho, hx, hspares⟩ := h w w' hw
  simp only [run_attempt, hrun, hrun']
  cases ho with
  | ok ha => exact ⟨_, _, x, x', rfl, rfl, .ok (.ok ha), hx, hspares⟩
  | error e =>
    cases e with
    | error e => exact ⟨_, _, x, x', rfl, rfl, .ok (.error e), hx, hspares⟩
    | crash t => exact ⟨_, _, x, x', rfl, rfl, .error _, hx, hspares⟩

theorem settle {p : Property} (hp : p ≠ .treeRoot) {o o' : Except Error Artifact}
    (ho : Matches (Shared T) o o') :
    Agree T indexed b b' (Resolving.settle b p o) (Resolving.settle b' p o') (Shared T) := by
  intro w w' hw
  have hremembered {k k' : Except Error Artifact} (h : Matches (Shared T) k k') :
      Matches (Shared T) (remembered k) (remembered k') := by
    cases h with
    | ok h => exact .ok h
    | error e => exact .error _
  rw [run_settle, run_settle, hw.known p]
  cases hk : w.known? b p with
  | some k =>
    have hself : Matches (Shared T) k k := by
      cases k with
      | ok v => exact .ok ⟨rfl, fun s hs => hw.left.scope p s (hs ▸ hk)⟩
      | error e => exact .error e
    exact ⟨_, _, w, w', rfl, rfl, hremembered hself, hw, .refl b w⟩
  | none =>
    obtain rfl : o = o' := by
      cases ho with
      | ok h => rw [h.1]
      | error e => rfl
    have hscope : ∀ s, o = .ok (.scope s) → s.Within T := by
      rintro s rfl
      cases ho with
      | ok h => exact h.2 s rfl
    refine ⟨_, _, _, _, rfl, rfl, hremembered ho, ?_, ?_⟩
    · split
      · exact hw.record hp hscope
      · exact hw
    · split
      · exact .record b p o w
      · exact .refl b w

end Agree

/-- Binding of a source uses the shared types only. -/
theorem naming_agree (hT : Ty.Realm T) {u : Universe} (hu : u.Within T) {scope : Scope}
    (hscope : scope.Within T) (src : Text) :
    Agree T indexed b b' (naming (Source.expression src scope u))
      (naming (Source.expression src scope u)) (· = ·) := by
  intro w w' hw
  obtain ⟨r, t, t', hrun, hrun', ht, ht'⟩ :=
    Source.expression_determined hT hu hscope src hw.left.table hw.right.table
  rw [run_naming, run_naming, hrun, hrun']
  have hafter : Alike T indexed b { w with names := t } b' { w' with names := t' } :=
    ⟨hw.memo, ⟨hw.left.inBounds, ht, hw.left.scope, hw.left.index⟩,
      ⟨hw.right.inBounds, ht', hw.right.scope, hw.right.index⟩⟩
  have hspares : Spares b w { w with names := t } := ⟨rfl, fun _ _ => rfl⟩
  cases r with
  | ok e => exact ⟨_, _, _, _, rfl, rfl, .ok rfl, hafter, hspares⟩
  | error e => exact ⟨_, _, _, _, rfl, rfl, .error _, hafter, hspares⟩

end Resolving

/-! ## Properties that compiling asks for -/

namespace Compiler

open Workspace Resolving

variable {T : Ty → Prop} {indexed : Bool} {b b' : Binding}

/-- The properties that compiling a binding of a page asks for. -/
def onPage : Property → Bool
  | .originalString | .parsedExpression | .dataContext | .expectedType | .declaringProperty
  | .treeRoot | .locationInfo | .castedExpression | .readDelegate | .writeDelegate | .scriptAST
  | .resolvedScript | .cellScript | .valueScript | .siblingIndex | .id => true
  | _ => false

/-- From the same values, the function of a resolver does the same for both bindings. -/
def Quiet (T : Ty → Prop)
    (run : Binding → Resolving Artifact → List Artifact → Resolving Artifact) : Prop :=
  ∀ indexed b b' ask ask' args, (∀ s, .scope s ∈ args → s.Within T) →
    Agree T indexed b b' (run b ask args) (run b' ask' args) (Shared T)

theorem Quiet.pure {f : List Artifact → Except Fault Artifact}
    (hf : ∀ args s, f args ≠ .ok (.scope s)) {run}
    (hrun : some (fun _ _ args => Resolver.pure.liftExcept (f args)) = some run) : Quiet T run := by
  obtain rfl := Option.some.inj hrun
  intro indexed b b' ask ask' args _
  simp only
  cases h : f args with
  | ok v => exact .pure ⟨rfl, fun s hs => absurd (hs ▸ h) (hf args s)⟩
  | error e => exact .throw e

theorem quiet_parsedExpression (hT : Ty.Realm T) {u : Universe} (hu : u.Within T) {run}
    (hrun : (Resolver.parsedExpression u).run = some run) : Quiet T run := by
  obtain rfl := Option.some.inj hrun
  intro indexed b b' ask ask' args hargs
  simp only
  split
  · rename_i src s _
    refine (naming_agree hT hu (hargs s (by simp)) src).bind ?_
    rintro e _ rfl
    split
    · exact .throw _
    · exact .pure ⟨rfl, by rintro _ ⟨⟩⟩
  · exact .throw _

theorem quiet_locationInfo {run} (hrun : Resolver.locationInfo.run = some run) : Quiet T run := by
  obtain rfl := Option.some.inj hrun
  intro indexed b b' ask ask' args _
  exact .pure ⟨rfl, nofun⟩

theorem identity_ne_scope (args : List Artifact) (s : Scope) :
    Resolver.identity args ≠ .ok (.scope s) := by
  intro h
  unfold Resolver.identity at h
  split at h
  · simp only at h
    split at h <;> cases h
  · cases h

/-- What compiling asks for is computed from properties that it asks for. Apart from the index of
the binding, that does not depend on the binding. -/
theorem standard_local {u : Universe} {o : Options} (hT : Ty.Realm T) (hu : u.Within T)
    {p : Property} (hp : onPage p) {r : Resolver} {run}
    (hf : (standard u o).function? p = some (r, run)) :
    (∀ q ∈ r.deps ++ r.optional, onPage q) ∧ (p ≠ .siblingIndex → Quiet T run) := by
  obtain ⟨hr, hrun⟩ := function?_eq_some.1 hf
  cases p <;> try cases hp
  case originalString | dataContext | declaringProperty | treeRoot => cases hr
  all_goals obtain rfl := Option.some.inj hr
  case parsedExpression =>
    exact ⟨by simp [Resolver.parsedExpression, onPage], fun _ => quiet_parsedExpression hT hu hrun⟩
  case expectedType =>
    exact ⟨by simp [Resolver.expectedType, Resolver.pure], fun _ => .pure (by simp) hrun⟩
  case locationInfo =>
    exact ⟨by simp [Resolver.locationInfo, onPage], fun _ => quiet_locationInfo hrun⟩
  case siblingIndex => exact ⟨by simp [Resolver.siblingIndex, onPage], absurd rfl⟩
  case id =>
    exact ⟨by simp [Resolver.id, Resolver.pure, onPage], fun _ => .pure identity_ne_scope hrun⟩
  case scriptAST =>
    refine ⟨by simp [Resolver.scriptAST, Resolver.pure, onPage], fun _ =>
      .pure (fun args s h => ?_) hrun⟩
    split at h
    · rename_i e s' _
      cases hl : e.lower o.registry s' <;> rw [hl] at h <;> cases h
    · cases h
  -- The other values are made by a function with the constructor of their kind.
  all_goals
    refine ⟨by simp [Resolver.castedExpression, Resolver.readDelegate, Resolver.writeDelegate,
      Resolver.resolvedScript, Resolver.ofResolved, Resolver.pure, onPage], fun _ =>
      .pure (fun args s h => ?_) hrun⟩
    repeat' split at h
    all_goals first | cases h | (unfold Resolver.outcome at h; split at h <;> cases h)

/-! ## Requests -/

section Requests

variable {ask ask' : Property → Resolving Artifact} {V : Artifact → Artifact → Prop}

theorem required_agree (ps : List Property)
    (h : ∀ p ∈ ps, Agree T indexed b b' (ask p) (ask' p) V) :
    Agree T indexed b b' (required ask ps) (required ask' ps) fun vs vs' =>
      vs.length = ps.length ∧ List.Forall₂ V vs vs' := by
  induction ps with
  | nil => exact .pure ⟨rfl, .nil⟩
  | cons p ps ih =>
    refine (h p (List.mem_cons_self ..)).bind fun v v' hv => ?_
    refine (ih fun q hq => h q (List.mem_cons_of_mem _ hq)).bind fun vs vs' hvs => ?_
    exact .pure ⟨congrArg (· + 1) hvs.1, .cons hv hvs.2⟩

theorem optional_agree (hV : V .absent .absent) (ps : List Property)
    (h : ∀ p ∈ ps, Agree T indexed b b' (ask p) (ask' p) V) :
    Agree T indexed b b' (optional ask ps) (optional ask' ps) (List.Forall₂ V) := by
  induction ps with
  | nil => exact .pure .nil
  | cons p ps ih =>
    have rest {v v' : Artifact} (hv : V v v') : Agree T indexed b b'
        (do return v :: (← optional ask ps)) (do return v' :: (← optional ask' ps))
        (List.Forall₂ V) :=
      (ih fun q hq => h q (List.mem_cons_of_mem _ hq)).bind fun vs vs' hvs => .pure (.cons hv hvs)
    rw [optional, optional]
    refine (h p (List.mem_cons_self ..)).attempt.bind fun r r' hr => ?_
    cases hr with
    | ok hv => exact (Agree.pure hv).bind fun _ _ => rest
    | error e =>
      simp only
      split
      · exact (Agree.throw _).bind fun _ _ => rest
      · exact (Agree.pure hV).bind fun _ _ => rest

end Requests

section Standard

variable {u : Universe} {o : Options}

theorem treeRoot_agree (n : Nat) (chain : List Property) :
    Agree T false b b' ((standard u o).getWithin b n chain .treeRoot)
      ((standard u o).getWithin b' n chain .treeRoot) fun _ _ => False := by
  cases n with
  | zero => exact .throw _
  | succ n =>
    intro w w' hw
    have hk : w.known? b .treeRoot = none := hw.left.index
    have hk' : w'.known? b' .treeRoot = none := hw.right.index
    by_cases hp : .treeRoot ∈ chain
    · exact ⟨_, _, w, w', getWithin_cycle hk hp, getWithin_cycle hk' hp, .error _, hw, .refl b w⟩
    · exact ⟨_, _, w, w', getWithin_unresolved hk hp rfl, getWithin_unresolved hk' hp rfl, .error _,
        hw, .refl b w⟩

theorem siblingIndex_agree {n : Nat} {chain : List Property}
    (hcontext : Agree T false b b' ((standard u o).getWithin b n chain .dataContext)
      ((standard u o).getWithin b' n chain .dataContext) (Shared T)) {run}
    (hrun : Resolver.siblingIndex.run = some run) :
    Agree T false b b' ((standard u o).compute b n chain .siblingIndex run)
      ((standard u o).compute b' n chain .siblingIndex run) (Shared T) := by
  obtain rfl := Option.some.inj hrun
  refine (required_agree _ fun q hq => List.mem_singleton.1 hq ▸ hcontext).bind fun vs vs' hvs => ?_
  refine (optional_agree (V := fun v v' => v = .absent ∧ v' = .absent) ⟨rfl, rfl⟩ _ fun q hq =>
    ?_).bind fun us us' hus => ?_
  · obtain rfl := List.mem_singleton.1 hq
    exact (treeRoot_agree n chain).mono fun _ _ => False.elim
  · obtain ⟨v, rfl⟩ := List.length_eq_one_iff.1 hvs.1
    obtain ⟨v', rfl⟩ := List.length_eq_one_iff.1 (hvs.2.length_eq.symm.trans hvs.1)
    have hroot : ([v] ++ us).getD 1 .absent = .absent := by
      cases hus with
      | nil => rfl
      | cons h _ => exact h.1
    have hroot' : ([v'] ++ us').getD 1 .absent = .absent := by
      cases hus with
      | nil => rfl
      | cons h _ => exact h.2
    simp only [hroot, hroot']
    exact .pure ⟨rfl, nofun⟩

variable (hT : Ty.Realm T) (hu : u.Within T)

include hT hu

/-- A property that compiling asks for depends on what is known of the binding alone. -/
theorem getWithin_agree (n : Nat) (chain : List Property) (p : Property) (hp : onPage p) :
    Agree T indexed b b' ((standard u o).getWithin b n chain p)
      ((standard u o).getWithin b' n chain p) (Shared T) := by
  induction n generalizing chain p with
  | zero => exact .throw _
  | succ n ih =>
    intro w w' hw
    cases hk : w.known? b p with
    | some k =>
      have hk' := (hw.known p).trans hk
      refine ⟨_, _, w, w', getWithin_known hk, getWithin_known hk', ?_, hw, .refl b w⟩
      cases k with
      | ok v => exact .ok ⟨rfl, fun s hs => hw.left.scope p s (hs ▸ hk)⟩
      | error e => exact .error _
    | none =>
      have hk' := (hw.known p).trans hk
      by_cases hchain : p ∈ chain
      · exact ⟨_, _, w, w', getWithin_cycle hk hchain, getWithin_cycle hk' hchain, .error _, hw,
          .refl b w⟩
      cases hf : (standard u o).function? p with
      | none =>
        exact ⟨_, _, w, w', getWithin_unresolved hk hchain hf, getWithin_unresolved hk' hchain hf,
          .error _, hw, .refl b w⟩
      | some rule =>
        obtain ⟨r, run⟩ := rule
        have hcompute : Agree T indexed b b' ((standard u o).compute b n (p :: chain) r run)
            ((standard u o).compute b' n (p :: chain) r run) (Shared T) := by
          obtain ⟨hasks, hquiet⟩ := standard_local hT hu hp hf
          by_cases hindex : p = .siblingIndex
          · subst hindex
            obtain ⟨hr, hrun⟩ := function?_eq_some.1 hf
            obtain rfl := Option.some.inj hr
            cases indexed with
            | true => simpa [hk] using hw.left.index
            | false => exact siblingIndex_agree (ih _ _ rfl) hrun
          · refine (required_agree _ fun q hq =>
              ih _ q (hasks q (List.mem_append_left _ hq))).bind fun vs vs' hvs => ?_
            refine (optional_agree ⟨rfl, nofun⟩ _ fun q hq =>
              ih _ q (hasks q (List.mem_append_right _ hq))).bind fun us us' hus => ?_
            obtain ⟨rfl, hneeded⟩ := Shared.all hvs.2
            obtain ⟨rfl, hothers⟩ := Shared.all hus
            exact hquiet hindex _ _ _ _ _ _ fun s hs =>
              (List.mem_append.1 hs).elim (hneeded s) (hothers s)
        have hroot : p ≠ .treeRoot := by
          rintro rfl
          cases hf
        obtain ⟨trace, hrun⟩ := getWithin_computed hk hchain hf
        obtain ⟨trace', hrun'⟩ := getWithin_computed hk' hchain hf
        rw [hrun, hrun']
        obtain ⟨a, a', x, x', ha, ha', hmatch, hx, hspares⟩ :=
          (hcompute.attempt.bind fun _ _ => .settle hroot) _ _ (hw.traced trace trace')
        exact ⟨a, a', x, x', ha, ha', hmatch, hx, hspares.size, hspares.memo⟩

theorem get_agree {p : Property} (hp : onPage p) :
    Agree T indexed b b' ((standard u o).get b p) ((standard u o).get b' p) (· = ·) := by
  refine (getWithin_agree hT hu _ _ p hp).attempt.bind fun r r' hr => ?_
  cases hr with
  | ok hv => exact .pure hv.1
  | error e =>
    intro w w' hw
    refine ⟨_, _, w, w', rfl, ?_, .error (w.annotate b e), hw, .refl b w⟩
    rw [← hw.annotate e]
    rfl

theorem getAs_agree {p : Property} (hp : onPage p)
    {α : Type} (kind : Expected α) : Agree T indexed b b' ((standard u o).getAs b p kind)
      ((standard u o).getAs b' p kind) (· = ·) := by
  refine (get_agree hT hu hp).bind ?_
  rintro v _ rfl
  split
  · exact .pure rfl
  · split
    · exact .pure rfl
    · exact .throw _

/-- The same was compiled of both bindings. -/
def Copies (b b' : Binding) (r r' : Compiled) : Prop :=
  r.binding = b ∧ r' = { r with binding := b' }

/-- A step of compiling depends on what is known of the binding alone. -/
theorem stage_agree {f : Compiled → Resolving Compiled}
    (hf : f ∈ (standard u o).stages) {r r' : Compiled} (hr : Copies b b' r r') :
    Agree T indexed b b' (f r) (f r') (Copies b b') := by
  obtain ⟨rfl, rfl⟩ := hr
  simp only [stages, List.mem_cons, List.not_mem_nil, or_false] at hf
  rcases hf with rfl | rfl | rfl | rfl | rfl
  all_goals
    refine (getAs_agree hT hu rfl _).bind ?_
    rintro v _ rfl
    exact .pure ⟨rfl, rfl⟩

end Standard

end Compiler

end Bindery
