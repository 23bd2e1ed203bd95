import Bindery.Proofs.PageIndexes
import Bindery.Proofs.TypeSoundness

/-!
# Schedules of a page

The bindings of a page are compiled in steps, and workers may take these in any order. Among types
that can be told apart by name, the order does not matter: each binding comes out as if it were
compiled alone with the index that it has among its siblings (`Compiler.compileIn_eq_alone`).

A step changes the memory of its own binding and the shared types, and the steps of other bindings
do not depend on either. So the outcome that a binding would have if it were finished at once stays
what it is while others take their steps (`Compiler.Underway.other`), and it is the outcome in the
end.
-/

namespace Bindery.Compiler

open Resolving Workspace

variable {T : Ty → Prop} {u : Universe} {o : Options} {b b' : Binding} {w x : Workspace} {i : Input}

/-! ## Finishing a binding at once -/

/-- Takes steps until one fails; what was compiled before stays. -/
def finish : List (Compiled → Resolving Compiled) → Compiled → Resolving Compiled
  | [], r => return r
  | f :: fs, r => do
    match ← attempt (f r) with
    | .ok r => finish fs r
    | .error e => return { r with error := some e }

theorem finish_agree (hT : Ty.Realm T) (hu : u.Within T) {indexed : Bool}
    {fs : List (Compiled → Resolving Compiled)} (hfs : ∀ f ∈ fs, f ∈ (standard u o).stages)
    {r r' : Compiled} (hr : Copies b b' r r') :
    Agree T indexed b b' (finish fs r) (finish fs r') (Copies b b') := by
  induction fs generalizing r r' with
  | nil => exact .pure hr
  | cons f fs ih =>
    refine (stage_agree hT hu (hfs f (List.mem_cons_self ..)) hr).attempt.bind fun a a' ha => ?_
    cases ha with
    | ok hr' => exact ih (fun g hg => hfs g (List.mem_cons_of_mem _ hg)) hr'
    | error e =>
      obtain ⟨rfl, rfl⟩ := hr
      exact .pure ⟨rfl, rfl⟩

/-- How a step on a binding ends: its outcome, and what is known of the binding then. -/
def endOf (b : Binding) (m : Resolving Compiled) (w : Workspace) : Except Fault Compiled × Memo :=
  ((m.run.run w).1, (m.run.run w).2.memo b)

variable {a : Except Fault Compiled}

theorem endOf_eq {m : Resolving Compiled} (h : m.run.run w = (a, x)) :
    endOf b m w = (a, x.memo b) := by
  rw [endOf, h]

/-- The task of a binding that would end as given if it were finished at once. -/
structure Underway (T : Ty → Prop) (u : Universe) (o : Options) (w : Workspace) (b : Binding)
    (t : Task) (ending : Except Fault Compiled × Memo) : Prop where
  ready : ∃ indexed, w.Ready T indexed b
  binding : t.result.binding = b
  steps : ∀ f ∈ t.steps, f ∈ (standard u o).stages
  ends : endOf b (finish t.steps t.result) w = ending

namespace Underway

variable {t : Task} {ending : Except Fault Compiled × Memo}

theorem other (hT : Ty.Realm T) (hu : u.Within T) (h : Underway T u o w b t ending)
    (hx : Spares b' w x) (hb : b ≠ b') (htable : x.names.table.Within T) :
    Underway T u o x b t ending := by
  obtain ⟨indexed, hready⟩ := h.ready
  have hmemo := hx.memo b hb
  have hready' : x.Ready T indexed b := by
    refine ⟨hx.size ▸ hready.inBounds, htable, ?_, ?_⟩
    all_goals simp only [Workspace.known?, hmemo]
    · exact hready.scope
    · exact hready.index
  obtain ⟨a, a', y, y', hrun, hrun', hmatch, hy, -⟩ :=
    finish_agree hT hu h.steps ⟨h.binding, by rw [← h.binding]⟩ w x ⟨hmemo.symm, hready, hready'⟩
  refine ⟨⟨indexed, hready'⟩, h.binding, h.steps, ?_⟩
  rw [← h.ends, endOf_eq hrun, endOf_eq hrun', hy.memo]
  cases hmatch with
  | ok hr =>
    obtain ⟨rfl, rfl⟩ := hr
    rfl
  | error e => rfl

/-- A step brings the task nearer to its end. -/
theorem step (hT : Ty.Realm T) (hu : u.Within T) {r : Compiled}
    {f : Compiled → Resolving Compiled} {fs : List (Compiled → Resolving Compiled)}
    (h : Underway T u o w b ⟨r, f :: fs⟩ ending) :
    ∃ a x, (attempt (f r)).run.run w = (a, x) ∧ Spares b w x ∧ x.names.table.Within T ∧
      match a with
      | .ok (.ok r') => Underway T u o x b ⟨r', fs⟩ ending
      | .ok (.error e) => Underway T u o x b ⟨{ r with error := some e }, []⟩ ending
      | .error fault => ∃ text, fault = .crash text ∧ ending.1 = .error fault := by
  obtain ⟨indexed, hready⟩ := h.ready
  have hstage : Agree T indexed b b (f r) (f r) (Copies b b) :=
    stage_agree hT hu (h.steps f (List.mem_cons_self ..)) ⟨h.binding, by rw [← h.binding]⟩
  obtain ⟨a, a', x, x', hrun, -, hmatch, hx, hspares⟩ := hstage.attempt w w ⟨rfl, hready, hready⟩
  refine ⟨a, x, hrun, hspares, hx.left.table, ?_⟩
  have hends := h.ends
  simp only [finish, endOf] at hends
  cases hmatch with
  | error fault =>
    rw [run_bind_error hrun] at hends
    obtain ⟨text, rfl⟩ := crash_of_attempt hrun
    exact ⟨text, rfl, (congrArg Prod.fst hends).symm⟩
  | ok hinner =>
    rw [run_bind_ok hrun] at hends
    cases hinner with
    | ok hr =>
      exact ⟨⟨indexed, hx.left⟩, hr.1, fun g hg => h.steps g (List.mem_cons_of_mem _ hg), hends⟩
    | error e => exact ⟨⟨indexed, hx.left⟩, h.binding, nofun, hends⟩

end Underway

/-! ## Taking turns -/

/-- The tasks of a page, whose bindings are numbered from `base`, on their way to the given ends,
with turns for all of their steps. -/
structure InWork (T : Ty → Prop) (u : Universe) (o : Options) (base : Nat)
    (ending : Nat → Except Fault Compiled × Memo) (turns : List Nat) (w : Workspace)
    (ts : List Task) : Prop where
  table : w.names.table.Within T
  tasks : ∀ k t, ts[k]? = some t → Underway T u o w ⟨base + k⟩ t (ending k)
  turns : ∀ k t, ts[k]? = some t → t.steps.length ≤ turns.count k

/-- The work ends as every task does, or as one that crashes. -/
def Ends (ending : Nat → Except Fault Compiled × Memo) (n : Nat) :
    Except Fault (List Task) × Workspace → Prop
  | (.ok ts, x) => ts.length = n ∧
    ∀ k t, ts[k]? = some t → ending k = (.ok t.result, x.memo t.result.binding)
  | (.error fault, _) => ∃ text k, fault = .crash text ∧ k < n ∧ (ending k).1 = .error fault

variable {base : Nat} {ending : Nat → Except Fault Compiled × Memo} {turns : List Nat}
  {ts : List Task} {k : Nat}

theorem InWork.set (hT : Ty.Realm T) (hu : u.Within T)
    (h : InWork T u o base ending (k :: turns) w ts) {t t' : Task} (hk : ts[k]? = some t)
    (hx : Spares ⟨base + k⟩ w x) (htable : x.names.table.Within T)
    (ht : Underway T u o x ⟨base + k⟩ t' (ending k))
    (hsteps : t'.steps.length + 1 ≤ t.steps.length) :
    InWork T u o base ending turns x (ts.set k t') := by
  have hlt : k < ts.length := (List.getElem?_eq_some_iff.1 hk).1
  have hturns := h.turns k t hk
  refine ⟨htable, fun j s hj => ?_, fun j s hj => ?_⟩
  all_goals by_cases hjk : j = k
  · subst hjk
    obtain rfl : t' = s := by simpa [hlt] using hj
    exact ht
  · rw [List.getElem?_set_ne (Ne.symm hjk)] at hj
    exact (h.tasks j s hj).other hT hu hx (by simpa using hjk) htable
  · subst hjk
    obtain rfl : t' = s := by simpa [hlt] using hj
    rw [List.count_cons_self] at hturns
    omega
  · rw [List.getElem?_set_ne (Ne.symm hjk)] at hj
    rw [← List.count_cons_of_ne (Ne.symm hjk)]
    exact h.turns j s hj

theorem InWork.skip (h : InWork T u o base ending (k :: turns) w ts)
    (hk : ∀ t, ts[k]? = some t → t.steps = []) : InWork T u o base ending turns w ts := by
  refine ⟨h.table, h.tasks, fun j t hj => ?_⟩
  by_cases hjk : j = k
  · subst hjk
    rw [hk t hj]
    exact Nat.zero_le _
  · rw [← List.count_cons_of_ne (Ne.symm hjk)]
    exact h.turns j t hj

/-- Whatever the turns, every task ends as it would at once. -/
theorem work_run (hT : Ty.Realm T) (hu : u.Within T) (ho : o.failFast = false)
    (h : InWork T u o base ending turns w ts) :
    Ends ending ts.length (((standard u o).work turns ts).run.run w) := by
  induction turns generalizing w ts with
  | nil =>
    refine ⟨rfl, fun k t hk => ?_⟩
    have hdone : t.steps = [] := List.length_eq_zero_iff.1 (Nat.le_zero.1 (h.turns k t hk))
    rw [← (h.tasks k t hk).ends, hdone, (h.tasks k t hk).binding]
    rfl
  | cons k turns ih =>
    unfold work
    split
    · rename_i r f fs hk
      obtain ⟨a, x, hrun, hspares, htable, hnext⟩ := (h.tasks k _ hk).step hT hu
      have hset {t : Task} (ht : Underway T u o x ⟨base + k⟩ t (ending k))
          (hsteps : t.steps.length ≤ fs.length) :
          Ends ending ts.length (((standard u o).work turns (ts.set k t)).run.run x) := by
        rw [← List.length_set (i := k) (a := t)]
        exact ih (h.set hT hu hk hspares htable ht (Nat.succ_le_succ hsteps))
      match a, hrun, hnext with
      | .ok (.ok r'), hrun, hnext =>
        rw [run_bind_ok hrun]
        exact hset hnext (Nat.le_refl _)
      | .ok (.error e), hrun, hnext =>
        have hoption : (standard u o).options.failFast = false := ho
        rw [run_bind_ok hrun]
        simp only [hoption, Bool.false_eq_true, if_false]
        exact hset hnext (Nat.zero_le _)
      | .error fault, hrun, hnext =>
        obtain ⟨text, rfl, hcrash⟩ := hnext
        rw [run_bind_error hrun]
        exact ⟨text, k, rfl, (List.getElem?_eq_some_iff.1 hk).1, hcrash⟩
    · rename_i hk
      refine ih (h.skip fun t ht => ?_)
      obtain ⟨r, _ | ⟨f, fs⟩⟩ := t
      · rfl
      · exact absurd ht (hk r f fs)

/-! ## Pages -/

theorem turns_inOrder (c : Compiler) (inputs : List Input) :
    ∀ k < inputs.length, c.stages.length ≤ (c.inOrder inputs).count k := by
  intro k hk
  have hsub : (List.replicate c.stages.length k).Sublist (c.inOrder inputs) :=
    List.sublist_flatten_of_mem (List.mem_map_of_mem (List.mem_range.2 hk))
  calc c.stages.length = (List.replicate c.stages.length k).count k := by simp
    _ ≤ (c.inOrder inputs).count k := hsub.count_le k

theorem start_sublist (c : Compiler) (r : Compiled) : (c.start r).steps.Sublist c.stages := by
  rw [start]
  split
  · exact List.nil_sublist _
  · exact .refl _

/-- A binding that has entered a page is ready, if the types of its scope are in the set. -/
theorem ready_of_entered {n : Nat} (hmemo : w.memo b = i.entered n)
    (hscope : ∀ s, i.scope = some s → s.Within T) (hb : b.number < w.memos.size)
    (htable : w.names.table.Within T) : w.Ready T (!i.treeRoot.isEmpty) b := by
  have hknown (p : Property) : w.known? b p = (i.entered n).lookup p := by
    rw [Workspace.known?, hmemo]
  have hmemo_scope {p : Property} {s : Scope} (h : i.memo.lookup p = some (.ok (.scope s))) :
      s.Within T := by
    rw [i.lookup_memo] at h
    cases p <;> simp at h
    exact hscope s h
  refine ⟨hb, htable, fun p s hp => ?_, ?_⟩
  · rw [hknown, Input.entered] at hp
    split at hp
    · exact hmemo_scope hp
    · rw [lookup_cons_eq] at hp
      split at hp
      · split at hp <;> cases hp
      · exact hmemo_scope hp
  · simp only [hknown, Input.entered]
    cases hroot : i.treeRoot.isEmpty with
    | true => simp [i.lookup_memo, hroot]
    | false => simp

/-- How a binding that has entered a page as `r` ends. -/
def endingOf (c : Compiler) (x : Workspace) (r : Compiled) : Except Fault Compiled × Memo :=
  endOf r.binding (finish (c.start r).steps r) x

variable (hT : Ty.Realm T) (hu : u.Within T) (ho : o.failFast = false) {inputs : List Input}
  (hinputs : ∀ i ∈ inputs, ∀ s, i.scope = some s → s.Within T) (hw : w.names.table.Within T)
  (hturns : ∀ k < inputs.length, (standard u o).stages.length ≤ turns.count k)

include hinputs hw hturns in
theorem inWork_of_enters {rs : List Compiled} (hx : w.Enters inputs rs x)
    (hending : ∀ (k : Nat) r, rs[k]? = some r → ending k = (standard u o).endingOf x r) :
    InWork T u o w.memos.size ending turns x (rs.map (standard u o).start) := by
  have htable : x.names.table.Within T := hx.names ▸ hw
  refine ⟨htable, fun k t hk => ?_, fun k t hk => ?_⟩ <;>
    obtain ⟨r, hr, rfl⟩ := Option.map_eq_some_iff.1 (List.getElem?_map ▸ hk) <;>
    obtain ⟨i, hi, rfl⟩ := hx.exists_input hr
  · have hscope := hinputs i (List.mem_of_getElem? hi)
    refine ⟨⟨_, ready_of_entered (hx.entry k i hi).2 hscope (hx.inBounds hi) htable⟩, rfl,
      (start_sublist _ _).subset, ?_⟩
    rw [hending k _ hr, endingOf]
    rfl
  · exact Nat.le_trans (start_sublist _ _).length_le
      (hturns k (List.getElem?_eq_some_iff.1 hi).1)

include hT hu ho hinputs hw hturns in
/-- Whatever the turns, a page ends as its bindings do, or crashes as one of them does. -/
theorem compileIn_run :
    ∃ rs x, ((standard u o).prepare inputs).run.run w = (.ok rs, x) ∧ w.Enters inputs rs x ∧
      match ((standard u o).compileIn turns inputs).run.run w with
      | (.ok page, y) => page.results.length = inputs.length ∧ ∀ (k : Nat) r, rs[k]? = some r →
        ∃ r', page.results[k]? = some r' ∧
          (standard u o).endingOf x r = (.ok r', y.memo r'.binding)
      | (.error fault, _) => ∃ text, fault = .crash text ∧ ∃ (k : Nat) (r : Compiled),
        rs[k]? = some r ∧ ((standard u o).endingOf x r).1 = .error fault := by
  obtain ⟨rs, x, hrun, hx⟩ := prepare_run (u := u) (o := o) inputs w
  obtain ⟨ending, hending⟩ : ∃ ending : Nat → Except Fault Compiled × Memo, ∀ (k : Nat) r,
      rs[k]? = some r → ending k = (standard u o).endingOf x r :=
    ⟨fun k => (rs[k]?.map ((standard u o).endingOf x)).getD (.error .misfit, []), fun k r hr => by
      simp [hr]⟩
  have hends := work_run hT hu ho (inWork_of_enters hinputs hw hturns hx hending)
  rw [List.length_map] at hends
  refine ⟨rs, x, hrun, hx, ?_⟩
  rw [compileIn, run_bind_ok hrun]
  rcases hwork : ((standard u o).work turns (rs.map (standard u o).start)).run.run x with
    ⟨fault | ts, y⟩
  · rw [hwork] at hends
    obtain ⟨text, k, rfl, hk, hcrash⟩ := hends
    obtain ⟨r, hr⟩ : ∃ r, rs[k]? = some r := ⟨rs[k], List.getElem?_eq_getElem hk⟩
    rw [run_bind_error hwork]
    exact ⟨text, rfl, k, r, hr, hending k r hr ▸ hcrash⟩
  · rw [hwork] at hends
    obtain ⟨hlength, hresults⟩ := hends
    rw [run_bind_ok hwork]
    refine ⟨by simp [hlength, hx.length], fun k r hr => ?_⟩
    have hlt : k < ts.length := hlength ▸ (List.getElem?_eq_some_iff.1 hr).1
    have hend := hresults k ts[k] (List.getElem?_eq_getElem hlt)
    exact ⟨ts[k].result, by simp [hlt], hending k r hr ▸ hend⟩

include hT hu in
theorem endingOf_agree {indexed : Bool} {y : Workspace} (h : Alike T indexed b x b' y)
    (e : Option Error) {m : Memo}
    (ha : (standard u o).endingOf x { binding := b, error := e } = (a, m)) :
    ∃ a', Matches (Copies b b') a a' ∧
      (standard u o).endingOf y { binding := b', error := e } = (a', m) := by
  have hcopies : Copies b b' { binding := b, error := e } { binding := b', error := e } :=
    ⟨rfl, rfl⟩
  obtain ⟨c, c', _, _, hrun, hrun', hmatch, hend, -⟩ := finish_agree hT hu
    (start_sublist (standard u o) { binding := b, error := e }).subset hcopies x y h
  obtain ⟨rfl, rfl⟩ := Prod.mk.inj ((endOf_eq hrun).symm.trans ha)
  exact ⟨c', hmatch, (endOf_eq hrun').trans (congrArg (c', ·) hend.memo.symm)⟩

include hT hu ho in
theorem compileAlone_run (hscope : ∀ s, i.scope = some s → s.Within T)
    (hw : w.names.table.Within T) :
    ∃ rs y, w.Enters [i] rs y ∧ match ((standard u o).compilePage false [i]).run.run w with
      | (.ok page, z) => ∃ r, page = ⟨[r]⟩ ∧ (standard u o).endingOf y
          { binding := ⟨w.memos.size⟩, error := i.startError } = (.ok r, z.memo r.binding)
      | (.error fault, _) => ((standard u o).endingOf y
          { binding := ⟨w.memos.size⟩, error := i.startError }).1 = .error fault := by
  have hinputs : ∀ j ∈ [i], ∀ s, j.scope = some s → s.Within T := fun j hj =>
    List.mem_singleton.1 hj ▸ hscope
  obtain ⟨rs, y, -, hy, hpage⟩ :=
    compileIn_run hT hu ho hinputs hw (turns_inOrder (standard u o) [i])
  have hr := (hy.entry 0 i rfl).1
  have hsame : (standard u o).compilePage false [i] =
      (standard u o).compileIn ((standard u o).inOrder [i]) [i] := rfl
  refine ⟨rs, y, hy, ?_⟩
  rw [hsame]
  rcases hrun : ((standard u o).compileIn ((standard u o).inOrder [i]) [i]).run.run w with
    ⟨fault | page, z⟩
  · rw [hrun] at hpage
    obtain ⟨_, _, k, r, hk, hend⟩ := hpage
    have hlt : k < rs.length := (List.getElem?_eq_some_iff.1 hk).1
    obtain rfl : k = 0 := by
      rw [hy.length, List.length_singleton] at hlt
      omega
    obtain rfl := Option.some.inj (hk.symm.trans hr)
    exact hend
  · rw [hrun] at hpage
    obtain ⟨hlength, hresults⟩ := hpage
    obtain ⟨r, hr', hend⟩ := hresults 0 _ hr
    obtain ⟨r₀, hr₀⟩ := List.length_eq_one_iff.1 hlength
    obtain rfl : r₀ = r := by simpa [hr₀] using hr'
    exact ⟨r₀, congrArg Page.mk hr₀, hend⟩

/-- The page has one binding, with the result `r` apart from the number of the binding, and `m` is
known of it. -/
def IsAlone (m : Memo) (x : Workspace) (r : Compiled) (page : Page) : Prop :=
  ∃ r₀, page = ⟨[r₀]⟩ ∧ { r with binding := r₀.binding } = r₀ ∧ x.memo r₀.binding = m

include hT hu ho in
/-- A binding on a page ends as it does alone with the same index. -/
theorem endingOf_matches (hscope : ∀ s, i.scope = some s → s.Within T) {n : Nat}
    (hmemo : x.memo b = i.entered n)
    (hb : b.number < x.memos.size) (hx : x.names.table.Within T) (hw : w.names.table.Within T)
    (hindex : i.siblingsAfter w.siblings [] = n) {m : Memo}
    (ha : (standard u o).endingOf x { binding := b, error := i.startError } = (a, m)) :
    Matches (IsAlone m (((standard u o).compilePage false [i]).run.run w).2) a
      (((standard u o).compilePage false [i]).run.run w).1 := by
  obtain ⟨rs, y, hy, hpage⟩ := compileAlone_run (o := o) hT hu ho hscope hw
  have hmemo' : y.memo ⟨w.memos.size⟩ = i.entered n := hindex ▸ (hy.entry 0 i rfl).2
  have halike : Alike T (!i.treeRoot.isEmpty) b x ⟨w.memos.size⟩ y :=
    ⟨hmemo.trans hmemo'.symm, ready_of_entered hmemo hscope hb hx,
      ready_of_entered hmemo' hscope (hy.inBounds (k := 0) rfl) (hy.names ▸ hw)⟩
  obtain ⟨a', hmatch, ha'⟩ := endingOf_agree hT hu halike i.startError ha
  rcases hrun : ((standard u o).compilePage false [i]).run.run w with ⟨fault | page, z⟩
  · rw [hrun] at hpage
    obtain rfl : a' = .error fault := (congrArg Prod.fst ha').symm.trans hpage
    cases hmatch
    exact .error _
  · rw [hrun] at hpage
    obtain ⟨r, rfl, hend⟩ := hpage
    obtain ⟨rfl, rfl⟩ := Prod.mk.inj (ha'.symm.trans hend)
    cases hmatch with
    | ok hcopies =>
      obtain ⟨-, rfl⟩ := hcopies
      exact .ok ⟨_, rfl, rfl, rfl⟩

theorem errorsFrom_eq (rs : List Compiled) (n : Nat) : Page.errorsFrom n rs =
    (rs.zipIdx n).filterMap fun p => p.1.error.map (Page.locate p.2) := by
  induction rs generalizing n with
  | nil => rfl
  | cons r rs ih =>
    rw [Page.errorsFrom, List.zipIdx_cons]
    cases h : r.error <;> simp [h, ih]

/-- The outcome of a page on the workspace `w` is that of its bindings alone. Each result is what
the binding gives alone, and as much is known of the binding, on every workspace where the count of
its siblings is that of `w` and one more for each earlier binding of the page in the same syntax
tree and scope. The errors are those of the bindings that fail, in their order. If the page crashes,
one of its bindings does so alone. -/
inductive AsAlone (T : Ty → Prop) (c : Compiler) (w : Workspace) (inputs : List Input) :
    Except Fault Page × Workspace → Prop
  | ok {page : Page} {x : Workspace} (length : page.results.length = inputs.length)
      (results : ∀ (k : Nat) i, inputs[k]? = some i → ∃ r, page.results[k]? = some r ∧
        ∀ w₀ : Workspace, w₀.names.table.Within T →
          i.siblingsAfter w₀.siblings [] = i.siblingsAfter w.siblings (inputs.take k) →
          ∃ r₀ x₀, (c.compilePage false [i]).run.run w₀ = (.ok ⟨[r₀]⟩, x₀) ∧
            { r with binding := r₀.binding } = r₀ ∧ x₀.memo r₀.binding = x.memo r.binding)
      (errors : page.errors =
        page.results.zipIdx.filterMap fun p => p.1.error.map (Page.locate p.2)) :
      AsAlone T c w inputs (.ok page, x)
  | crash {text : Option Text} {x : Workspace} {k : Nat} {i : Input} (input : inputs[k]? = some i)
      (alone : ∀ w₀ : Workspace, w₀.names.table.Within T →
        i.siblingsAfter w₀.siblings [] = i.siblingsAfter w.siblings (inputs.take k) →
        ((c.compilePage false [i]).run.run w₀).1 = .error (.crash text)) :
      AsAlone T c w inputs (.error (.crash text), x)

include hT hu ho hinputs hw hturns in
/-- The outcome of a page does not depend on the turns in which its bindings are compiled: it is
that of the bindings alone. Provided that a name belongs to one type among the types that are
shared. -/
theorem compileIn_eq_alone :
    AsAlone T (standard u o) w inputs (((standard u o).compileIn turns inputs).run.run w) := by
  obtain ⟨rs, x, -, hx, hpage⟩ := compileIn_run hT hu ho hinputs hw hturns
  have halone {k : Nat} {i : Input} (hi : inputs[k]? = some i) {a : Except Fault Compiled}
      {m : Memo} (ha : (standard u o).endingOf x
        { binding := ⟨w.memos.size + k⟩, error := i.startError } = (a, m))
      {w₀ : Workspace} (hw₀ : w₀.names.table.Within T)
      (hindex : i.siblingsAfter w₀.siblings [] = i.siblingsAfter w.siblings (inputs.take k)) :
      Matches (IsAlone m (((standard u o).compilePage false [i]).run.run w₀).2) a
        (((standard u o).compilePage false [i]).run.run w₀).1 :=
    endingOf_matches hT hu ho (hinputs i (List.mem_of_getElem? hi)) (hx.entry k i hi).2
      (hx.inBounds hi) (hx.names ▸ hw) hw₀ hindex ha
  rcases hresult : ((standard u o).compileIn turns inputs).run.run w with ⟨fault | page, y⟩
  · rw [hresult] at hpage
    obtain ⟨text, rfl, k, r, hr, hend⟩ := hpage
    obtain ⟨i, hi, rfl⟩ := hx.exists_input hr
    exact .crash hi fun w₀ hw₀ hindex =>
      (hend ▸ halone hi (Prod.eta _).symm hw₀ hindex).of_error
  · rw [hresult] at hpage
    obtain ⟨hlength, hresults⟩ := hpage
    refine .ok hlength (fun k i hi => ?_) (errorsFrom_eq _ _)
    obtain ⟨r, hr, hend⟩ := hresults k _ (hx.entry k i hi).1
    refine ⟨r, hr, fun w₀ hw₀ hindex => ?_⟩
    obtain ⟨_, hpage, r₀, rfl, hr₀, hmemo⟩ := (halone hi hend hw₀ hindex).of_ok
    exact ⟨r₀, _, Prod.ext hpage rfl, hr₀, hmemo⟩

end Bindery.Compiler

namespace Bindery

open Compiler

def Page.failed : Except Fault Page → Option (List Bool)
  | .ok page => some (page.results.map (·.error.isSome))
  | .error _ => none

namespace Linked

/-- Three bindings of one syntax tree; the second is of a field that a page does not have. -/
def bindings : List Input := [
  { code := "Name", scope := some scope, treeRoot := "page" },
  { code := "Title", scope := some scope, treeRoot := "page" },
  { code := "[_this].Any(p => p.Name == null)", scope := some scope, treeRoot := "page" }]

/-- Every binding takes a step in turn, the last one first. -/
def backwards : List Nat := (List.replicate 5 [2, 1, 0]).flatten

def counted : Workspace := { siblings := ⟨[(("page", scope.describe), 2)]⟩ }

theorem bindings_within : ∀ i ∈ bindings, ∀ s, i.scope = some s → s.Within (Ty.Formed types) := by
  intro i hi s hs
  simp only [bindings, List.mem_cons, List.not_mem_nil, or_false] at hi
  obtain rfl : scope = s := by
    rcases hi with rfl | rfl | rfl <;> exact Option.some.inj hs
  exact scope_formed

/-- Next to a binding that fails, the last binding comes out as it does alone with the index 2. -/
theorem compileIn_eq_alone_backwards : ∃ page x r r₀ x₀,
    ((standard types {}).compileIn backwards bindings).run.run {} = (.ok page, x) ∧
    Page.failed (.ok page) = some [false, true, false] ∧ page.results[2]? = some r ∧
    ((standard types {}).compilePage false (bindings.drop 2)).run.run counted =
      (.ok ⟨[r₀]⟩, x₀) ∧
    { r with binding := r₀.binding } = r₀ ∧ x₀.memo r₀.binding = x.memo r.binding := by
  have hempty {w : Workspace} (h : w.names.table.entries = []) :
      w.names.table.Within (Ty.Formed types) := by
    rw [TypeTable.Within, h]
    exact nofun
  have hturns : ∀ k < bindings.length, (standard types {}).stages.length ≤ backwards.count k := by
    decide
  have hw : ({} : Workspace).names.table.Within (Ty.Formed types) := hempty rfl
  have h : AsAlone (Ty.Formed types) (standard types {}) {} bindings
      (((standard types {}).compileIn backwards bindings).run.run {}) :=
    compileIn_eq_alone types_wellNamed.realm (types_sound.within types_wellNamed) rfl
      bindings_within hw hturns
  have hfailed : Page.failed (((standard types {}).compileIn backwards bindings).run.run {}).1 =
    some [false, true, false] := by decide +kernel
  rcases hrun : ((standard types {}).compileIn backwards bindings).run.run {} with ⟨fault | page, x⟩
  · rw [hrun] at hfailed
    cases hfailed
  · rw [hrun] at h hfailed
    cases h with
    | ok _ hresults _ =>
      obtain ⟨r, hr, halone⟩ := hresults 2 _ rfl
      obtain ⟨r₀, x₀, hrun₀, hr₀, hmemo⟩ := halone counted (hempty rfl) (by decide +kernel)
      exact ⟨page, x, r, r₀, x₀, rfl, hfailed, hr, hrun₀, hr₀, hmemo⟩

end Linked

/-! ## Classes of one name -/

namespace Namesakes

def empty : Declared := ⟨"App.Address", false, 2⟩

def named : Declared := ⟨"App.Address", false, 3⟩

def types : Universe where
  named := Universe.initial.named ++ [(named.name, .declared named)]
  catalog := ({} : Catalog).set named
    { fields := [{ name := "Street", owner := .declared named, type := .string }] }

def bindings : List Input := [
  { code := "[_this]", scope := some ⟨{ dataType := .declared empty }, []⟩ },
  { code := "[_this][0].Street", scope := some ⟨{ dataType := .declared named }, []⟩ }]

/-- The list type of the class that was asked for first serves both classes, so a binding that
compiles alone, and also on a page if it is compiled first, fails on a page after the other
binding. -/
theorem compileIn_namesakes :
    Page.failed (((standard types {}).compilePage false bindings).run.run {}).1 =
      some [false, true] ∧
    Page.failed (((standard types {}).compileIn
      [1, 1, 1, 1, 1, 0, 0, 0, 0, 0] bindings).run.run {}).1 = some [false, false] ∧
    Page.failed (((standard types {}).compilePage false (bindings.drop 1)).run.run {}).1 =
      some [false] := by
  decide +kernel

end Namesakes

end Bindery
