import Bindery.Proofs.PageSchedules

/-!
# Pages that stop at an error

With `failFast` the work on a page stops at the first step that fails, and the page gives that error
in place of its results. `Compiler.compileIn_failFast` compares such a page with the same page
compiled to its end: both may take the steps of their bindings in any order.

Bindings that cannot be given an index among their siblings fail before the work begins. No step is
taken on them, so they do not stop the page.
-/

namespace Bindery.Compiler

open Resolving Workspace

/-! ## What does not depend on the option -/

section

variable {c c' : Compiler} (hr : c.resolvers = c'.resolvers)
  (ht : c.options.trace = c'.options.trace)

include hr ht

theorem getWithin_congr (b : Binding) (n : Nat) : c.getWithin b n = c'.getWithin b n := by
  induction n with
  | zero => rfl
  | succ n ih =>
    funext chain p
    simp only [getWithin, resolver?, hr, ht, ih]

theorem get_congr : c.get = c'.get := by
  funext b p
  simp only [get, getWithin_congr hr ht]

theorem stages_congr : c.stages = c'.stages := by
  simp only [stages, getAs, get_congr hr ht]

theorem prepare_congr (inputs : List Input) : c.prepare inputs = c'.prepare inputs := by
  induction inputs with
  | nil => rfl
  | cons i is ih => simp only [prepare, enter, get_congr hr ht, ih]

end

/-! ## Steps and errors -/

/-- A step that succeeds leaves the error of its binding as it was. -/
def KeepsError (f : Compiled → Resolving Compiled) : Prop :=
  ∀ r w r' x, (f r).run.run w = (.ok r', x) → r'.error = r.error

theorem keepsError_of_update {α : Type} {m : Compiled → Resolving α}
    {g : Compiled → α → Compiled} (hg : ∀ r a, (g r a).error = r.error) :
    KeepsError fun r => do return g r (← m r) := by
  intro r w r' x h
  rcases hm : (m r).run.run w with ⟨e | a, y⟩
  · rw [run_bind_error hm] at h
    cases h
  · rw [run_bind_ok hm] at h
    obtain rfl : g r a = r' := Except.ok.inj (Prod.mk.inj h).1
    exact hg r a

theorem stages_keepError (c : Compiler) : ∀ f ∈ c.stages, KeepsError f := by
  simp only [stages, List.forall_mem_cons, List.not_mem_nil, false_implies, implies_true, and_true]
  exact ⟨keepsError_of_update fun _ _ => rfl, keepsError_of_update fun _ _ => rfl,
    keepsError_of_update fun _ _ => rfl, keepsError_of_update fun _ _ => rfl,
    keepsError_of_update fun _ _ => rfl⟩

variable {c : Compiler} {inputs : List Input} {ts : List Task} {k : Nat} {x : Workspace}

theorem ok_of_attempt {α : Type} {m : Resolving α} {w : Workspace} {a : α}
    (h : (attempt m).run.run w = (.ok (.ok a), x)) : m.run.run w = (.ok a, x) := by
  rw [run_attempt] at h
  split at h
  · rename_i hm
    cases h
    exact hm
  all_goals cases h

theorem work_done {turns : List Nat} {ts' : List Task} {w : Workspace} {r : Compiled}
    (hk : ts[k]? = some ⟨r, []⟩) (h : (c.work turns ts).run.run w = (.ok ts', x)) :
    ts'[k]? = some ⟨r, []⟩ := by
  induction turns generalizing ts w with
  | nil =>
    obtain rfl : ts = ts' := Except.ok.inj (Prod.mk.inj h).1
    exact hk
  | cons j turns ih =>
    unfold work at h
    split at h
    · rename_i s f fs hj
      have hset (t : Task) : (ts.set j t)[k]? = some ⟨r, []⟩ := by
        have hne : j ≠ k := by
          rintro rfl
          rw [hj] at hk
          cases hk
        rw [List.getElem?_set_ne hne, hk]
      rcases hstep : (attempt (f s)).run.run w with ⟨fault | ⟨e | s'⟩, y⟩
      · rw [run_bind_error hstep] at h
        cases h
      · rw [run_bind_ok hstep] at h
        dsimp only at h
        split at h
        · cases h
        · exact ih (hset _) h
      · rw [run_bind_ok hstep] at h
        exact ih (hset _) h
    · exact ih hk h

/-- How work ends that stops at an error, next to the same work when it does not stop. It ends the
same and no further binding has failed, or it stops at an error of a binding on which there was
something left to do, and the binding has that error in the end. -/
def Stops (ts : List Task) (outcome : Except Fault (List Task) × Workspace) :
    Except Fault (List Task) × Workspace → Prop
  | (.ok ts', x) => outcome = (.ok ts', x) ∧
    ts'.map (·.result.error) = ts.map (·.result.error)
  | (.error (.error e), _) => ∃ k t e', ts[k]? = some t ∧ t.steps ≠ [] ∧ e = Page.locate k e' ∧
    ∀ ts' x, outcome = (.ok ts', x) → ∃ t', ts'[k]? = some t' ∧ t'.result.error = some e'
  | (.error (.crash text), x) => outcome = (.error (.crash text), x)

theorem Stops.of_set {outcome outcome' : Except Fault (List Task) × Workspace} {r r' : Compiled}
    {f : Compiled → Resolving Compiled} {fs : List (Compiled → Resolving Compiled)}
    (hk : ts[k]? = some ⟨r, f :: fs⟩) (hr : r'.error = r.error)
    (h : Stops (ts.set k ⟨r', fs⟩) outcome outcome') : Stops ts outcome outcome' := by
  have hlt : k < ts.length := (List.getElem?_eq_some_iff.1 hk).1
  match outcome', h with
  | (.ok ts', x), ⟨hrun, herrors⟩ =>
    refine ⟨hrun, herrors.trans ?_⟩
    refine List.ext_getElem? fun j => ?_
    by_cases hjk : j = k
    · subst hjk
      rw [List.getElem?_map, List.getElem?_map, List.getElem?_set_self hlt, hk]
      exact congrArg some hr
    · simp [List.getElem?_set_ne (Ne.symm hjk)]
  | (.error (.error e), x), ⟨j, t, e', hj, hsteps, he, hlast⟩ =>
    by_cases hjk : j = k
    · subst hjk
      exact ⟨j, _, e', hk, by simp, he, hlast⟩
    · rw [List.getElem?_set_ne (Ne.symm hjk)] at hj
      exact ⟨j, t, e', hj, hsteps, he, hlast⟩
  | (.error (.crash text), x), h => exact h

/-- Work that stops at an error takes the same steps until then. -/
theorem work_stops {c' : Compiler} (hc : c.options.failFast = false)
    (hc' : c'.options.failFast) (turns : List Nat)
    (hts : ∀ t ∈ ts, ∀ f ∈ t.steps, KeepsError f) (w : Workspace) :
    Stops ts ((c.work turns ts).run.run w) ((c'.work turns ts).run.run w) := by
  induction turns generalizing ts w with
  | nil => exact ⟨rfl, rfl⟩
  | cons k turns ih =>
    unfold work
    split
    · rename_i r f fs hk
      have hlt : k < ts.length := (List.getElem?_eq_some_iff.1 hk).1
      have hsteps := hts _ (List.mem_of_getElem? hk)
      rcases hstep : (attempt (f r)).run.run w with ⟨fault | ⟨e | r'⟩, x⟩
      · obtain ⟨text, rfl⟩ := crash_of_attempt hstep
        rw [run_bind_error hstep, run_bind_error hstep]
        rfl
      · rw [run_bind_ok hstep, run_bind_ok hstep]
        simp only [hc, hc', Bool.false_eq_true, if_false, if_true]
        refine ⟨k, _, e, hk, by simp, rfl, fun ts' y hlast => ?_⟩
        have hdone : (ts.set k ⟨{ r with error := some e }, []⟩)[k]? =
            some ⟨{ r with error := some e }, []⟩ := by simp [hlt]
        exact ⟨_, work_done hdone hlast, rfl⟩
      · rw [run_bind_ok hstep, run_bind_ok hstep]
        refine .of_set hk (hsteps f (List.mem_cons_self ..) r w r' x (ok_of_attempt hstep)) ?_
        refine ih (fun t ht => ?_) x
        rcases List.mem_or_eq_of_mem_set ht with ht | rfl
        · exact hts t ht
        · exact fun g hg => hsteps g (List.mem_cons_of_mem _ hg)
    · exact ih hts w

/-! ## Pages -/

/-- How a page ends that stops at an error, if `page` is what it gives when it does not stop: the
same, and then no binding has failed but those that failed before the work, or the error of a
binding that fails in the work, with its place. -/
inductive FailsFast (inputs : List Input) (page : Page) : Except Fault Page → Prop
  | page (errors : page.results.map (·.error) = inputs.map (·.startError)) :
      FailsFast inputs page (.ok page)
  | error {k : Nat} {i : Input} {r : Compiled} {e : Error} (input : inputs[k]? = some i)
      (start : i.startError = none) (result : page.results[k]? = some r)
      (error : r.error = some e) : FailsFast inputs page (.error (.error (Page.locate k e)))

variable {T : Ty → Prop} {u : Universe} {o : Options} {w : Workspace} {turns turns' : List Nat}

theorem started_of_enters {rs : List Compiled} (hx : w.Enters inputs rs x) {t : Task}
    (hk : (rs.map c.start)[k]? = some t) : ∃ i, inputs[k]? = some i ∧
      t = c.start { binding := ⟨w.memos.size + k⟩, error := i.startError } := by
  obtain ⟨r, hr, rfl⟩ := Option.map_eq_some_iff.1 (List.getElem?_map ▸ hk)
  obtain ⟨i, hi, rfl⟩ := hx.exists_input hr
  exact ⟨i, hi, rfl⟩

theorem startErrors_of_enters {rs : List Compiled} (hx : w.Enters inputs rs x) :
    (rs.map c.start).map (·.result.error) = inputs.map (·.startError) := by
  refine List.ext_getElem? fun k => ?_
  cases hi : inputs[k]? with
  | some i => simp [hi, (hx.entry k i hi).1, start]
  | none =>
    have hlength := hx.length
    rw [List.getElem?_eq_none_iff] at hi
    simp only [List.map_map, List.getElem?_map, hlength, hi, List.getElem?_eq_none,
      Option.map_none]

variable (hT : Ty.Realm T) (hu : u.Within T) (ho : o.failFast = false)
  (hinputs : ∀ i ∈ inputs, ∀ s, i.scope = some s → s.Within T) (hw : w.names.table.Within T)
  (hturns : ∀ k < inputs.length, (standard u o).stages.length ≤ turns.count k)
  (hturns' : ∀ k < inputs.length, (standard u o).stages.length ≤ turns'.count k) {page : Page}
  (hpage : (((standard u o).compileIn turns' inputs).run.run w).1 = .ok page)

include hT hu ho hinputs hw hturns hturns' hpage

/-- Whatever the turns, a page that does not crash has the same results. -/
theorem compileIn_results : (((standard u o).compileIn turns inputs).run.run w).1 = .ok page := by
  obtain ⟨rs, x, hrun, hx, hends⟩ := compileIn_run hT hu ho hinputs hw hturns
  obtain ⟨rs', x', hrun', -, hends'⟩ := compileIn_run hT hu ho hinputs hw hturns'
  obtain ⟨hrs, rfl⟩ := Prod.mk.inj (hrun.symm.trans hrun')
  obtain rfl := Except.ok.inj hrs
  have h' : ((standard u o).compileIn turns' inputs).run.run w = (.ok page, _) := Prod.ext hpage rfl
  rw [h'] at hends'
  obtain ⟨hlength', hresults'⟩ := hends'
  rcases h : ((standard u o).compileIn turns inputs).run.run w with ⟨fault | page, y⟩
  · rw [h] at hends
    obtain ⟨-, -, k, r, hr, hcrash⟩ := hends
    obtain ⟨r', -, hend⟩ := hresults' k r hr
    rw [hend] at hcrash
    cases hcrash
  · rw [h] at hends
    obtain ⟨hlength, hresults⟩ := hends
    refine congrArg (fun rs => Except.ok (Page.mk rs)) (List.ext_getElem? fun k => ?_)
    by_cases hk : k < rs.length
    · obtain ⟨r, hr, hend⟩ := hresults k _ (List.getElem?_eq_getElem hk)
      obtain ⟨r', hr', hend'⟩ := hresults' k _ (List.getElem?_eq_getElem hk)
      rw [hr, hr', Except.ok.inj (Prod.mk.inj (hend.symm.trans hend')).1]
    · rw [hx.length] at hk
      rw [List.getElem?_eq_none (by omega), List.getElem?_eq_none (by omega)]

/-- Compared with a page that is compiled to its end, the same page with `failFast` gives an error
exactly if a binding fails in the work, whatever the turns, and it is the error of such a binding
with its place. Otherwise it gives the same results, also if bindings failed before the work. -/
theorem compileIn_failFast : FailsFast inputs page
    (((standard u { o with failFast := true }).compileIn turns inputs).run.run w).1 := by
  have hsame := compileIn_results hT hu ho hinputs hw hturns hturns' hpage
  obtain ⟨rs, x, hrun, hx⟩ := prepare_run (u := u) (o := o) inputs w
  have hstages : (standard u { o with failFast := true }).stages = (standard u o).stages := by
    apply stages_congr <;> rfl
  have hprepare : (standard u { o with failFast := true }).prepare inputs =
      (standard u o).prepare inputs := by
    apply prepare_congr <;> rfl
  have hstart : (standard u { o with failFast := true }).start = (standard u o).start := by
    funext r
    rw [start, start, hstages]
  have hsteps : ∀ t ∈ rs.map (standard u o).start, ∀ f ∈ t.steps, KeepsError f :=
    fun t ht f hf => by
    obtain ⟨r, -, rfl⟩ := List.mem_map.1 ht
    exact stages_keepError _ f ((start_sublist _ r).subset hf)
  have hstops := work_stops (show (standard u o).options.failFast = false from ho)
    (show (standard u { o with failFast := true }).options.failFast = true from rfl) turns hsteps x
  rw [compileIn, run_bind_ok hrun] at hsame
  rw [compileIn, hprepare, run_bind_ok hrun, hstart]
  rcases hplain : ((standard u o).work turns (rs.map (standard u o).start)).run.run x with
    ⟨fault | ts, y⟩
  · rw [run_bind_error hplain] at hsame
    cases hsame
  rw [run_bind_ok hplain] at hsame
  obtain rfl : ⟨ts.map (·.result)⟩ = page := Except.ok.inj hsame
  rw [hplain] at hstops
  rcases hfast : ((standard u { o with failFast := true }).work turns
    (rs.map (standard u o).start)).run.run x with ⟨(e | text) | ts', y'⟩
  · rw [hfast] at hstops
    obtain ⟨k, t, e, hk, hsteps, rfl, hlast⟩ := hstops
    obtain ⟨t', ht', he⟩ := hlast ts y rfl
    obtain ⟨i, hi, rfl⟩ := started_of_enters hx hk
    rw [run_bind_error hfast]
    refine .error hi ?_ (by simp [ht']) he
    by_contra hne
    exact hsteps (if_pos (Option.isSome_iff_ne_none.2 hne))
  · rw [hfast] at hstops
    cases hstops
  · rw [hfast] at hstops
    obtain ⟨heq, herrors⟩ := hstops
    obtain ⟨hts, rfl⟩ := Prod.mk.inj heq
    obtain rfl := Except.ok.inj hts
    rw [run_bind_ok hfast]
    refine .page ?_
    rw [List.map_map]
    exact herrors.trans (startErrors_of_enters hx)

end Bindery.Compiler

namespace Bindery.Linked

open Compiler

/-- A binding that is in no scope, and so cannot be counted among its siblings. -/
def stray : Input := { code := "Name", treeRoot := "page" }

/-- The work stops at the field that a page does not have, which is the second of the page and has
its turn before the first. -/
theorem compileIn_failFast_backwards : ∃ page r e,
    (((standard types {}).compilePage false bindings).run.run {}).1 = .ok page ∧
    page.results[1]? = some r ∧ r.error = some e ∧
    (((standard types { failFast := true }).compileIn backwards bindings).run.run {}).1 =
      .error (.error (Page.locate 1 e)) := by
  have hw : ({} : Workspace).names.table.Within (Ty.Formed types) := nofun
  have hturns : ∀ k < bindings.length, (standard types {}).stages.length ≤ backwards.count k := by
    decide
  have hfailed : Page.failed (((standard types {}).compilePage false bindings).run.run {}).1 =
    some [false, true, false] := by decide +kernel
  rcases hpage : (((standard types {}).compilePage false bindings).run.run {}).1 with fault | page
  · rw [hpage] at hfailed
    cases hfailed
  rw [hpage] at hfailed
  have hfailed : page.results.map (·.error.isSome) = [false, true, false] := Option.some.inj hfailed
  have h : FailsFast bindings page
      (((standard types { failFast := true }).compileIn backwards bindings).run.run {}).1 :=
    compileIn_failFast types_wellNamed.realm (types_sound.within types_wellNamed) rfl
      bindings_within hw hturns (turns_inOrder (standard types {}) bindings) hpage
  generalize (((standard types { failFast := true }).compileIn backwards bindings).run.run {}).1 =
    outcome at h
  cases h with
  | page herrors =>
    have := congrArg (List.map Option.isSome) herrors
    rw [List.map_map] at this
    exact absurd (hfailed.symm.trans this) (by decide)
  | @error k i r e hi _ hr he =>
    have hk : [false, true, false][k]? = some true := by
      rw [← hfailed, List.getElem?_map, hr, Option.map_some, he]
      rfl
    obtain rfl : k = 1 := by
      rcases k with _ | _ | _ | k
      · simp at hk
      · rfl
      all_goals simp at hk
    exact ⟨page, r, e, rfl, hr, he, rfl⟩

/-- A binding that cannot be given an index fails, and the page does not stop. -/
theorem not_failFast_stray :
    Page.failed (((standard types { failFast := true }).compilePage false [stray]).run.run {}).1 =
      some [true] := by
  decide +kernel

end Bindery.Linked
