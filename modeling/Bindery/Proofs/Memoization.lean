import Bindery.Proofs.ResolvingRuns
import Mathlib.Data.List.Perm.Subperm

/-!
# Memory of properties

A binding remembers what was computed of it, and requests are answered from that. Where resolvers
are functions of the values that they ask for (`Compiler.Functional`), nothing of it shows: a
request gives what it gives on a new binding with the same seeds, whatever was requested before
(`Compiler.request_eq_fresh`).

`Compiler.settled` says what is known of a property without memory and without a chain of properties
that wait: after `n` rounds, what follows from the seeds and from what was known a round earlier. A
property on a cycle is never settled. A settled property has its answer under every chain of
properties that are settled later or never (`Compiler.answers_of_settled`), so an answer that was
recorded under one chain serves under another; properties that are never settled are never recorded.
-/

namespace Bindery

open Resolving Compiler

abbrev Answer := Except Fault Artifact

def Fault.isCycle : Fault → Bool
  | .error e => e.isProblem .cycle
  | .crash _ => false

def IsCycle {α : Type} : Except Fault α → Bool
  | .error e => e.isCycle
  | .ok _ => false

/-- What an answer counts as for a resolver that can do without the property. -/
def Answer.forgive : Answer → Answer
  | .error (.error e) => if e.isProblem .cycle then .error (.error e) else .ok .absent
  | a => a

theorem Answer.isCycle_forgive (a : Answer) : IsCycle a.forgive = IsCycle a := by
  unfold forgive
  split
  · rename_i e
    split
    · rfl
    · rename_i he
      simpa [IsCycle, Fault.isCycle] using he
  · rfl

/-! ## What follows from what is known -/

/-- The values of properties in order, or the first failure, as far as answers are known. -/
def collect (view : Answer → Answer) (known : Property → Option Answer) :
    List Property → Option (Except Fault (List Artifact))
  | [] => some (.ok [])
  | p :: ps => match (known p).map view with
    | none => none
    | some (.error e) => some (.error e)
    | some (.ok v) => (collect view known ps).map (Except.map (v :: ·))

/-- What the function `f` of a resolver gives, as far as it follows from known answers. -/
def combine (r : Resolver) (f : List Artifact → Answer) (known : Property → Option Answer) :
    Option Answer :=
  match collect id known r.deps with
  | none => none
  | some (.error e) => some (.error e)
  | some (.ok needed) => match collect Answer.forgive known r.optional with
    | none => none
    | some (.error e) => some (.error e)
    | some (.ok others) => some (f (needed ++ others))

/-- What is known in one answer is known in the other. -/
def Below (known known' : Property → Option Answer) : Prop :=
  ∀ p a, known p = some a → known' p = some a

section Combine

variable {known known' : Property → Option Answer} {view : Answer → Answer} {ps : List Property}
  {r : Resolver} {f : List Artifact → Answer} {a : Answer}

theorem collect_cons_eq_some {p : Property} {res : Except Fault (List Artifact)} :
    collect view known (p :: ps) = some res ↔ ∃ a, known p = some a ∧
      ((∃ e, view a = .error e ∧ res = .error e) ∨ ∃ v rest, view a = .ok v ∧
        collect view known ps = some rest ∧ res = rest.map (v :: ·)) := by
  cases hp : known p with
  | none => simp [collect, hp]
  | some a => cases hv : view a <;> simp [collect, hp, hv, eq_comm]

theorem collect_mono (h : Below known known') {res : Except Fault (List Artifact)}
    (hres : collect view known ps = some res) : collect view known' ps = some res := by
  induction ps generalizing res with
  | nil => exact hres
  | cons p ps ih =>
    rw [collect_cons_eq_some] at hres ⊢
    obtain ⟨a, ha, he | ⟨v, rest, hv, hrest, rfl⟩⟩ := hres
    · exact ⟨a, h p a ha, .inl he⟩
    · exact ⟨a, h p a ha, .inr ⟨v, rest, hv, ih hrest, rfl⟩⟩

theorem combine_eq_some : combine r f known = some a ↔
    (∃ e, collect id known r.deps = some (.error e) ∧ a = .error e) ∨
    ∃ needed, collect id known r.deps = some (.ok needed) ∧
      ((∃ e, collect Answer.forgive known r.optional = some (.error e) ∧ a = .error e) ∨
      ∃ others, collect Answer.forgive known r.optional = some (.ok others) ∧
        a = f (needed ++ others)) := by
  unfold combine
  rcases collect id known r.deps with _ | _ | needed
  · simp
  · simp [eq_comm]
  · rcases collect Answer.forgive known r.optional with _ | _ | others <;> simp [eq_comm]

theorem combine_mono (h : Below known known') (ha : combine r f known = some a) :
    combine r f known' = some a := by
  rw [combine_eq_some] at ha ⊢
  obtain ⟨e, he, rfl⟩ | ⟨needed, hneeded, ⟨e, he, rfl⟩ | ⟨others, hothers, rfl⟩⟩ := ha
  · exact .inl ⟨e, collect_mono h he, rfl⟩
  · exact .inr ⟨needed, collect_mono h hneeded, .inl ⟨e, collect_mono h he, rfl⟩⟩
  · exact .inr ⟨needed, collect_mono h hneeded, .inr ⟨others, collect_mono h hothers, rfl⟩⟩

/-- The function `f` of a resolver on the answers to its requests, or the first failure among those
that it needs. -/
def fromAnswers (r : Resolver) (f : List Artifact → Answer) (answer : Property → Answer) :
    Answer := do
  let needed ← r.deps.mapM answer
  let others ← r.optional.mapM fun p => (answer p).forgive
  f (needed ++ others)

theorem collect_some (view : Answer → Answer) (answer : Property → Answer) (ps : List Property) :
    collect view (fun p => some (answer p)) ps = some (ps.mapM fun p => view (answer p)) := by
  induction ps with
  | nil => rfl
  | cons p ps ih =>
    rw [collect, ih, List.mapM_cons, Option.map_some]
    cases view (answer p) with
    | error e => rfl
    | ok v => cases ps.mapM fun p => view (answer p) <;> rfl

theorem combine_some (r : Resolver) (f : List Artifact → Answer) (answer : Property → Answer) :
    combine r f (fun p => some (answer p)) = some (fromAnswers r f answer) := by
  simp only [combine, fromAnswers, collect_some, id]
  cases r.deps.mapM answer with
  | error e => rfl
  | ok needed => cases r.optional.mapM fun p => (answer p).forgive <;> rfl

end Combine

/-! ## Properties that settle -/

abbrev Resolver.Function := Binding → Resolving Artifact → List Artifact → Resolving Artifact

variable (f : List Artifact → Answer)

/-- The function of a resolver that computes a value from values and does nothing else. -/
def Resolver.ofValues : Resolver.Function :=
  fun _ _ args => Resolver.pure.liftExcept (f args)

/-- What the function of a resolver makes of values, were it asked in an empty workspace. -/
def Resolver.onValues (run : Resolver.Function) (args : List Artifact) : Answer :=
  ((run ⟨0⟩ (throw .misfit) args).run.run {}).1

theorem Resolver.run_ofValues (b : Binding) (ask : Resolving Artifact)
    (args : List Artifact) (w : Workspace) : (ofValues f b ask args).run.run w = (f args, w) := by
  unfold ofValues pure.liftExcept
  cases f args <;> rfl

theorem Resolver.onValues_ofValues : onValues (ofValues f) = f := by
  funext args
  rw [onValues, run_ofValues]

namespace Compiler

/-- All resolvers compute values from values and do nothing else. -/
def Functional (c : Compiler) : Prop :=
  ∀ p r run, c.resolver? p = some r → r.run = some run → ∃ f, run = Resolver.ofValues f

/-- What follows about a property from the seeds and from what is known of other properties. -/
def infer (c : Compiler) (seeds : Memo) (known : Property → Option Answer) (p : Property) :
    Option Answer :=
  match seeds.lookup p with
  | some k => some (remembered k)
  | none => match c.function? p with
    | none => some (.error (.error (getWithin.unresolved p)))
    | some (r, run) => combine r (Resolver.onValues run) known

/-- What is known of a property after a number of rounds. -/
def settled (c : Compiler) (seeds : Memo) : Nat → Property → Option Answer
  | 0, _ => none
  | n + 1, p => c.infer seeds (c.settled seeds n) p

variable {c : Compiler} {seeds : Memo} {n m : Nat} {p : Property} {a a' : Answer}
  {known : Property → Option Answer}

theorem infer_mono {known' : Property → Option Answer} (h : Below known known') :
    Below (c.infer seeds known) (c.infer seeds known') := by
  intro p a ha
  unfold infer at ha ⊢
  split
  · rename_i k hk
    simpa only [hk] using ha
  · rename_i hk
    simp only [hk] at ha
    split
    · rename_i hf
      simpa only [hf] using ha
    · rename_i r run hf
      simp only [hf] at ha
      exact combine_mono h ha

theorem settled_succ (n : Nat) : Below (c.settled seeds n) (c.settled seeds (n + 1)) := by
  induction n with
  | zero => exact fun _ _ h => nomatch h
  | succ n ih => exact infer_mono ih

theorem settled_le (h : n ≤ m) : Below (c.settled seeds n) (c.settled seeds m) := by
  induction h with
  | refl => exact fun _ _ h => h
  | step _ ih => exact fun p a ha => settled_succ _ p a (ih p a ha)

theorem settled_unique (h : c.settled seeds n p = some a) (h' : c.settled seeds m p = some a') :
    a = a' := by
  have hn := settled_le (Nat.le_max_left n m) p a h
  have hm := settled_le (Nat.le_max_right n m) p a' h'
  exact Option.some.inj (hn.symm.trans hm)

/-- If answers other than failures for lack of an order are settled, so are lists of such values. -/
theorem collect_settled {view : Answer → Answer} (hview : ∀ a, IsCycle (view a) = IsCycle a)
    (hknown : ∀ p a, known p = some a → IsCycle a = false → ∃ n, c.settled seeds n p = some a)
    {ps : List Property} {res : Except Fault (List Artifact)}
    (hres : collect view known ps = some res) (hcycle : IsCycle res = false) :
    ∃ n, collect view (c.settled seeds n) ps = some res := by
  induction ps generalizing res with
  | nil => exact ⟨0, hres⟩
  | cons p ps ih =>
    simp only [collect_cons_eq_some] at hres ⊢
    obtain ⟨a, ha, ⟨e, hv, rfl⟩ | ⟨v, rest, hv, hrest, rfl⟩⟩ := hres
    · obtain ⟨n, hn⟩ := hknown p a ha (by rw [← hview, hv]; exact hcycle)
      exact ⟨n, a, hn, .inl ⟨e, hv, rfl⟩⟩
    · obtain ⟨n, hn⟩ := hknown p a ha (by rw [← hview, hv]; rfl)
      obtain ⟨m, hm⟩ := ih hrest (by cases rest <;> exact hcycle)
      exact ⟨max n m, a, settled_le (Nat.le_max_left n m) p a hn,
        .inr ⟨v, rest, hv, collect_mono (settled_le (Nat.le_max_right n m)) hm, rfl⟩⟩

theorem combine_settled {r : Resolver} {f : List Artifact → Answer}
    (hknown : ∀ p a, known p = some a → IsCycle a = false → ∃ n, c.settled seeds n p = some a)
    (ha : combine r f known = some a) (hcycle : IsCycle a = false) :
    ∃ n, combine r f (c.settled seeds n) = some a := by
  simp only [combine_eq_some] at ha ⊢
  obtain ⟨e, he, rfl⟩ | ⟨needed, hneeded, hothers⟩ := ha
  · obtain ⟨n, hn⟩ := collect_settled (fun _ => rfl) hknown he hcycle
    exact ⟨n, .inl ⟨e, hn, rfl⟩⟩
  · obtain ⟨n, hn⟩ := collect_settled (fun _ => rfl) hknown hneeded rfl
    obtain ⟨e, he, rfl⟩ | ⟨others, hothers, rfl⟩ := hothers
    · obtain ⟨m, hm⟩ := collect_settled Answer.isCycle_forgive hknown he hcycle
      exact ⟨max n m, .inr ⟨needed, collect_mono (settled_le (Nat.le_max_left n m)) hn,
        .inl ⟨e, collect_mono (settled_le (Nat.le_max_right n m)) hm, rfl⟩⟩⟩
    · obtain ⟨m, hm⟩ := collect_settled Answer.isCycle_forgive hknown hothers rfl
      exact ⟨max n m, .inr ⟨needed, collect_mono (settled_le (Nat.le_max_left n m)) hn,
        .inr ⟨others, collect_mono (settled_le (Nat.le_max_right n m)) hm, rfl⟩⟩⟩

end Compiler

/-! ## Steps with one outcome -/

/-- From every workspace with the property `I`, the step has the outcome `o` and leaves such a
workspace behind. -/
def Answers {α : Type} (I : Workspace → Prop) (step : Resolving α) (o : Except Fault α) : Prop :=
  ∀ w, I w → ∃ w', step.run.run w = (o, w') ∧ I w'

namespace Answers

variable {α β : Type} {I : Workspace → Prop} {step : Resolving α} {f : α → Resolving β}

theorem pure (a : α) : Answers I (Pure.pure a) (.ok a) := fun w hw => ⟨w, rfl, hw⟩

theorem bind {a : α} {o : Except Fault β} (h : Answers I step (.ok a)) (hf : Answers I (f a) o) :
    Answers I (step >>= f) o := by
  intro w hw
  obtain ⟨w', hrun, hw'⟩ := h w hw
  rw [run_bind_ok hrun]
  exact hf w' hw'

theorem bind_error {e : Fault} (h : Answers I step (.error e)) :
    Answers I (step >>= f) (.error e) := by
  intro w hw
  obtain ⟨w', hrun, hw'⟩ := h w hw
  exact ⟨w', run_bind_error hrun, hw'⟩

theorem attempt {o : Except Fault α} (h : Answers I step o) : Answers I (attempt step) (match o with
      | .ok a => .ok (.ok a)
      | .error (.error e) => .ok (.error e)
      | .error (.crash t) => .error (.crash t)) := by
  intro w hw
  obtain ⟨w', hrun, hw'⟩ := h w hw
  refine ⟨w', ?_, hw'⟩
  rw [run_attempt, hrun]
  rcases o with (_ | _) | _ <;> rfl

variable {ask : Property → Resolving Artifact} {known : Property → Option Answer}

section Requests

variable (hask : ∀ p a, known p = some a → Answers I (ask p) a) {ps : List Property}
  {res : Except Fault (List Artifact)}

include hask

theorem required (hres : collect id known ps = some res) :
    Answers I (Compiler.required ask ps) res := by
  induction ps generalizing res with
  | nil =>
    obtain rfl := Option.some.inj hres
    exact .pure _
  | cons p ps ih =>
    rw [Compiler.required]
    obtain ⟨a, ha, ⟨e, hv, rfl⟩ | ⟨v, rest, hv, hrest, rfl⟩⟩ := collect_cons_eq_some.1 hres <;>
      obtain rfl := hv
    · exact (hask p _ ha).bind_error
    · refine (hask p _ ha).bind ?_
      cases rest with
      | error e => exact (ih hrest).bind_error
      | ok vs => exact (ih hrest).bind (.pure _)

theorem optional (hres : collect Answer.forgive known ps = some res) :
    Answers I (Compiler.optional ask ps) res := by
  induction ps generalizing res with
  | nil =>
    obtain rfl := Option.some.inj hres
    exact .pure _
  | cons p ps ih =>
    cases hp : known p with
    | none => simp [collect, hp] at hres
    | some a =>
      have hanswers := hask p a hp
      simp only [collect, hp, Option.map_some] at hres
      rw [Compiler.optional]
      have rest {v : Artifact} {res : Except Fault (List Artifact)}
          (hres : (collect Answer.forgive known ps).map (Except.map (v :: ·)) = some res) :
          Answers I (do return v :: (← Compiler.optional ask ps)) res := by
        obtain ⟨rest, hrest, rfl⟩ := Option.map_eq_some_iff.1 hres
        cases rest with
        | error e => exact (ih hrest).bind_error
        | ok vs => exact (ih hrest).bind (.pure _)
      match a, hanswers, hres with
      | .ok v, hanswers, hres => exact hanswers.attempt.bind (rest hres)
      | .error (.crash t), hanswers, hres =>
        obtain rfl := Option.some.inj hres
        exact hanswers.attempt.bind_error
      | .error (.error e), hanswers, hres =>
        refine hanswers.attempt.bind ?_
        cases he : e.isProblem .cycle with
        | true =>
          simp only [Answer.forgive, he, if_true] at hres ⊢
          obtain rfl := Option.some.inj hres
          exact fun w hw => ⟨w, rfl, hw⟩
        | false =>
          simp only [Answer.forgive, he, Bool.false_eq_true, if_false] at hres ⊢
          exact rest hres

end Requests

theorem compute {c : Compiler} {b : Binding} {n : Nat} {chain : List Property} {r : Resolver}
    {f : List Artifact → Answer} {a : Answer}
    (hask : ∀ p a, known p = some a → Answers I (c.getWithin b n chain p) a)
    (ha : combine r f known = some a) :
    Answers I (c.compute b n chain r (Resolver.ofValues f)) a := by
  rw [combine_eq_some] at ha
  unfold Compiler.compute
  obtain ⟨e, he, rfl⟩ | ⟨needed, hneeded, ⟨e, he, rfl⟩ | ⟨others, hothers, rfl⟩⟩ := ha
  · exact (required hask he).bind_error
  · exact (required hask hneeded).bind (optional hask he).bind_error
  · refine (required hask hneeded).bind ((optional hask hothers).bind fun w hw => ?_)
    exact ⟨w, Resolver.run_ofValues .., hw⟩

end Answers

/-! ## Requests -/

theorem Property.mem_all (p : Property) : p ∈ all := by cases p <;> decide

namespace Compiler

variable {c : Compiler} {seeds : Memo} {b : Binding} {k n : Nat} {chain : List Property}
  {p : Property} {a : Answer}

/-- The binding has its seeds, and everything else that it remembers was computed and is settled. -/
structure Remembers (c : Compiler) (seeds : Memo) (b : Binding) (w : Workspace) : Prop where
  inBounds : b.number < w.memos.size
  seeded : ∀ p k, seeds.lookup p = some k → w.known? b p = some k
  sound : ∀ p k, w.known? b p = some k →
    Lasts k ∧ ∃ n, c.settled seeds n p = some (remembered k)
  computed : ∀ p k, w.known? b p = some k → seeds.lookup p = none → (c.function? p).isSome

/-- There is room for the properties that may still have to wait. -/
structure Ample (k : Nat) (chain : List Property) : Prop where
  nodup : chain.Nodup
  room : Property.all.length < k + chain.length

theorem Ample.pos (h : Ample k chain) : 0 < k := by
  have hlen : chain.length ≤ Property.all.length :=
    (List.subperm_of_subset h.nodup fun p _ => p.mem_all).length_le
  have := h.room
  omega

theorem Ample.cons (h : Ample (k + 1) chain) (hp : p ∉ chain) : Ample k (p :: chain) := by
  refine ⟨List.nodup_cons.2 ⟨hp, h.nodup⟩, ?_⟩
  have := h.room
  rw [List.length_cons]
  omega

theorem isCycle_remembered (o : Except Error Artifact) : IsCycle (remembered o) = !Lasts o := by
  cases o with
  | ok v => rfl
  | error e => simp [remembered, IsCycle, Fault.isCycle, Lasts]

theorem Remembers.record {w : Workspace} (hw : c.Remembers seeds b w) (hk : w.known? b p = none)
    (hf : (c.function? p).isSome) {o : Except Error Artifact} (hlasts : Lasts o)
    (hsettled : ∃ n, c.settled seeds n p = some (remembered o)) :
    c.Remembers seeds b (w.record b p o) := by
  refine ⟨by rw [Workspace.size_record]; exact hw.inBounds, fun q k hq => ?_, fun q k hq => ?_,
    fun q k hq hseed => ?_⟩
  · have hne : q ≠ p := by
      rintro rfl
      rw [hw.seeded q k hq] at hk
      cases hk
    rw [Workspace.known_record hw.inBounds, if_neg hne, hw.seeded q k hq]
  · rw [Workspace.known_record hw.inBounds] at hq
    split at hq
    · rename_i hqp
      obtain rfl := Option.some.inj hq
      exact ⟨hlasts, hqp ▸ hsettled⟩
    · exact hw.sound q k hq
  · rw [Workspace.known_record hw.inBounds] at hq
    split at hq
    · rename_i hqp
      exact hqp ▸ hf
    · exact hw.computed q k hq hseed

theorem answers_settle (hf : (c.function? p).isSome) {o : Except Error Artifact}
    (hagree : ∀ n a, c.settled seeds n p = some a → a = remembered o)
    (hsettled : IsCycle (remembered o) = false → ∃ n, c.settled seeds n p = some (remembered o)) :
    Answers (c.Remembers seeds b) (settle b p o) (remembered o) := by
  intro w hw
  rw [run_settle]
  cases hk : w.known? b p with
  | some o' =>
    obtain ⟨n, hn⟩ := (hw.sound p o' hk).2
    exact ⟨w, by simp only [hagree n _ hn], hw⟩
  | none =>
    cases hlasts : Lasts o with
    | true =>
      have hcycle : IsCycle (remembered o) = false := by rw [isCycle_remembered, hlasts]; rfl
      exact ⟨_, rfl, hw.record hk hf hlasts (hsettled hcycle)⟩
    | false => exact ⟨_, rfl, hw⟩

/-- A property that settles only at `a` has this answer, if it has it where it is not yet known. -/
theorem answers_of_unknown (hagree : ∀ n a', c.settled seeds n p = some a' → a' = a)
    (hrun : ∀ w, c.Remembers seeds b w → w.known? b p = none →
      ∃ w', (c.getWithin b (k + 1) chain p).run.run w = (a, w') ∧ c.Remembers seeds b w') :
    Answers (c.Remembers seeds b) (c.getWithin b (k + 1) chain p) a := by
  intro w hw
  cases hk : w.known? b p with
  | some o =>
    obtain ⟨n, hn⟩ := (hw.sound p o hk).2
    exact ⟨w, by rw [getWithin_known hk, hagree n _ hn], hw⟩
  | none => exact hrun w hw hk

/-- A property that is computed, and settles only at what its resolver gives, has that answer. -/
theorem answers_of_compute (hp : p ∉ chain) {r : Resolver} {run : Resolver.Function}
    (hf : c.function? p = some (r, run))
    (hcompute : Answers (c.Remembers seeds b) (c.compute b k (p :: chain) r run) a)
    (hagree : ∀ n a', c.settled seeds n p = some a' → a' = a)
    (hsettled : IsCycle a = false → ∃ n, c.settled seeds n p = some a) :
    Answers (c.Remembers seeds b) (c.getWithin b (k + 1) chain p) a := by
  have hsome : (c.function? p).isSome := by rw [hf]; rfl
  have hstep : Answers (c.Remembers seeds b)
      (attempt (c.compute b k (p :: chain) r run) >>= settle b p) a := by
    match a, hcompute, hagree, hsettled with
    | .ok v, hcompute, hagree, hsettled =>
      exact hcompute.attempt.bind (answers_settle hsome (o := .ok v) hagree hsettled)
    | .error (.error e), hcompute, hagree, hsettled =>
      exact hcompute.attempt.bind (answers_settle hsome (o := .error e) hagree hsettled)
    | .error (.crash t), hcompute, _, _ => exact hcompute.attempt.bind_error
  refine answers_of_unknown hagree fun w hw hk => ?_
  obtain ⟨trace, htrace⟩ := getWithin_computed (c := c) (n := k) hk hp hf
  rw [htrace]
  exact hstep { w with trace } ⟨hw.inBounds, hw.seeded, hw.sound, hw.computed⟩

/-- A settled property has its answer, if the properties that wait for it settle later or never. -/
theorem answers_of_settled (hc : c.Functional) (h : c.settled seeds n p = some a)
    (hk : Ample k chain) (hchain : ∀ q ∈ chain, c.settled seeds n q = none) (b : Binding) :
    Answers (c.Remembers seeds b) (c.getWithin b k chain p) a := by
  induction n generalizing p a k chain with
  | zero => cases h
  | succ n ih =>
    have hchain' : ∀ q ∈ chain, c.settled seeds n q = none := by
      intro q hq
      cases hn : c.settled seeds n q with
      | none => rfl
      | some a' => rw [← hchain q hq, settled_succ n q a' hn]
    obtain ⟨k, rfl⟩ : ∃ k', k = k' + 1 := ⟨k - 1, by have := hk.pos; omega⟩
    have hp : p ∉ chain := fun hp => by rw [hchain p hp] at h; cases h
    have hagree : ∀ m a', c.settled seeds m p = some a' → a' = a :=
      fun m a' ha' => settled_unique ha' h
    cases hn : c.settled seeds n p with
    | some a' =>
      obtain rfl := hagree n a' hn
      exact ih hn hk hchain'
    | none =>
      -- The property settles in this round: what it asks for settled before, and it did not.
      have hround := h
      rw [settled, infer] at hround
      split at hround
      · rename_i o hseed
        refine answers_of_unknown hagree fun w hw hk => ?_
        rw [hw.seeded p o hseed] at hk
        cases hk
      · split at hround
        · rename_i hf
          obtain rfl := Option.some.inj hround
          exact answers_of_unknown hagree fun w hw hk => ⟨w, getWithin_unresolved hk hp hf, hw⟩
        · rename_i r run hf
          obtain ⟨hr, hrun⟩ := function?_eq_some.1 hf
          obtain ⟨f, rfl⟩ := hc p r run hr hrun
          rw [Resolver.onValues_ofValues] at hround
          refine answers_of_compute hp hf (.compute (fun q a' ha' => ?_) hround) hagree
            fun _ => ⟨n + 1, h⟩
          refine ih ha' (hk.cons hp) fun q' hq' => ?_
          rcases List.mem_cons.1 hq' with rfl | hq'
          · exact hn
          · exact hchain' q' hq'

/-- Under a chain of properties that never settle, a request has one answer, and the property
settles at it unless it is a failure for lack of an order. -/
theorem exists_answers (hc : c.Functional) (hk : Ample k chain)
    (hchain : ∀ q ∈ chain, ∀ n, c.settled seeds n q = none) (p : Property) :
    ∃ a, (∀ b, Answers (c.Remembers seeds b) (c.getWithin b k chain p) a) ∧
      (IsCycle a = false → ∃ n, c.settled seeds n p = some a) := by
  induction k generalizing chain p with
  | zero => exact absurd hk.pos (by omega)
  | succ k ih =>
    by_cases hsettled : ∃ n a, c.settled seeds n p = some a
    · obtain ⟨n, a, h⟩ := hsettled
      exact ⟨a, answers_of_settled hc h hk fun q hq => hchain q hq n, fun _ => ⟨n, h⟩⟩
    have hnever : ∀ n, c.settled seeds n p = none := by
      intro n
      cases hn : c.settled seeds n p with
      | none => rfl
      | some a => exact absurd ⟨n, a, hn⟩ hsettled
    have hagree (a : Answer) : ∀ n a', c.settled seeds n p = some a' → a' = a := by
      intro n a' ha'
      rw [hnever n] at ha'
      cases ha'
    by_cases hp : p ∈ chain
    · exact ⟨_, fun b => answers_of_unknown (hagree _) fun w hw hk =>
        ⟨w, getWithin_cycle hk hp, hw⟩, fun h => nomatch h⟩
    have hseed : seeds.lookup p = none := by
      have h := hnever 1
      rw [settled, infer] at h
      split at h
      · cases h
      · assumption
    cases hf : c.function? p with
    | none =>
      have h := hnever 1
      rw [settled, infer, hseed, hf] at h
      cases h
    | some rule =>
      obtain ⟨r, run⟩ := rule
      obtain ⟨hr, hrun⟩ := function?_eq_some.1 hf
      obtain ⟨f, rfl⟩ := hc p r run hr hrun
      have hchain' : ∀ q ∈ p :: chain, ∀ n, c.settled seeds n q = none := by
        intro q hq
        rcases List.mem_cons.1 hq with rfl | hq
        · exact hnever
        · exact hchain q hq
      choose answer hanswers hanswer using fun q => ih (hk.cons hp) hchain' q
      obtain ⟨a, ha⟩ : ∃ a, combine r f (fun q => some (answer q)) = some a :=
        ⟨_, combine_some r f answer⟩
      have hsettles : IsCycle a = false → ∃ n, c.settled seeds n p = some a := by
        intro hcycle
        have hknown : ∀ q a', some (answer q) = some a' → IsCycle a' = false →
            ∃ n, c.settled seeds n q = some a' := by
          rintro q _ ⟨⟩
          exact hanswer q
        obtain ⟨n, hn⟩ := combine_settled hknown ha hcycle
        refine ⟨n + 1, ?_⟩
        rw [settled, infer, hseed, hf]
        simpa only [Resolver.onValues_ofValues] using hn
      refine ⟨a, fun b => answers_of_compute hp hf (.compute (fun q a' ha' => ?_) ha) (hagree a)
        hsettles, hsettles⟩
      obtain rfl := Option.some.inj ha'
      exact hanswers q b

/-! ## New bindings -/

/-- The answer to a request on a new binding with the given seeds. -/
def fresh (c : Compiler) (seeds : Memo) (w : Workspace) (p : Property) : Answer :=
  ((c.request (w.add seeds).1 p).run.run (w.add seeds).2).1

def afterRequests (c : Compiler) (b : Binding) : List Property → Workspace → Workspace
  | [], w => w
  | p :: ps, w => c.afterRequests b ps ((c.request b p).run.run w).2

def CrashFree (c : Compiler) : Prop :=
  ∀ p r f, c.resolver? p = some r → r.run = some (Resolver.ofValues f) →
    ∀ args t, f args ≠ .error (.crash t)

theorem known_of_collect {known : Property → Option Answer} {view : Answer → Answer}
    {ps : List Property} {e : Fault} (h : collect view known ps = some (.error e)) :
    ∃ p a, known p = some a ∧ view a = .error e := by
  induction ps with
  | nil => cases h
  | cons p ps ih =>
    obtain ⟨a, ha, ⟨e', hv, he⟩ | ⟨v, rest, -, hrest, hmap⟩⟩ := collect_cons_eq_some.1 h
    · cases he
      exact ⟨p, a, ha, hv⟩
    · cases rest with
      | error e' => exact ih (hrest.trans (congrArg some hmap.symm))
      | ok vs => cases hmap

theorem settled_ne_crash (hc : c.Functional) (hcrash : c.CrashFree) (t : Option Text) :
    c.settled seeds n p ≠ some (.error (.crash t)) := by
  induction n generalizing p with
  | zero => exact fun h => nomatch h
  | succ n ih =>
    intro h
    rw [settled, infer] at h
    split at h
    · rename_i o _
      cases o <;> cases h
    split at h
    · cases h
    rename_i r run hf
    obtain ⟨hr, hrun⟩ := function?_eq_some.1 hf
    obtain ⟨f, rfl⟩ := hc p r run hr hrun
    rw [Resolver.onValues_ofValues, combine_eq_some] at h
    obtain ⟨e, he, ha⟩ | ⟨needed, -, ⟨e, he, ha⟩ | ⟨others, -, ha⟩⟩ := h
    · obtain rfl := Except.error.inj ha
      obtain ⟨q, a, hq, rfl⟩ := known_of_collect he
      exact ih hq
    · obtain rfl := Except.error.inj ha
      obtain ⟨q, a, hq, hforgive⟩ := known_of_collect he
      obtain rfl : a = .error (.crash t) := by
        unfold Answer.forgive at hforgive
        split at hforgive
        · split at hforgive <;> cases hforgive
        · exact hforgive
      exact ih hq
    · exact hcrash p r f hr hrun _ _ ha.symm

theorem remembers_add (hseeds : ∀ e ∈ seeds, ∃ v, e.2 = .ok v) (w : Workspace) :
    c.Remembers seeds (w.add seeds).1 (w.add seeds).2 where
  inBounds := by simp [Workspace.add]
  seeded p k hk := by rwa [Workspace.known?, Workspace.memo_add]
  sound p k hk := by
    rw [Workspace.known?, Workspace.memo_add] at hk
    obtain ⟨before, after, heq, -⟩ := List.lookup_eq_some_iff.1 hk
    obtain ⟨v, rfl⟩ := hseeds (p, k) (by simp [heq])
    exact ⟨rfl, 1, by rw [settled, infer, hk]⟩
  computed p k hk hseed := by
    rw [Workspace.known?, Workspace.memo_add, hseed] at hk
    cases hk

theorem ample_nil : Ample (Property.all.length + 1) [] := ⟨List.nodup_nil, by simp⟩

theorem exists_request (hc : c.Functional) (seeds : Memo) (p : Property) :
    ∃ a, (∀ b, Answers (c.Remembers seeds b) (c.request b p) a) ∧
      (IsCycle a = false → ∃ n, c.settled seeds n p = some a) :=
  exists_answers hc ample_nil (fun _ hq => nomatch hq) p

theorem remembers_afterRequests (hc : c.Functional) (ps : List Property) {w : Workspace}
    (hw : c.Remembers seeds b w) : c.Remembers seeds b (c.afterRequests b ps w) := by
  induction ps generalizing w with
  | nil => exact hw
  | cons p ps ih =>
    obtain ⟨a, ha, -⟩ := exists_request hc seeds p
    obtain ⟨w', hrun, hw'⟩ := ha b w hw
    rw [afterRequests, hrun]
    exact ih hw'

theorem fresh_eq (hseeds : ∀ e ∈ seeds, ∃ v, e.2 = .ok v) (w : Workspace)
    (ha : ∀ b, Answers (c.Remembers seeds b) (c.request b p) a) : c.fresh seeds w p = a := by
  obtain ⟨w', hrun, -⟩ := ha _ _ (remembers_add hseeds w)
  rw [fresh, hrun]

/-- Requests on one binding, in any sequence, give what they give on a new binding with the same
seeds; without crashes in resolvers they end in a value or an error. No failure for lack of an order
is remembered, and what is remembered beyond the seeds is what the function of the resolver makes of
the answers to its requests, or the failure of the first of those that it needs. -/
theorem request_eq_fresh (hc : c.Functional) (hseeds : ∀ e ∈ seeds, ∃ v, e.2 = .ok v)
    (w : Workspace) (ps : List Property) :
    (∀ p w₀, ((c.request (w.add seeds).1 p).run.run
      (c.afterRequests (w.add seeds).1 ps (w.add seeds).2)).1 = c.fresh seeds w₀ p) ∧
    (c.CrashFree → ∀ p t, c.fresh seeds w p ≠ .error (.crash t)) ∧
    ∀ q k, (c.afterRequests (w.add seeds).1 ps (w.add seeds).2).known? (w.add seeds).1 q = some k →
      (∀ e, k = .error e → e.isProblem .cycle = false) ∧
      (seeds.lookup q = none → ∃ r f, c.resolver? q = some r ∧ r.run = some (Resolver.ofValues f) ∧
        remembered k = fromAnswers r f (c.fresh seeds w)) := by
  have hlater := remembers_afterRequests hc ps (remembers_add (c := c) hseeds w)
  refine ⟨fun p w₀ => ?_, fun hcrash p t h => ?_, fun q k hk => ⟨?_, fun hseed => ?_⟩⟩
  · obtain ⟨a, ha, -⟩ := exists_request hc seeds p
    obtain ⟨w', hrun, -⟩ := ha _ _ hlater
    rw [hrun, fresh_eq hseeds w₀ ha]
  · obtain ⟨a, ha, hsettled⟩ := exists_request hc seeds p
    obtain rfl : a = .error (.crash t) := (fresh_eq hseeds w ha).symm.trans h
    obtain ⟨n, hn⟩ := hsettled rfl
    exact settled_ne_crash hc hcrash t hn
  · rintro e rfl
    simpa [Lasts] using (hlater.sound q _ hk).1
  · obtain ⟨⟨r, run⟩, hf⟩ := Option.isSome_iff_exists.1 (hlater.computed q k hk hseed)
    obtain ⟨hr, hrun⟩ := function?_eq_some.1 hf
    obtain ⟨f, rfl⟩ := hc q r run hr hrun
    refine ⟨r, f, hr, hrun, ?_⟩
    obtain ⟨n, hn⟩ := (hlater.sound q k hk).2
    cases n with
    | zero => cases hn
    | succ n =>
      rw [settled, infer, hseed, hf] at hn
      simp only [Resolver.onValues_ofValues] at hn
      have hbelow : Below (c.settled seeds n) fun p => some (c.fresh seeds w p) := by
        intro p a ha
        have hanswers := answers_of_settled hc ha ample_nil fun _ hq => by cases hq
        exact congrArg some (fresh_eq hseeds w hanswers)
      exact Option.some.inj ((combine_mono hbelow hn).symm.trans (combine_some r f _))

/-! ### A table with a cycle -/

namespace Knotted

def firstOf : List Artifact → Answer
  | v :: _ => .ok v
  | [] => .error (.error (.of .shape "no value"))

def first (deps optional : List Property) : Resolver where
  deps
  optional
  run := some (Resolver.ofValues firstOf)

/-- The result type and the converted expression wait for each other, the index waits for a property
that nothing computes, and the identity can do without the index. -/
def compiler : Compiler where
  types := .initial
  resolvers := [
    (.resultType, first [.castedExpression] []),
    (.castedExpression, first [.expectedType] [.resultType]),
    (.siblingIndex, first [.treeRoot] []),
    (.id, first [] [.siblingIndex])]

def input : Input := { code := "Title", expectedType := some .int }

theorem functional : compiler.Functional := by
  intro p r run hr hrun
  obtain ⟨before, after, heq, -⟩ := List.lookup_eq_some_iff.1 hr
  have hmem : (p, r) ∈ compiler.resolvers := by rw [heq]; simp
  simp only [compiler, List.mem_cons, Prod.mk.injEq, List.not_mem_nil, or_false] at hmem
  obtain ⟨-, rfl⟩ | ⟨-, rfl⟩ | ⟨-, rfl⟩ | ⟨-, rfl⟩ := hmem <;>
    exact ⟨firstOf, (Option.some.inj hrun).symm⟩

theorem seeds_ok : ∀ e ∈ input.memo, ∃ v, e.2 = .ok v := by
  intro e he
  have hmemo : input.memo =
    [(.originalString, .ok (.text "Title")), (.expectedType, .ok (.type .int))] := rfl
  rw [hmemo] at he
  simp only [List.mem_cons, List.not_mem_nil, or_false] at he
  obtain rfl | rfl := he
  · exact ⟨_, rfl⟩
  · exact ⟨_, rfl⟩

end Knotted

/-- The cycle shows as on a new binding, though requests before met it from another property, and
the failure of the index is remembered. -/
theorem request_eq_fresh_knotted : let c := Knotted.compiler
    let b := (Workspace.add {} Knotted.input.memo).1
    let later := c.afterRequests b [.resultType, .id] (Workspace.add {} Knotted.input.memo).2
    c.Functional ∧ (∀ e ∈ Knotted.input.memo, ∃ v, e.2 = .ok v) ∧
      ((c.request b .castedExpression).run.run later).1 =
        .error (.error (cycleError [.resultType, .castedExpression] .castedExpression)) ∧
      later.known? b .castedExpression = none ∧
      later.known? b .siblingIndex = some (.error (getWithin.unresolved .treeRoot)) := by
  refine ⟨Knotted.functional, Knotted.seeds_ok, ?_, rfl, rfl⟩
  exact (request_eq_fresh Knotted.functional Knotted.seeds_ok {} [.resultType, .id]).1
    .castedExpression {}

end Compiler

end Bindery
