import Bindery.Proofs.HoistSimulation

/-!
# Hoisting keeps the meaning of scripts

A function body with temporaries evaluates as the one without (`Scene.body_rel`), so every script
does (`Script.simulates`), and so calls of the functions that scripts define agree at every depth
(`callWithin_rel`).
-/

namespace Bindery.Client

variable {ps : List Text} {i j : Nat} {n : Text}

/-! ## Places of temporaries -/

def bindPlaces : List Text → Nat → Env → Env
  | [], _, env => env
  | p :: ps, i, env => bindPlaces ps (i + 1) ((p, .place i) :: env)

/-- The place of a parameter; the last one of a name counts. -/
def placeOf : List Text → Nat → Text → Option Nat
  | [], _, _ => none
  | p :: ps, i, n => (placeOf ps (i + 1) n).or (if n = p then some i else none)

theorem bindParams_places {assigned : List Text} (hps : ∀ p ∈ ps, p ∈ assigned) (env : Env)
    (s : State) : (bindParams assigned ps [] env).run.run s =
      (.ok (bindPlaces ps s.vars.length env),
        { s with vars := s.vars ++ List.replicate ps.length none }) := by
  induction ps generalizing env s with
  | nil =>
    simp only [bindParams, bindPlaces, List.length_nil, List.replicate_zero, List.append_nil]
    rfl
  | cons p ps ih =>
    have hp : assigned.contains p := by simpa using hps p (by simp)
    have hrest := ih (fun q hq => hps q (by simp [hq])) ((p, .place s.vars.length) :: env)
      { s with vars := s.vars ++ [none] }
    rw [bindParams, hp, if_pos rfl, run_bind_ok (Run.alloc_run _ s)]
    simp only [List.head?_nil, List.tail_nil] at hrest ⊢
    rw [hrest]
    simp [bindPlaces, List.replicate_succ]

theorem lookup_bindPlaces (ps : List Text) (i : Nat) (env : Env) (n : Text) :
    (bindPlaces ps i env).lookup n = match placeOf ps i n with
      | some j => some (.place j)
      | none => env.lookup n := by
  induction ps generalizing i env with
  | nil => rfl
  | cons p ps ih =>
    rw [bindPlaces, ih, placeOf]
    cases placeOf ps (i + 1) n with
    | some j => rfl
    | none =>
      by_cases hn : n = p
      · simp [hn]
      · have : (n == p) = false := by simpa using hn
        simp [hn, List.lookup_cons, this]

theorem placeOf_range (h : placeOf ps i n = some j) : i ≤ j ∧ j < i + ps.length := by
  induction ps generalizing i with
  | nil => cases h
  | cons p ps ih =>
    rw [placeOf, Option.or_eq_some_iff] at h
    rw [List.length_cons]
    rcases h with h | ⟨-, h⟩
    · have := ih h
      omega
    · obtain ⟨-, rfl⟩ : n = p ∧ i = j := by simpa using h
      omega

theorem placeOf_inj {n' : Text} (h : placeOf ps i n = some j) (h' : placeOf ps i n' = some j) :
    n = n' := by
  induction ps generalizing i with
  | nil => cases h
  | cons p ps ih =>
    rw [placeOf, Option.or_eq_some_iff] at h h'
    rcases h with h | ⟨-, h⟩
    · rcases h' with h' | ⟨-, h'⟩
      · exact ih h h'
      · have := placeOf_range h
        obtain ⟨-, rfl⟩ : n' = p ∧ i = j := by simpa using h'
        omega
    · obtain ⟨rfl, rfl⟩ : n = p ∧ i = j := by simpa using h
      rcases h' with h' | ⟨-, h'⟩
      · have := placeOf_range h'
        omega
      · obtain ⟨rfl, -⟩ : n' = n ∧ i = i := by simpa using h'
        rfl

theorem placeOf_isSome (i : Nat) (h : n ∈ ps) : ∃ j, placeOf ps i n = some j := by
  induction ps generalizing i with
  | nil => cases h
  | cons p ps ih =>
    rw [placeOf]
    cases hrest : placeOf ps (i + 1) n with
    | some j => exact ⟨j, rfl⟩
    | none =>
      rcases List.mem_cons.1 h with rfl | h
      · exact ⟨i, by simp⟩
      · obtain ⟨j, hj⟩ := ih (i + 1) h
        rw [hrest] at hj
        cases hj

theorem mem_of_placeOf (h : placeOf ps i n = some j) : n ∈ ps := by
  induction ps generalizing i with
  | nil => cases h
  | cons p ps ih =>
    rw [placeOf, Option.or_eq_some_iff] at h
    rcases h with h | ⟨-, h⟩
    · exact List.mem_cons_of_mem _ (ih h)
    · obtain ⟨rfl, -⟩ : n = p ∧ i = j := by simpa using h
      exact List.mem_cons_self

end Bindery.Client

namespace Bindery.Script

open Client
open Hoisting (Formed Grows Visible)

namespace Scene

variable {c : Scene}

/-- The evaluation of a body in which the names in `kept` are introduced, from the `i`-th place
on. -/
def inside (c : Scene) (ρ η : Env) (kept : List Text) (i : Nat) : Scene :=
  { c with env := ρ, env' := bindPlaces kept i η, slot := fun t =>
      (c.names.lookup t).bind fun n => placeOf kept i n }

theorem Valid.inside {temps temps' : List Text} (hc : c.Valid temps) {ρ η : Env}
    (henv : Env.Rel c.R (NotTemp c.names) ρ η) (i : Nat) :
    (c.inside ρ η (temps'.filterMap fun t => c.names.lookup t) i).Valid temps' where
  hosts := hc.hosts
  envs n hn := by
    have hplace : placeOf (temps'.filterMap fun t => c.names.lookup t) i n = none := by
      rw [Option.eq_none_iff_forall_ne_some]
      intro j hj
      obtain ⟨t, -, ht⟩ := List.mem_filterMap.1 (mem_of_placeOf hj)
      exact hn t ht
    change SlotRel c.R _ ((bindPlaces _ i η).lookup n)
    rw [lookup_bindPlaces, hplace]
    exact henv n hn
  nonempty := hc.nonempty
  faithful := hc.faithful
  names_inj := hc.names_inj
  slot_place t j hj := by
    obtain ⟨n, hn, hplace⟩ := Option.bind_eq_some_iff.1 hj
    refine ⟨n, hn, ?_⟩
    change (bindPlaces _ i η).lookup n = _
    rw [lookup_bindPlaces, hplace]
  slot_inj t t' j hj hj' := by
    obtain ⟨n, hn, hplace⟩ := Option.bind_eq_some_iff.1 hj
    obtain ⟨n', hn', hplace'⟩ := Option.bind_eq_some_iff.1 hj'
    obtain rfl := placeOf_inj hplace hplace'
    exact hc.names_inj t t' n hn hn'
  slot_isSome t ht n hn := by
    have hmem : n ∈ temps'.filterMap fun t => c.names.lookup t := List.mem_filterMap.2 ⟨t, ht, hn⟩
    obtain ⟨j, hj⟩ := placeOf_isSome i hmem
    exact ⟨j, Option.bind_eq_some_iff.2 ⟨n, hn, hj⟩⟩

end Scene

/-- The script evaluates as before in every scene in which it is hoisted. -/
def Simulates (s : Script) : Prop :=
  ∀ (c : Scene) {temps : List Text} {b : Bool} {h h' : Hoisting} {out : Script}, c.Valid temps →
    Hoists b h s out h' → s.Clear (NotTemp c.names) → s ∈ c.whole.nodes → Formed h →
    (∀ t ∈ h.texts, ∃ rest, t.bytes = 0x28 :: rest) → h'.temps ⊆ temps →
    (∀ t ∈ out.tempReads, ∃ n, c.names.lookup t = some n) →
      c.Follows h h' (c.Pairs b s) (c.plain s) (c.tempered out)

namespace Scene

variable {c : Scene} {temps : List Text} {b out : Script} {h : Hoisting}

theorem Touches.keeps {τ τ₀ τ' : State} (ht : c.Touches temps τ₀ τ')
    (hslot : ∀ t j, c.slot t = some j → τ.vars.length ≤ j) (hvars : τ.vars <+: τ₀.vars)
    (hfresh : τ₀.fresh = τ.fresh) (hunset : τ₀.unset = τ.unset) : Keeps τ τ' where
  fresh := hfresh ▸ ht.fresh
  unset := ht.unset.trans hunset
  vars := by
    rw [List.prefix_iff_getElem?]
    intro j hj
    have hj₀ : j < τ₀.vars.length := Nat.lt_of_lt_of_le hj hvars.length_le
    rcases ht.vars j hj₀ with heq | ⟨t, -, ht⟩
    · rw [heq]
      exact List.prefix_iff_getElem?.1 hvars j hj
    · exact absurd (hslot t j ht) (Nat.not_le.2 hj)

theorem body_rel (hc : c.Valid temps) {count : Nat} (hsim : b.Simulates)
    (hs : Hoists true (.start b count) b out h) (hclear : b.Clear (NotTemp c.names))
    (hwhole : b ∈ c.whole.nodes) (hreads : ∀ t ∈ out.tempReads, ∃ n, c.names.lookup t = some n)
    {ρ η : Env} (henv : Env.Rel c.R (NotTemp c.names) ρ η) :
    Run.Rel c.base (fun p q => c.R p.2 q.2) (b.bare.evalRef c.host ρ)
      (((wrapped h.temps out).named c.names).bare.evalRef c.host' η) := by
  obtain ⟨kept, hkept⟩ : ∃ kept, kept = h.temps.filterMap fun t => c.names.lookup t := ⟨_, rfl⟩
  have hvalid (i : Nat) : (c.inside ρ η kept i).Valid h.temps := hkept ▸ hc.inside henv i
  -- With the places of the temporaries in front of the names in scope.
  have inner (τ : State) (hτ : c.base ≤ τ.fresh) : ∃ r τ',
      ((out.named c.names).bare.evalRef c.host' (bindPlaces kept τ.vars.length η)).run.run
        { τ with vars := τ.vars ++ List.replicate kept.length none } = (r, τ') ∧ Keeps τ τ' ∧
      match r with
      | .ok q => c.Yields (fun p q => c.R p.2 q.2) (b.bare.evalRef c.host ρ) q
      | .error _ => c.Fails (b.bare.evalRef c.host ρ) := by
    have hslot (t : Text) (j : Nat) (hj : (c.inside ρ η kept τ.vars.length).slot t = some j) :
        τ.vars.length ≤ j ∧ j < τ.vars.length + kept.length := by
      obtain ⟨n, -, hplace⟩ := Option.bind_eq_some_iff.1 hj
      exact placeOf_range hplace
    have hready : (c.inside ρ η kept τ.vars.length).Ready (.start b count)
        { τ with vars := τ.vars ++ List.replicate kept.length none } := by
      refine ⟨hτ, fun t j hj => ?_, fun p hp => absurd hp (Hoisting.not_visible_start b count)⟩
      simpa using (hslot t j hj).2
    obtain ⟨r, τ', hrun, ht, hres⟩ := hsim (c.inside ρ η kept τ.vars.length)
      (hvalid _) hs hclear hwhole
      (Hoisting.formed_start b count) (callTexts_paren b) (fun _ ht => ht) hreads _ hready
    refine ⟨r, τ', hrun, ht.keeps (fun t j hj => (hslot t j hj).1)
      (List.prefix_append _ _) rfl rfl, ?_⟩
    cases r with
    | ok q => exact hres.1.mono fun _ hp => hp.1
    | error e => exact hres
  -- The call that introduces them adds nothing.
  have outer (τ : State) (hτ : c.base ≤ τ.fresh) : ∃ r τ',
      (((wrapped h.temps out).named c.names).bare.evalRef c.host' η).run.run τ =
        (r, τ') ∧ Keeps τ τ' ∧
      match r with
      | .ok q => c.Yields (fun p q => c.R p.2 q.2) (b.bare.evalRef c.host ρ) q
      | .error _ => c.Fails (b.bare.evalRef c.host ρ) := by
    obtain ⟨r, τ', hrun, hk, hres⟩ := inner τ hτ
    rw [named_wrapped, ← hkept]
    split
    · rename_i hempty
      obtain rfl : kept = [] := List.isEmpty_iff.1 hempty
      simp only [bindPlaces, List.length_nil, List.replicate_zero, List.append_nil] at hrun
      exact ⟨r, τ', hrun, hk, hres⟩
    · have hassigned : ∀ n ∈ kept, n ∈ (out.named c.names).bare.assigned := by
        intro n hn
        rw [hkept] at hn
        obtain ⟨t, ht, hlookup⟩ := List.mem_filterMap.1 hn
        have hcovered := hs.covered hclear (Hoisting.formed_start b count)
        exact (hs.named hc.nonempty hclear).1.writes t
          ((hcovered.temps t ht).resolve_left (by simp [Hoisting.start])) n hlookup
      have hbind := bindParams_places hassigned η τ
      simp only [bare, bareList, evalRef, evalCall, evalList, pure_bind]
      rw [run_bind_ok hbind]
      cases r with
      | ok q => exact ⟨.ok (.undefined, q.2), τ', run_bind_ok hrun, hk, fun σ hσ => hres σ hσ⟩
      | error e => exact ⟨.error e, τ', run_bind_error hrun, hk, hres⟩
  refine Run.Rel.iff_run.2 fun σ τ hσ hτ => ?_
  obtain ⟨r, τ', hrun, hk, hres⟩ := outer τ hτ
  rw [hrun]
  cases r with
  | ok q =>
    obtain ⟨p, σ', hp, hpq, hk'⟩ := hres σ hσ
    rw [hp]
    exact ⟨hpq, hk', hk⟩
  | error e =>
    obtain ⟨e', σ', hp, hk'⟩ := hres σ hσ
    rw [hp]
    exact ⟨trivial, hk', hk⟩

theorem function_follows (hc : c.Valid temps) {ps : List Text} {h₁ : Hoisting}
    (hs : Hoists true (.start b h.count) b out h₁) (hclear : b.Clear (NotTemp c.names))
    (hwhole : b ∈ c.whole.nodes) (hps : ∀ p ∈ ps, NotTemp c.names p)
    (hreads : ∀ t ∈ out.tempReads, ∃ n, c.names.lookup t = some n) :
    c.Follows h { h with count := h₁.count } (PairRel c.R) (evalClosure c.env ps b.bare)
      (evalClosure c.env' ps ((wrapped h₁.temps out).named c.names).bare) := by
  have hrel := closure_follows (w := ()) likeness.family fun _ hid =>
    Counterpart.closure hid (.hoisted hs hclear hwhole hreads) hps hc.envs
  exact (Follows.of_rel hrel).weaken (fun _ hp => hp) (fun _ ht => ht) fun _ hp => hp.of_count

theorem steps (hc : c.Valid temps) {s : Script} {i : Nat} {h' : Hoisting} {xs os : List Script}
    (hops : Operands Hoists s i h xs os h') (hsim : ∀ x ∈ xs, x.Simulates)
    (hclear : ∀ x ∈ xs, x.Clear (NotTemp c.names)) (hwhole : ∀ x ∈ xs, x ∈ c.whole.nodes)
    (hf : Formed h) (htexts : ∀ t ∈ h.texts, ∃ rest, t.bytes = 0x28 :: rest)
    (htemps : h'.temps ⊆ temps)
    (hreads : ∀ t ∈ os.flatMap tempReads, ∃ n, c.names.lookup t = some n) :
    Operands c.Step s i h xs os h' := by
  induction hops with
  | nil i h => exact .nil i h
  | branch hkey hx hrest ih =>
    rename_i i key h h₁ h₂ x o xs os
    simp only [List.forall_mem_cons] at hsim hclear hwhole
    rw [List.flatMap_cons, List.forall_mem_append] at hreads
    obtain ⟨hf₁, hg₁⟩ := hx.grows (hf.enter key)
    have hf₁' := hf.leave hf₁ hg₁
    have hg₂ := ((hrest.mono fun _ _ _ _ _ _ hy => hy.grows).grows hf₁').2
    refine .branch hkey ⟨hf₁, hg₁, (hx.named hc.nonempty hclear.1).2.trans
      (congrArg isFunction hclear.1.node.core_eq.symm), ?_⟩
      (ih hsim.2 hclear.2 hwhole.2 hf₁' ?_ htemps hreads.2)
    · exact hsim.1 c hc hx hclear.1 hwhole.1 (hf.enter key) (by simpa using htexts)
        (List.Subset.trans hg₂.temps.subset htemps) hreads.1
    · simpa [hg₁.texts] using htexts
  | always hkey hx hrest ih =>
    rename_i i h h₁ h₂ x o xs os
    simp only [List.forall_mem_cons] at hsim hclear hwhole
    rw [List.flatMap_cons, List.forall_mem_append] at hreads
    obtain ⟨hf₁, hg₁⟩ := hx.grows hf
    have hg₂ := ((hrest.mono fun _ _ _ _ _ _ hy => hy.grows).grows hf₁).2
    refine .always hkey ⟨hf₁, hg₁, (hx.named hc.nonempty hclear.1).2.trans
      (congrArg isFunction hclear.1.node.core_eq.symm), ?_⟩
      (ih hsim.2 hclear.2 hwhole.2 hf₁ (hg₁.texts ▸ htexts) htemps hreads.2)
    exact hsim.1 c hc hx hclear.1 hwhole.1 hf htexts
      (List.Subset.trans hg₂.temps.subset htemps) hreads.1

theorem inPlace_follows (hc : c.Valid temps) {s : Script} {ps : List Text} {h₁ h' : Hoisting}
    {i : Nat} {as os : List Script} (hsim : b.Simulates)
    (hs : Hoists true (.start b h.count) b out h₁) (hclear : b.Clear (NotTemp c.names))
    (hwhole : b ∈ c.whole.nodes) (hps : ∀ p ∈ ps, NotTemp c.names p)
    (hreads : ∀ t ∈ out.tempReads, ∃ n, c.names.lookup t = some n)
    (hkeys : ∀ j, branchKey j s = none) (hgrows : Grows { h with count := h₁.count } h')
    (hops : Operands c.Step s i { h with count := h₁.count } as os h') :
    c.Follows h h' (PairRel c.R)
      (evalList c.host c.env (bareList as) >>= evalInPlace c.host c.env ps b.bare)
      (evalList c.host' c.env' (bareList (os.map (named c.names))) >>=
        evalInPlace c.host' c.env' ps ((wrapped h₁.temps out).named c.names).bare) := by
  have hassigned : ∀ p ∈ ps, p ∉ b.bare.assigned ∧
      p ∉ ((wrapped h₁.temps out).named c.names).bare.assigned := by
    intro p hp
    refine ⟨by simp [assigned_of_clear hclear], fun hmem => ?_⟩
    rw [assigned_wrapped] at hmem
    obtain ⟨t, ht⟩ := (hs.named hc.nonempty hclear).1.assigned p hmem
    exact hps p hp t ht
  have hcall := (list_follows hops fun j _ => hkeys j).bind_rel hgrows.temps.subset fun vs ws hvs =>
    Script.inPlace_follows likeness.family hassigned hc.envs hvs fun henv =>
      body_rel hc hsim hs hclear hwhole hreads henv
  exact hcall.weaken (fun _ hp => hp.of_count) (fun _ ht => ht) fun _ hp => hp

end Scene

/-- Every script evaluates as before. -/
theorem simulates (s : Script) : s.Simulates := by
  induction s using induct_size with
  | h s ih =>
    intro c temps b h h' out hc hs hclear hwhole hf htexts htemps hreads
    have hchild (x : Script) (hx : x ∈ s.children) : x.Simulates :=
      ih x (sizeOf_lt_of_mem_children hx)
    have hchildren (x : Script) (hx : x ∈ s.children) : x ∈ c.whole.nodes :=
      mem_nodes_of_mem_children hwhole hx
    have shape {os h₁} (hfun : s.isFunction = false) (hops : Operands Hoists s 0 h s.children os h₁)
        (htemps : h₁.temps ⊆ temps)
        (hreads : ∀ t ∈ (s.withChildren os).tempReads, ∃ n, c.names.lookup t = some n) :
        c.Follows h h₁ (PairRel c.R) (c.plain s) (c.tempered (s.withChildren os)) := by
      rw [tempReads_reshaped hclear.node (reshaped hops.length_eq)] at hreads
      rw [Scene.tempered, hops.named_withChildren hc.nonempty hclear]
      by_cases hcall : ∃ m f as, s = .call m f as ∧ f.isFunction
      · -- The literal is hoisted as a function is, and then the arguments are.
        obtain ⟨m, f, as, rfl, hf'⟩ := hcall
        cases hops with
        | branch hkey => simp [branchKey] at hkey
        | always hkey hx hrest =>
          rename_i h₂ o os
          rw [List.flatMap_cons, List.forall_mem_append] at hreads
          obtain ⟨hf₂, hg₂⟩ := hx.grows hf
          have hsteps := Scene.steps hc hrest (fun x hx => hchild x (by simp [children, hx]))
            (fun x hx => hclear.child (by simp [children, hx]))
            (fun x hx => hchildren x (by simp [children, hx])) hf₂ (hg₂.texts ▸ htexts)
              htemps hreads.2
          have hgrows := ((hrest.mono fun _ _ _ _ _ _ hy => hy.grows).grows hf₂).2
          have hf_mem : f ∈ (Script.call m f as).children := by simp [children]
          have ht : Treated Hoists (!keepsShape 0 (.call m f as)) h f o h₂ := by
            have := hoisted_treated (!keepsShape 0 (.call m f as)) h f
            rwa [hx] at this
          generalize (!keepsShape 0 (.call m f as)) = hoistable at ht
          cases ht with
          | shape _ hfun | read hfun | assign hfun => exact absurd hf' (by simp [hfun])
          | @literal _ body _ _ _ _ _ hb hs =>
            have hbody : body ∈ f.children := by simp [hb]
            rw [tempReads_literal hf', tempReads_wrapped] at hreads
            rw [List.map_cons, named_literal hf']
            have hfollows {ps : List Text} (hps : ∀ p ∈ ps, NotTemp c.names p) :=
              Scene.inPlace_follows hc (ih body (Nat.lt_trans (sizeOf_lt_of_mem_children hbody)
                (sizeOf_lt_of_mem_children hf_mem))) hs ((hclear.child hf_mem).child hbody)
                (mem_nodes_of_mem_children (hchildren _ hf_mem) hbody) hps hreads.1
                  (fun j => rfl) hgrows
                hsteps
            cases f <;> cases hf' <;> cases hb
            · exact hfollows (hclear.child hf_mem).node
            · exact hfollows (hclear.child hf_mem).node.2
      · have hsteps := Scene.steps hc hops hchild (fun x hx => hclear.child hx) hchildren
          hf htexts htemps hreads
        refine Scene.shape_follows hc hwhole hclear.node hfun (fun m f as heq => ?_) hf hsteps
        rw [(hclear.child (x := f) (by simp [heq, children])).node.core_eq]
        exact Bool.eq_false_iff.2 fun hf' => hcall ⟨m, f, as, heq, hf'⟩
    have ht : Treated Hoists b h s out h' := by
      have := hoisted_treated b h s
      rwa [hs] at this
    cases ht with
    | shape b hfun hops =>
      exact (shape hfun hops htemps hreads).mono fun _ _ hpq => ⟨hpq.2, fun _ => hpq.1⟩
    | read hfun hcount hfind =>
      rename_i t
      obtain ⟨n, hn⟩ := hreads t (by simp [tempReads_tempRef])
      exact Scene.read_follows hc hwhole hclear.node
        (Scene.ne_symbol_of_count htexts hcount) hf hfind hn htemps
    | assign hfun hcount hops =>
      rename_i h₁ os
      rw [tempReads_assign] at hreads
      obtain ⟨hf₁, hg₁⟩ := (hops.mono fun _ _ _ _ _ _ hx => hx.grows).grows hf
      have hsub : h₁.temps ⊆ temps := fun t ht => htemps (by simp [Hoisting.addTemp, ht])
      exact Scene.assign_follows hc hwhole hclear.node
        (Scene.ne_symbol_of_count htexts hcount) hf₁ hg₁
        (htemps (by simp [Hoisting.addTemp])) _ (shape hfun hops hsub hreads)
    | @literal _ b₀ _ _ _ _ hfun hb hbody =>
      have hmem : b₀ ∈ s.children := by simp [hb]
      rw [tempReads_literal hfun, tempReads_wrapped] at hreads
      rw [Scene.tempered, named_literal hfun]
      have hfollows {ps : List Text} (hps : ∀ p ∈ ps, NotTemp c.names p) :=
        Scene.function_follows hc hbody (hclear.child hmem) (hchildren _ hmem) hps hreads
      cases s <;> cases hfun <;> cases hb
      · exact (hfollows hclear.node).mono fun _ _ hpq => ⟨hpq.2, fun _ => hpq.1⟩
      · exact (hfollows hclear.node.2).mono fun _ _ hpq => ⟨hpq.2, fun _ => hpq.1⟩

/-! ## Whole scripts -/

variable {E : Environment} {base : Nat} {s : Script}

/-- The relation between the values of a script and those of the hoisted one. -/
def HoistRel (base : Nat) (s : Script) : Client.Value → Client.Value → Prop :=
  Counterpart (· = ·) (SameId base) (fun b _ b' _ => BodyOf s s.temporaryNames b b')
    (NotTemp s.temporaryNames)

/-- Subexpressions of the same structural text are the same. -/
def Faithful (s : Script) : Prop := ∀ x ∈ s.nodes, ∀ y ∈ s.nodes, x.dump = y.dump → x.bare = y.bare

/-- The evaluation of a body of `s` before temporaries are introduced. -/
def Scene.outer (base : Nat) (s : Script) (h : Host) (ρ : Env) (h' : Host) (η : Env) : Scene where
  base := base
  whole := s
  names := s.temporaryNames
  host := h
  env := ρ
  host' := h'
  env' := η
  slot _ := none

section

variable (hE : E.Pure base) (hfaithful : s.Faithful) {c c' : Caller}
  (hcall : Caller.Rel base (HoistRel base s) c c') {ρ η : Env}
  (henv : Env.Rel (HoistRel base s) (NotTemp s.temporaryNames) ρ η)

include hE hfaithful hcall henv

theorem Scene.outer_valid : (Scene.outer base s (E.host c) ρ (E.host c') η).Valid [] where
  hosts := hE.host Counterpart.likeness hcall
  envs := henv
  nonempty := temporaryNames_nonempty s
  faithful := hfaithful
  names_inj _ _ _ := temporaryNames_inj
  slot_place _ _ h := nomatch h
  slot_inj _ _ _ h := nomatch h
  slot_isSome _ h := nomatch h

theorem BodyOf.rel {b b' : Script} (hb : BodyOf s s.temporaryNames b b') :
    Run.Rel base (fun p q => HoistRel base s p.2 q.2) (b.evalRef (E.host c) ρ)
      (b'.evalRef (E.host c') η) := by
  have hvalid := Scene.outer_valid hE hfaithful hcall henv
  cases hb with
  | hoisted hs hclear hwhole hreads =>
    exact Scene.body_rel hvalid (simulates _) hs hclear hwhole hreads henv
  | same hb => exact (Scene.default_rel hvalid hb).mono fun _ _ hpq => hpq.2

end

theorem BodyOf.not_assigned {b b' : Script} (hb : BodyOf s s.temporaryNames b b') {n : Text}
    (hn : NotTemp s.temporaryNames n) : n ∉ b.assigned ∧ n ∉ b'.assigned := by
  cases hb with
  | hoisted hs hclear =>
    refine ⟨by simp [assigned_of_clear hclear], fun hmem => ?_⟩
    rw [assigned_wrapped] at hmem
    obtain ⟨t, ht⟩ := (hs.named (temporaryNames_nonempty s) hclear).1.assigned n hmem
    exact hn t ht
  | same hb => simp [assigned_bare_of_pure _ (hb.mono fun _ h => h.isPure)]

/-- Calls of related functions agree, however deep calls may nest. -/
theorem callWithin_rel (hE : E.Pure base) (hfaithful : s.Faithful) (depth : Nat) :
    Caller.Rel base (HoistRel base s) (E.callWithin depth) (E.callWithin depth) := by
  have hcalls : CallerRel (.blind base) () (fun _ => HoistRel base s) (E.callWithin depth)
      (E.callWithin depth) :=
    callWithin_counterpart hE (fun hb _ => hb.not_assigned)
      (fun _ hc hb _ henv => hb.rel hE hfaithful (hc trivial) henv) depth
  exact fun {_ _ _ _} {_ _} => hcalls trivial

theorem bodyOf_hoist (hclear : s.Clear (NotTemp s.temporaryNames)) :
    BodyOf s s.temporaryNames s.bare s.hoist.bare := by
  obtain ⟨out, h, hs⟩ : ∃ out h, Hoists true (.start s 0) s out h := ⟨_, _, rfl⟩
  rw [hoist_eq hclear, hoistedBody_eq hs]
  exact .hoisted hs hclear (mem_nodes_self s) fun t ht => temporaryNames_isSome hs hclear ht

/-- The hoisted script evaluates as the script itself, and its variables are set when they are
read. -/
theorem eval_hoist_rel (hE : E.Pure base) (hclear : s.Clear (NotTemp s.temporaryNames))
    (hfaithful : s.Faithful) {env : Env}
    (henv : Env.Rel (HoistRel base s) (NotTemp s.temporaryNames) env env) (depth : Nat) :
    Run.Rel base (HoistRel base s) (E.eval depth env s) (E.eval depth env s.hoist) :=
  ((bodyOf_hoist hclear).rel hE hfaithful (callWithin_rel hE hfaithful depth) henv).bind
    fun _ _ hpq => .pure hpq

end Bindery.Script
