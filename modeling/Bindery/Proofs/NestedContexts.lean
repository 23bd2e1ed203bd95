import Bindery.Proofs.BindingContexts
import Bindery.Proofs.NestedScripts
import Bindery.Sample

/-!
# Bindings in a scope inside their own

A binding means in a scope inside its own what it means in its own scope, on the server and in
scripts (`Expr.meaning_nested`). The binding context there has one level more: what names a context
in one script gives in its run what the other script gives in the other run
(`Client.place_follows`), so that all scripts that differ only in such places evaluate alike
(`Client.evalWithin_nested`).
-/

namespace Bindery.Client

open Script (IsFree Place Moved Tracks ValueFollows)

/-! ## What scripts come to -/

section Reveal

variable {P : Text → Text → Prop} {K : Comparison} {w : K.World}
  {R : K.World → Value → Value → Prop}

mutual

/-- Values that are alike come to the same value on the server. -/
theorem reveal_eq (hR : PathFamily P K R) : (v : Value) → ∀ {v' : Value}, R w v v' →
    (reveal v).2 = (reveal v').2
  | .array i xs, v', h => by
    cases hR.alike h with
    | array _ hxs => exact congrArg (Bindery.Value.list none) (revealItems_eq hR xs hxs)
  | .object i fs, v', h => by
    cases hR.alike h with
    | @object _ j _ gs _ hkeys hfs =>
      have hshown := revealFields_eq hR fs hkeys hfs
      have hpeek := lookup_rel hkeys hfs "peek"
      have hfind := congrArg (List.find? fun f => f.1 == ("peek" : Text)) hshown
      rw [List.find?_map, List.find?_map] at hfind
      simp only [reveal]
      generalize Record.get? "peek" fs = a at hpeek
      generalize Record.get? "peek" gs = b at hpeek
      have hobject := congrArg (Bindery.Value.object none) hshown
      cases hpeek with
      | none => exact hobject
      | some hab =>
        cases hR.alike hab with
        | cell =>
          change Option.map _ ((revealFields fs).find? fun f => f.1 == ("peek" : Text)) =
            Option.map _ ((revealFields gs).find? fun f => f.1 == ("peek" : Text)) at hfind
          generalize (revealFields fs).find? _ = c at hfind ⊢
          generalize (revealFields gs).find? _ = d at hfind ⊢
          cases c with
          | none =>
            cases d with
            | none => exact hobject
            | some d => cases hfind
          | some c =>
            cases d with
            | none => cases hfind
            | some d => exact (Prod.mk.inj (Option.some.inj hfind)).2
        | _ => exact hobject
  | .cell i path v, v', h => by
    cases hR.alike h with
    | cell _ _ hv =>
      rw [reveal, reveal]
      exact reveal_eq hR v hv
  | .undefined, v', h | .null, v', h | .bool _, v', h | .number _, v', h | .text _, v', h
  | .computed .., v', h | .closure .., v', h | .native _, v', h => by cases hR.alike h; rfl

theorem revealItems_eq (hR : PathFamily P K R) : (vs : List Value) → ∀ {vs' : List Value},
    List.Forall₂ (R w) vs vs' → (revealItems vs).2 = (revealItems vs').2
  | [], _, h => by cases h; rfl
  | v :: vs, _, h => by
    obtain _ | ⟨hv, hvs⟩ := h
    exact congrArg₂ List.cons (reveal_eq hR v hv) (revealItems_eq hR vs hvs)

theorem revealFields_eq (hR : PathFamily P K R) : (fs : Record Value) →
    ∀ {gs : Record Value}, fs.map (·.1) = gs.map (·.1) →
    List.Forall₂ (R w) (fs.map (·.2)) (gs.map (·.2)) →
    (revealFields fs).map (fun f => (f.1, f.2.2)) = (revealFields gs).map fun f => (f.1, f.2.2)
  | [], gs, hkeys, _ => by
    obtain rfl : gs = [] := by simpa using hkeys.symm
    rfl
  | (k, v) :: fs, gs, hkeys, h => by
    cases gs with
    | nil => cases hkeys
    | cons g gs =>
      obtain ⟨l, u⟩ := g
      obtain ⟨hk, hkeys⟩ := List.cons.inj hkeys
      obtain _ | ⟨hv, hfs⟩ := h
      exact congrArg₂ List.cons (Prod.ext hk (reveal_eq hR v hv)) (revealFields_eq hR fs hkeys hfs)

end

theorem noteReads_rel (hK : ¬ K.varies) (ps qs : List Text) :
    K.Rel w (fun _ _ _ => True) (ps.forM Run.noteRead) (qs.forM Run.noteRead) := by
  have run (ps : List Text) (s : State) :
      ∃ reads, (ps.forM Run.noteRead).run.run s = (.ok ⟨⟩, { s with reads }) := by
    induction ps generalizing s with
    | nil => exact ⟨s.reads, rfl⟩
    | cons p ps ih => exact ih { s with reads := p :: s.reads }
  intro s t hfits
  obtain ⟨rs, hs⟩ := run ps s
  obtain ⟨rt, ht⟩ := run qs t
  rw [hs, ht]
  exact ⟨w, ⟨fun _ => .reads s _, fun _ => .reads t _, K.le_refl w,
    K.fits_mono hK hfits (Nat.le_refl _) (Nat.le_refl _)⟩, trivial⟩

theorem contents_rel (hK : ¬ K.varies) (hR : PathFamily P K R) {depth : Nat}
    (hcall : CallerRel K w R (environment.callWithin depth) (environment.callWithin depth))
    {v v' : Value} (h : R w v v') :
    K.Rel w (fun _ => (· = ·)) (contents depth v) (contents depth v') := by
  have hshow {w' : K.World} {a b : Value} (hab : R w' a b) : K.Rel w' (fun _ => (· = ·))
      (do (reveal a).1.forM Run.noteRead; return (reveal a).2)
      (do (reveal b).1.forM Run.noteRead; return (reveal b).2) :=
    (noteReads_rel hK _ _).bind fun _ _ _ _ _ => .pure (reveal_eq hR a hab)
  unfold contents
  rw [(hR.alike h).isCell_eq]
  split
  · exact (hcall (K.le_refl w) h hR.undefined .nil).bind fun _ _ _ _ hab => hshow hab
  · exact hshow h

end Reveal

/-! ## Contexts with one level more -/

/-- The second context has what the first one has one level further out. -/
structure Nests (R : Value → Value → Prop) (outermost : Bool) (data : Value) (i : Nat)
    (fs gs : Record Value) : Prop where
  data : Option.Rel R (some data) (gs.get? (if outermost then "$root" else "$parent"))
  root : Option.Rel R (fs.get? "$root") (gs.get? "$root")
  parents : ∃ a ps b p qs, fs.get? "$parents" = some (.array a ps) ∧
    fs.get? "$parent" = ps.head? ∧ gs.get? "$parents" = some (.array b (p :: qs)) ∧
      List.Forall₂ R ps qs
  outer : Option.Rel R (some (.object i fs)) (gs.get? "$parentContext")

theorem optionRel_imp {R R' : Value → Value → Prop} (h : ∀ v v', R v v' → R' v v')
    {a b : Option Value} (hab : Option.Rel R a b) : Option.Rel R' a b := by
  cases hab with
  | none => exact .none
  | some hab => exact .some (h _ _ hab)

theorem Nests.imp {R R' : Value → Value → Prop} (h : ∀ v v', R v v' → R' v v') {o : Bool}
    {data : Value} {i : Nat} {fs gs : Record Value} (hnests : Nests R o data i fs gs) :
    Nests R' o data i fs gs := by
  obtain ⟨a, ps, b, p, qs, hps, hhead, hqs, hrel⟩ := hnests.parents
  exact ⟨optionRel_imp h hnests.data, optionRel_imp h hnests.root,
    ⟨a, ps, b, p, qs, hps, hhead, hqs, hrel.imp h⟩, optionRel_imp h hnests.outer⟩

/-- The names of contexts in the two scopes. -/
structure Scoped (data context context' : Value) (ρ η : Env) : Prop where
  data : ρ.lookup Script.dataSlot = some (.fixed data)
  context : ρ.lookup Script.contextSlot = some (.fixed context)
  context' : η.lookup Script.contextSlot = some (.fixed context')

theorem lookup_bindFixed {n : Text} {ps : List Text} (hn : n ∉ ps) (vs : List Value) (ρ : Env) :
    (bindFixed ps vs ρ).lookup n = ρ.lookup n := by
  induction ps generalizing vs ρ with
  | nil => rfl
  | cons p ps ih =>
    rw [List.mem_cons, not_or] at hn
    rw [bindFixed, ih hn.2, List.lookup_cons, beq_false_of_ne hn.1]

variable {data context context' : Value}

theorem Scoped.bindFixed {ρ η : Env} (h : Scoped data context context' ρ η) {ps : List Text}
    (hps : ∀ p ∈ ps, IsFree p) (vs us : List Value) :
    Scoped data context context' (bindFixed ps vs ρ) (bindFixed ps us η) where
  data := by rw [lookup_bindFixed fun hp => (hps _ hp).2 rfl, h.data]
  context := by rw [lookup_bindFixed fun hp => (hps _ hp).1 rfl, h.context]
  context' := by rw [lookup_bindFixed fun hp => (hps _ hp).1 rfl, h.context']

/-- Bodies of functions and the scopes that they are defined in. -/
def MovedBody (outermost : Bool) (data context context' : Value) (b : Script) (ρ : Env) (c : Script)
    (η : Env) : Prop :=
  ∃ x y, b = x.bare ∧ c = y.bare ∧ Moved outermost false x y ∧ Scoped data context context' ρ η

variable {K : Comparison} {w₀ w : K.World} {o : Bool} {i j : Nat} {fs gs : Record Value}

/-- Values of the two runs. -/
def NestedRel (K : Comparison) (outermost : Bool) (data context context' : Value) (w : K.World) :
    Value → Value → Prop :=
  Counterpart (fun _ _ => True) (K.sameId w) (MovedBody outermost data context context') IsFree

theorem NestedRel.family :
    PathFamily (fun _ _ => True) K (NestedRel K o data context context') := Counterpart.paths

theorem place_follows {R : K.World → Value → Value → Prop} {P : Text → Text → Prop}
    (hR : PathFamily P K R) (hnests : Nests (R w₀) o data i fs gs) {c c' : Caller} {ρ η : Env}
    (hle : K.le w₀ w) (hscoped : Scoped data (.object i fs) (.object j gs) ρ η) {x y : Script}
    (h : Place o x y) :
    ValueFollows K w R (environment.host c) ρ (environment.host c') η x y := by
  intro w' hle'
  have hle₀ := K.le_trans hle hle'
  have hvalue {a b : Value × Value} (hab : R w₀ a.2 b.2) :
      K.Rel w' (fun w p q => R w p.2 q.2) (pure a) (pure b) := .pure (hR.mono hle₀ hab)
  have hdata (m : Marks) : (Script.symbol m Script.dataSlot
      (some (Script.id Script.dataSlot))).bare.evalRef (environment.host c) ρ =
      pure (.undefined, data) := by
    simp only [Script.id, Script.bare, Script.evalRef, Host.name, hscoped.data, pure_bind]
  have hcontext (m : Marks) : (Script.symbol m Script.contextSlot
      (some (Script.id Script.contextSlot))).bare.evalRef (environment.host c) ρ =
      pure (.undefined, .object i fs) := by
    simp only [Script.id, Script.bare, Script.evalRef, Host.name, hscoped.context, pure_bind]
  have hmember {n : Text} {v : Value} (h : Option.Rel (R w₀) (some v) (gs.get? n)) :
      R w₀ v ((gs.get? n).getD .undefined) := by
    generalize gs.get? n = u at h
    cases h with
    | some h => exact h
  obtain ⟨a, ps, b, p, qs, hps, hhead, hqs, hrel⟩ := hnests.parents
  cases h with
  | data m =>
    rw [hdata, evalRef_contextMember hscoped.context']
    exact hvalue (hmember hnests.data)
  | root m =>
    rw [evalRef_contextMember hscoped.context, evalRef_contextMember hscoped.context']
    exact hvalue (optionGetD_rel hnests.root hR.undefined)
  | parent m =>
    rw [evalRef_contextMember hscoped.context, hhead,
      evalRef_parents hscoped.context' hqs m (by decide)]
    refine hvalue ?_
    cases hrel with
    | nil => exact hR.undefined
    | cons hp _ => exact hp
  | parents m _ hk =>
    rw [evalRef_parents hscoped.context hps m (by omega),
      evalRef_parents hscoped.context' hqs m (by omega)]
    exact hvalue (getD_rel hrel hR.undefined _)
  | context m =>
    rw [hcontext, evalRef_contextMember hscoped.context']
    exact hvalue (hmember hnests.outer)

theorem place_isPure (x y : Script) (h : Place o x y) :
    (x.Everywhere fun z => z.isPure) ∧ y.Everywhere fun z => z.isPure := by
  have hid (n : Text) : (Script.id n).Everywhere fun z => z.isPure := .mk rfl nofun
  have hsymbol (m : Marks) (n : Text) :
      (Script.symbol m n (some (Script.id n))).Everywhere fun z => z.isPure :=
    .mk rfl (List.forall_mem_singleton.2 (hid n))
  have hmember (m : Marks) (n : Text) :
      (Script.member m Script.context n).Everywhere fun z => z.isPure :=
    .mk rfl (List.forall_mem_singleton.2 (hsymbol _ _))
  have hindex (m : Marks) (v : Literal) : (Script.index m (Script.context.dot "$parents")
      (Script.lit v)).Everywhere fun z => z.isPure :=
    .mk rfl (List.forall_mem_cons.2 ⟨hmember _ _, List.forall_mem_singleton.2 (.mk rfl nofun)⟩)
  cases h with
  | data m => exact ⟨hsymbol m _, hmember m _⟩
  | root m => exact ⟨hmember m _, hmember m _⟩
  | parent m => exact ⟨hmember m _, hindex m _⟩
  | parents m => exact ⟨hindex m _, hindex m _⟩
  | context m => exact ⟨hsymbol m _, hmember m _⟩

/-- A script that does not assign to the names of its context runs with these fixed. -/
theorem evalWithin_object {z : Script}
    (hz : ∀ n ∈ (["$context", "$data", "$element"] : List Text), n ∉ z.assigned) (depth k : Nat)
    (hs : Record Value) : evalWithin depth z (.object k hs) = environment.eval depth
      (contextScope ((hs.get? "$element").getD .undefined)
        ((hs.get? "$data").getD .undefined) (.object k hs)) z := by
  unfold evalWithin
  simp only [member, pure_bind, bindParams_of_disjoint hz]
  rfl

section Runs

variable (hE : environment.PathParametric (fun _ _ => True) K)
  (hnests : Nests (NestedRel K o data (.object i fs) (.object j gs) w₀) o data i fs gs)

include hE hnests

theorem moved_follows {c c' : Caller} {b : Bool} {x y : Script} (hxy : Moved o b x y) {ρ η : Env}
    (hle : K.le w₀ w)
    (hc : CallerRel K w (NestedRel K o data (.object i fs) (.object j gs)) c c')
    (hscoped : Scoped data (.object i fs) (.object j gs) ρ η)
    (henv : Env.Rel (NestedRel K o data (.object i fs) (.object j gs) w) IsFree ρ η) :
    ValueFollows K w (NestedRel K o data (.object i fs) (.object j gs)) (environment.host c) ρ
      (environment.host c') η x y :=
  (Script.evalRef_tracks NestedRel.family
    (fun hle h hplace => place_follows NestedRel.family hnests hle h hplace) place_isPure
    (fun hps h => h.bindFixed hps _ _)
    (fun hij hbody hps hscoped henv =>
      .closure hij ⟨_, _, rfl, rfl, hbody, hscoped⟩ hps henv)
    hxy hle (hE.host NestedRel.family hc) hscoped henv).1

theorem callWithin_nested (depth : Nat) :
    CallerRel K w₀ (NestedRel K o data (.object i fs) (.object j gs)) (environment.callWithin depth)
      (environment.callWithin depth) := by
  refine Script.callWithin_counterpart hE ?_ ?_ depth
  · rintro _ _ ρ η ⟨x, y, rfl, rfl, hxy, -⟩ p -
    obtain ⟨hx, hy⟩ := hxy.isPure place_isPure
    simp [Script.assigned_bare_of_pure _ hx, Script.assigned_bare_of_pure _ hy]
  · rintro w c c' _ _ ρ η ps args args' hle hc ⟨x, y, rfl, rfl, hxy, hscoped⟩ hps henv
    exact moved_follows hE hnests hxy hle hc (hscoped.bindFixed hps _ _) henv w (K.le_refl w)

theorem evalWithin_nested (hdata : fs.get? "$data" = some data)
    (helement : Option.Rel (NestedRel K o data (.object i fs) (.object j gs) w₀)
      (fs.get? "$element") (gs.get? "$element"))
    {x y : Script} (hxy : Moved o false x y) (depth : Nat) :
    K.Rel w₀ (NestedRel K o data (.object i fs) (.object j gs))
      (evalWithin depth x (.object i fs)) (evalWithin depth y (.object j gs)) := by
  have hundefined : NestedRel K o data (.object i fs) (.object j gs) w₀ .undefined .undefined :=
    NestedRel.family.undefined
  obtain ⟨hx, hy⟩ := hxy.isPure place_isPure
  have hassigned {z : Script} (hz : z.Everywhere fun u => u.isPure) : z.assigned = [] :=
    z.assigned_bare ▸ Script.assigned_bare_of_pure z hz
  rw [evalWithin_object (by simp [hassigned hx]), evalWithin_object (by simp [hassigned hy])]
  refine (moved_follows hE hnests hxy (K.le_refl w₀) (callWithin_nested hE hnests depth)
    ⟨by rw [hdata]; rfl, rfl, rfl⟩ ?_ w₀ (K.le_refl w₀)).bind fun _ _ _ _ h => .pure h
  intro n hn
  simp only [List.lookup_cons, List.lookup_nil]
  have hn' : (n == ("$data" : Text)) = false := beq_false_of_ne hn.2
  have hn'' : (n == ("$context" : Text)) = false := beq_false_of_ne hn.1
  rw [hn', hn'']
  cases n == ("$element" : Text) with
  | true => exact .fixed (optionGetD_rel helement hundefined)
  | false => exact .none

end Runs

/-! ## Making the contexts -/

/-- What comes after the first view model is presented in the contexts of one level more. -/
def buildInside (data : Value) (vms : List Bindery.Value) (indexes : List Int64)
    (element : Bindery.Value) : Run Value := do
  let models ← presentModels 1 vms
  match (data :: models).getLast? with
  | none => throw .thrown
  | some root => contextOf root (← plain element) indexes 0 (data :: models)

theorem build_cons {x : Bindery.Value} {data : Value} {σ : State}
    (hx : (present (modelPath 0) x).run.run {} = (.ok data, σ)) (vms : List Bindery.Value)
    (indexes : List Int64) (element : Bindery.Value) :
    (Context.build { models := x :: vms, indexes, element }).run.run {} =
      (buildInside data vms indexes element).run.run σ := by
  rw [build_eq, presentModels.eq_def, bind_assoc, run_bind_ok hx]
  simp only [bind_assoc, pure_bind]
  rfl

/-- The contexts belong together, and the second one has a level more. -/
def Deeper (R : Value → Value → Prop) (outermost : Bool) (c c' : Value) : Prop :=
  ∃ data i fs j gs, c = .object i fs ∧ c' = .object j gs ∧ Record.get? "$data" fs = some data ∧
    Option.Rel R (Record.get? "$element" fs) (Record.get? "$element" gs) ∧
      Nests R outermost data i fs gs

theorem contextOf_deeper (hK : ¬ K.varies) {R : K.World → Value → Value → Prop}
    (hR : PathFamily (fun _ _ => True) K R) {root root' element element' data data' : Value}
    {parents parents' : List Value} (hroot : R w root root') (helement : R w element element')
    (hdata : R w data data') (hparents : List.Forall₂ (R w) parents parents')
    (hlast : parents' = [] → root' = data') (inner : Value) (n : Int64) (indexes : List Int64) :
    K.Rel w (fun w => Deeper (R w) parents.isEmpty)
      (contextOf root element indexes 0 (data :: parents))
      (contextOf root' element' (n :: indexes) 0 (inner :: data' :: parents')) := by
  have hindexes (d : Nat) : indexes[0 + d]? = (n :: indexes)[1 + d]? := by
    rw [Nat.zero_add, Nat.add_comm, List.getElem?_cons_succ]
  have houter := contextOf_rel hR hroot helement hindexes (fun _ => trivial) (.cons hdata hparents)
  rw [contextOf.eq_2 root' element', ← bind_pure (contextOf root element _ _ _)]
  refine (houter.and_left fun _ _ _ => contextOf_isContext).bind fun w' c c' hle hc => ?_
  obtain ⟨hc, i, fs, rfl, hfs⟩ := hc
  obtain ⟨a, hps⟩ := hfs.parents
  refine .fresh_right hK fun b => .fresh_right hK fun _ => .fresh_right hK fun j => .pure ?_
  have hsome {m : Text} {v v' : Value} {gs : Record Value} (h : R w v v')
      (hv : Record.get? m fs = some v) (hv' : Record.get? m gs = some v') :
      Option.Rel (R w') (Record.get? m fs) (Record.get? m gs) := by
    rw [hv, hv']
    exact .some (hR.mono hle h)
  refine ⟨data, i, fs, j, _, rfl, rfl, hfs.data, hsome helement hfs.element rfl, ?_, ?_,
    ⟨a, parents, b, data', parents', hps, hfs.parent, rfl, hR.forall₂ hle hparents⟩, .some hc⟩
  · cases hparents with
    | nil => exact .some (hlast rfl ▸ hR.mono hle hdata)
    | cons => exact .some (hR.mono hle hdata)
  · exact hsome hroot hfs.root rfl

theorem buildInside_rel (hK : ¬ K.varies) {R : K.World → Value → Value → Prop}
    (hR : PathFamily (fun _ _ => True) K R)
    (inner : Value) (vms : List Bindery.Value) (n : Int64) (indexes : List Int64)
    (element : Bindery.Value) {t : Scope} (hlen : vms.length = t.depth + 1) :
    K.Rel w (fun w => Deeper (R w) t.outer.isEmpty)
      (Context.build { models := vms, indexes, element })
      (buildInside inner vms (n :: indexes) element) := by
  rw [build_eq]
  have hmodels := (presentModels_rel (w := w) (i := 0) (j := 1) hR paths_any vms
    fun _ => trivial).and_left fun _ _ _ => presentModels_shows
  refine hmodels.bind fun w₁ models models' _ ⟨hrel, hshows⟩ => ?_
  have hlen := hlen ▸ hshows.length_eq.symm
  cases hrel with
  | nil => cases hlen
  | @cons data data' parents parents' hdata hparents =>
    have hempty : parents.isEmpty = t.outer.isEmpty := by
      rw [Bool.eq_iff_iff, List.isEmpty_iff_length_eq_zero, List.isEmpty_iff_length_eq_zero]
      simpa [Scope.depth] using congrArg (· = 1) hlen
    have hlast := getLast?_rel (.cons hdata hparents)
    simp only [List.getLast?_cons_cons]
    cases hr : (data :: parents).getLast? with
    | none => simp at hr
    | some root =>
    cases hr' : (data' :: parents').getLast? with
    | none => simp at hr'
    | some root' =>
    rw [hr, hr'] at hlast
    cases hlast with
    | some hroot =>
    refine (plain_rel hR element).bind fun w₂ e e' hle helement => ?_
    rw [← hempty]
    refine contextOf_deeper hK hR (hR.mono hle hroot) helement (hR.mono hle hdata)
      (hR.forall₂ hle hparents) ?_ inner n indexes
    rintro rfl
    simpa using hr'.symm

/-! ## Results -/

def outcome (depth : Nat) (s : Script) (c : Context) : Except Thrown Result :=
  ((do
    let v ← evalWithin depth s (← c.build)
    return { isCell := v.isCell, value := ← contents depth v } : Run Result).run.run {}).1

theorem outcome_of_build {c : Context} {u : Value} {σ : State} (h : c.build.run.run {} = (.ok u, σ))
    (depth : Nat) (s : Script) : outcome depth s c = ((do
      let v ← evalWithin depth s u
      return { isCell := v.isCell, value := ← contents depth v } : Run Result).run.run σ).1 := by
  rw [outcome, run_bind_ok h]

/-- The value can be a view model of the client. -/
def IsPresentable (x : Bindery.Value) : Prop :=
  ∃ u σ, (present (modelPath 0) x).run.run {} = (.ok u, σ)

/-- The second script comes to what the first one comes to, in contexts with a view model more
inside those of the scope. -/
def SameInside (t : Scope) (x y : Script) : Prop :=
  ∀ (v : Bindery.Value) (vms : List Bindery.Value) (n : Int64) (indexes : List Int64)
    (element : Bindery.Value) (depth : Nat), IsPresentable v → vms.length = t.depth + 1 →
      outcome depth y { models := v :: vms, indexes := n :: indexes, element } =
        outcome depth x { models := vms, indexes, element }

theorem sameInside_of_moved {x y : Script} {t : Scope} (hxy : Moved t.outer.isEmpty false x y) :
    SameInside t x y := by
  intro v vms n indexes element depth hv hlen
  obtain ⟨inner, σ, hinner⟩ := hv
  have hrun : (.exact 0 : Comparison).Rel (Pairing.start 0) (fun _ => (· = ·))
      (do
        let v ← evalWithin depth x (← Context.build { models := vms, indexes, element })
        return ({ isCell := v.isCell, value := ← contents depth v } : Result))
      (do
        let v ← evalWithin depth y (← buildInside inner vms (n :: indexes) element)
        return ({ isCell := v.isCell, value := ← contents depth v } : Result)) := by
    refine (buildInside_rel id (Counterpart.paths (B := fun _ _ _ _ => False) (X := IsFree)) inner
      vms n indexes element hlen).bind fun w c c' _ hdeeper => ?_
    obtain ⟨data, i, fs, j, gs, rfl, rfl, hdata, helement, hnests⟩ := hdeeper
    have himp (v v' : Value) (h : Counterpart (fun _ _ => True) _ (fun _ _ _ _ => False)
        IsFree v v') :
        NestedRel (.exact 0) t.outer.isEmpty data (.object i fs) (.object j gs) w v v' :=
      h.imp (fun _ _ hij => hij) nofun
    have hnests := hnests.imp himp
    refine (evalWithin_nested environment_exact hnests hdata (optionRel_imp himp helement)
      hxy depth).bind
      fun w' u u' hle huu' => ?_
    refine (contents_rel id NestedRel.family
      (CallerRel.mono (callWithin_nested environment_exact hnests depth) hle) huu').bind
      fun _ _ _ _ heq => ?_
    rw [heq, (NestedRel.family.alike huu').isCell_eq]
    exact .pure rfl
  have hagrees := hrun {} σ (Pairing.start_below (Nat.zero_le _) (Nat.zero_le _))
  unfold outcome
  rw [run_bind_congr (build_cons hinner vms (n :: indexes) element)]
  generalize StateT.run (ExceptT.run _) _ = p at hagrees ⊢
  generalize StateT.run (ExceptT.run _) _ = q at hagrees ⊢
  obtain ⟨p, _⟩ := p
  obtain ⟨q, _⟩ := q
  cases p with
  | error e =>
    cases q with
    | error e' => rfl
    | ok b => exact absurd trivial hagrees
  | ok a =>
    cases q with
    | error e' => exact False.elim hagrees
    | ok b =>
      obtain ⟨-, -, hab⟩ := hagrees
      exact congrArg Except.ok hab.symm

end Bindery.Client

namespace Bindery

open Client

/-- A binding in a scope inside its own reads on the server what it reads in its own scope, and its
script, also with cells read and null checks, comes to what its script comes to in its own scope. -/
theorem Expr.meaning_nested {r : Registry} (hr : r.Uniform) {s t : Scope} (hs : s.parent? = some t)
    (e : Expr) :
    (∀ reader, Reader.compile e t = .ok reader → ∃ reader', Reader.compile e s = .ok reader' ∧
      ∀ (x : Value) (vms : List Value) (control control' : Option Control),
        vms.length = t.depth + 1 → Control.Shifts control control' →
          reader'.read (x :: vms) control' = reader.read vms control) ∧
    (t.depth < Number.limit → e.IsPortable → ∀ tree, e.lower r t = .ok tree →
      ∃ tree', e.lower r s = .ok tree' ∧ SameInside t tree tree' ∧ ∀ allowCell,
        SameInside t (tree.resolveCells.variant allowCell) (tree'.resolveCells.variant allowCell) ∧
        SameInside t (tree.resolveCells.variant allowCell).checkNulls
          (tree'.resolveCells.variant allowCell).checkNulls) := by
  refine ⟨fun reader h => Reader.read_nested hs h, fun hlimit he tree htree => ?_⟩
  obtain ⟨tree', htree', hmoved⟩ := lower_nested hr hs hlimit e he tree htree
  refine ⟨tree', htree', sameInside_of_moved hmoved, fun allowCell => ?_⟩
  have hread := Script.Moved.resolveCells hmoved allowCell
  exact ⟨sameInside_of_moved hread, sameInside_of_moved (Script.Moved.checkNulls hread)⟩

namespace Sample

/-- The list of one, or of nothing if the page is not enabled, from a predicate with a parameter of
the given name. -/
def oneIfEnabled (param : Text) : Expr :=
  .call (.list [.const (.int 1) .int] (listOf .int))
    (Method.listMethods (fun _ => none) .int (.func [.int] .bool))[2]
    [.lambda [⟨0, param, .int, true⟩] (.member (.param "_this" root none)
      { name := "Enabled", owner := container, type := .bool }) (.func [.int] .bool)]

/-- A page with an element of it, where the predicate has a parameter of its own name. -/
theorem meaning_nested_oneIfEnabled :
    customers.parent? = some root ∧ (oneIfEnabled "n").IsPortable ∧
    ∃ reader reader' tree tree',
      Reader.compile (oneIfEnabled "n") root = .ok reader ∧
      Reader.compile (oneIfEnabled "n") customers = .ok reader' ∧
      reader'.read [newCustomer "Bob" 41 "Brno", newContainer []] (some (control .null [1] [])) =
        reader.read [newContainer []] (some (control .null [] [])) ∧
      (oneIfEnabled "n").lower Registry.standard root = .ok tree ∧
      (oneIfEnabled "n").lower Registry.standard customers = .ok tree' ∧
      SameInside root (tree.resolveCells.variant false).checkNulls
        (tree'.resolveCells.variant false).checkNulls := by
  have hportable : (oneIfEnabled "n").IsPortable :=
    ⟨⟨trivial, trivial⟩, ⟨List.forall_mem_singleton.2 ⟨by decide, by decide⟩, nofun⟩, trivial⟩
  have hcontrol : Control.Shifts (some (control .null [] [])) (some (control .null [1] [])) :=
    .some fun p n => by cases hp : p.kind <;> simp [control, hp]
  obtain ⟨hserver, hclient⟩ :=
    Expr.meaning_nested Registry.standard_uniform (s := customers) (t := root) rfl
      (oneIfEnabled "n")
  obtain ⟨reader', hreader', hread⟩ := hserver _ rfl
  obtain ⟨tree', htree', -, hsame⟩ := hclient (by decide) hportable _ rfl
  refine ⟨rfl, hportable, _, reader', _, tree', rfl, hreader', ?_, rfl, htree', (hsame false).2⟩
  exact hread _ _ _ _ rfl hcontrol

/-- If the parameter has the name of the data context, the page is no longer seen from its own
scope. -/
theorem sameInside_oneIfEnabled_data : ∃ tree tree',
    (oneIfEnabled "$data").lower Registry.standard root = .ok tree ∧
    (oneIfEnabled "$data").lower Registry.standard customers = .ok tree' ∧
    ¬ SameInside root (tree.resolveCells.variant false) (tree'.resolveCells.variant false) := by
  refine ⟨_, _, rfl, rfl, fun hsame => ?_⟩
  let vm : Value := .object none [("Enabled", .bool true)]
  have hsame := hsame .null [vm] 0 [] .null 8 ⟨_, _, rfl⟩ rfl
  have hok := congrArg (fun r => r.toOption.isSome) hsame
  revert hok
  decide +kernel

end Sample

end Bindery
