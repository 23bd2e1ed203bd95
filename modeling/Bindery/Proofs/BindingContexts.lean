import Bindery.Client.Context
import Bindery.Proofs.ClientPurity
import Bindery.Script.Lowering

/-!
# Binding contexts that correspond

View models are presented alike in two runs whose cells may have other paths (`present_rel`), so
binding contexts that are made from them correspond (`contextOf_rel`), also if one of them stands
further out.
-/

namespace Bindery.Client

/-- Sorting keeps lists alike if related elements are ordered alike. -/
theorem forall₂_mergeSort {α β : Type} {Q : α → β → Prop} {r : α → α → Bool} {s : β → β → Bool}
    (hrs : ∀ a b a' b', Q a b → Q a' b' → r a a' = s b b') {as : List α} {bs : List β}
    (h : List.Forall₂ Q as bs) : List.Forall₂ Q (as.mergeSort r) (bs.mergeSort s) := by
  obtain ⟨hlen, hzip⟩ := List.forall₂_iff_zip.1 h
  have hQ : ∀ p ∈ as.zip bs, Q p.1 p.2 := fun p hp => hzip hp
  -- Both are sorted as the list of the pairs is.
  have hleft : ((as.zip bs).mergeSort fun p q => r p.1 q.1).map Prod.fst = as.mergeSort r := by
    rw [List.map_mergeSort (s := r) fun _ _ _ _ => rfl, List.map_fst_zip (Nat.le_of_eq hlen)]
  have hright : ((as.zip bs).mergeSort fun p q => r p.1 q.1).map Prod.snd = bs.mergeSort s := by
    rw [List.map_mergeSort (s := s) fun p hp q hq => hrs _ _ _ _ (hQ p hp) (hQ q hq),
      List.map_snd_zip (Nat.le_of_eq hlen.symm)]
  rw [← hleft, ← hright, List.forall₂_map_left_iff, List.forall₂_map_right_iff]
  exact List.forall₂_same.2 fun p hp => hQ p (List.mem_mergeSort.1 hp)

variable {P : Text → Text → Prop} {K : Comparison} {w : K.World}
  {R : K.World → Value → Value → Prop}

def FieldRel (R : Value → Value → Prop) (f g : Text × Value) : Prop := f.1 = g.1 ∧ R f.2 g.2

theorem PathFamily.object (hR : PathFamily P K R) {i j : Nat} (hij : K.sameId w i j)
    {fs gs : Record Value} (h : List.Forall₂ (FieldRel (R w)) fs gs) :
    R w (.object i fs) (.object j gs) := by
  refine hR.of_alike rfl (.object hij ?_ ?_)
  · rw [← List.forall₂_eq_eq_eq, List.forall₂_map_left_iff, List.forall₂_map_right_iff]
    exact h.imp fun _ _ hfg => hfg.1
  · rw [List.forall₂_map_left_iff, List.forall₂_map_right_iff]
    exact h.imp fun _ _ hfg => hfg.2

theorem PathFamily.sorted (hR : PathFamily P K R) {fs gs : Record Value}
    (h : List.Forall₂ (FieldRel (R w)) fs gs) :
    K.Rel w R (do return .object (← Run.fresh) (fs.mergeSort fun a b => a.1.le b.1))
      (do return .object (← Run.fresh) (gs.mergeSort fun a b => a.1.le b.1)) := by
  refine Comparison.Rel.fresh.bind fun w' i j hle hij => .pure (hR.object hij ?_)
  refine forall₂_mergeSort ?_ (h.imp fun _ _ hfg => ⟨hfg.1, hR.mono hle hfg.2⟩)
  rintro a b a' b' hab hab'
  rw [hab.1, hab'.1]

theorem PathFamily.array (hR : PathFamily P K R) {xs ys : List Value}
    (h : List.Forall₂ (R w) xs ys) :
    K.Rel w R (do return .array (← Run.fresh) xs) (do return .array (← Run.fresh) ys) :=
  Comparison.Rel.fresh.bind fun _ _ _ hle hij =>
    .pure (hR.of_alike rfl (.array hij (hR.forall₂ hle h)))

/-! ## View models -/

/-- Related paths stay related in the steps that lead from a value to its parts. -/
structure Paths (P : Text → Text → Prop) : Prop where
  append {p p' : Text} (t : Text) : P p p' → P (p ++ t) (p' ++ t)
  items {p p' : Text} : P p p' → P ((p.dropEnd? ".").getD p) ((p'.dropEnd? ".").getD p')

theorem paths_any : Paths fun _ _ => True := ⟨fun _ _ => trivial, fun _ => trivial⟩

mutual

theorem present_rel (hR : PathFamily P K R) (hP : Paths P) : (v : Bindery.Value) →
    ∀ {w : K.World} {p p' : Text}, P p p' → K.Rel w R (present p v) (present p' v)
  | .null, _, _, _, _ | .bool _, _, _, _, _ | .int _, _, _, _, _ | .float _, _, _, _, _
  | .text _, _, _, _, _ => .pure (hR.of_isPrimitive rfl)
  | .list _ vs, _, _, _, h => by
    simp only [present]
    exact (presentItems_rel hR hP vs 0 (hP.items h)).bind fun _ _ _ _ hvs => hR.array hvs
  | .object _ fs, _, _, _, h => by
    simp only [present]
    exact (presentFields_rel hR hP fs h).bind fun _ _ _ _ hfs => hR.sorted hfs
  | .loose l, _, _, _, _ => by
    cases l <;> simp only [present]
    case word => exact .pure (hR.of_isPrimitive rfl)
    all_goals exact .throw _ _
  | .function _, _, _, _, _ => .throw _ _

theorem presentItems_rel (hR : PathFamily P K R) (hP : Paths P) : (vs : List Bindery.Value) →
    ∀ (i : Nat) {w : K.World} {p p' : Text}, P p p' →
      K.Rel w (fun w => List.Forall₂ (R w)) (presentItems p i vs) (presentItems p' i vs)
  | [], _, _, _, _, _ => .pure .nil
  | v :: vs, i, _, _, _, h => by
    simp only [presentItems]
    refine (present_rel hR hP v (hP.append _ (hP.append _ (hP.append _ h)))).bind
      fun w₁ a b hle hab => ?_
    exact (presentItems_rel hR hP vs (i + 1) h).bind fun w₂ as bs hle' hvs =>
      .pure (.cons (hR.mono hle' hab) hvs)

theorem presentFields_rel (hR : PathFamily P K R) (hP : Paths P) :
    (fs : Record Bindery.Value) → ∀ {w : K.World} {p p' : Text}, P p p' →
      K.Rel w (fun w => List.Forall₂ (FieldRel (R w))) (presentFields p fs) (presentFields p' fs)
  | [], _, _, _, _ => .pure .nil
  | (k, v) :: fs, _, _, _, h => by
    simp only [presentFields]
    refine (present_rel hR hP v (hP.append _ (hP.append _ h))).bind fun w₁ a b hle hab => ?_
    refine Comparison.Rel.fresh.bind fun w₂ i j hle₁ hij => ?_
    refine (presentFields_rel hR hP fs h).bind fun w₃ as bs hle₂ hfs => .pure (.cons ⟨rfl, ?_⟩ hfs)
    have hcell := hR.of_alike rfl (.cell hij (hP.append k h) (hR.mono hle₁ hab))
    exact hR.mono hle₂ hcell

end

mutual

theorem plain_rel (hR : PathFamily P K R) : (v : Bindery.Value) → ∀ {w : K.World},
    K.Rel w R (plain v) (plain v)
  | .null, _ | .bool _, _ | .int _, _ | .float _, _ | .text _, _ => .pure (hR.of_isPrimitive rfl)
  | .list _ vs, _ => by
    simp only [plain]
    exact (plainItems_rel hR vs).bind fun _ _ _ _ hvs => hR.array hvs
  | .object _ fs, _ => by
    simp only [plain]
    exact (plainFields_rel hR fs).bind fun _ _ _ _ hfs => hR.sorted hfs
  | .loose l, _ => by
    cases l <;> simp only [plain]
    case texts ts =>
      refine hR.array (List.forall₂_same.2 fun v hv => ?_)
      obtain ⟨t, -, rfl⟩ := List.mem_map.1 hv
      exact hR.of_isPrimitive rfl
    all_goals exact .pure (hR.of_isPrimitive rfl)
  | .function _, _ => .throw _ _

theorem plainItems_rel (hR : PathFamily P K R) : (vs : List Bindery.Value) → ∀ {w : K.World},
    K.Rel w (fun w => List.Forall₂ (R w)) (plainItems vs) (plainItems vs)
  | [], _ => .pure .nil
  | v :: vs, _ => by
    simp only [plainItems]
    refine (plain_rel hR v).bind fun w₁ a b hle hab => ?_
    exact (plainItems_rel hR vs).bind fun w₂ as bs hle' hvs => .pure (.cons (hR.mono hle' hab) hvs)

theorem plainFields_rel (hR : PathFamily P K R) : (fs : Record Bindery.Value) →
    ∀ {w : K.World},
      K.Rel w (fun w => List.Forall₂ (FieldRel (R w))) (plainFields fs) (plainFields fs)
  | [], _ => .pure .nil
  | (k, v) :: fs, _ => by
    simp only [plainFields]
    refine (plain_rel hR v).bind fun w₁ a b hle hab => ?_
    exact (plainFields_rel hR fs).bind fun w₂ as bs hle' hfs =>
      .pure (.cons ⟨rfl, hR.mono hle' hab⟩ hfs)

end

/-- The view models from the `i`-th on, which stand at the `j`-th place in the other run. -/
theorem presentModels_rel (hR : PathFamily P K R) (hP : Paths P) (vms : List Bindery.Value)
    {i j : Nat} (hpaths : ∀ d, P (modelPath (i + d)) (modelPath (j + d))) :
    K.Rel w (fun w => List.Forall₂ (R w)) (presentModels i vms) (presentModels j vms) := by
  induction vms generalizing i j w with
  | nil => exact .pure .nil
  | cons v vms ih =>
    refine (present_rel hR hP v (hpaths 0)).bind fun w₁ a b hle hab => ?_
    refine (ih fun d => ?_).bind fun w₂ as bs hle' hvs => .pure (.cons (hR.mono hle' hab) hvs)
    simpa only [Nat.add_assoc, Nat.add_comm 1 d] using hpaths (d + 1)

/-- The value is the client form of the other one, in cells with some paths. -/
def Shows (v : Bindery.Value) (u : Value) : Prop :=
  ∃ path s s', (present path v).run.run s = (.ok u, s')

theorem presentModels_shows {vms : List Bindery.Value} {i : Nat} {s s' : State} {us : List Value}
    (h : (presentModels i vms).run.run s = (.ok us, s')) : List.Forall₂ Shows vms us := by
  induction vms generalizing i s s' us with
  | nil =>
    obtain rfl := Except.ok.inj (Prod.mk.inj h).1
    exact .nil
  | cons v vms ih =>
    obtain ⟨u, s₁, hu, h⟩ := run_bind_eq_ok h
    obtain ⟨us, s₂, hus, h⟩ := run_bind_eq_ok h
    obtain rfl := Except.ok.inj (Prod.mk.inj h).1
    exact .cons ⟨_, _, _, hu⟩ (ih hus)

/-! ## Contexts -/

section Names

variable {c : Caller} {ρ : Env} {i a : Nat} {fs : Record Value} {ps : List Value}

theorem evalRef_contextMember
    (hρ : ρ.lookup Script.contextSlot = some (.fixed (.object i fs))) (m : Marks) (n : Text) :
    (Script.member m Script.context n).bare.evalRef (environment.host c) ρ =
      pure (.object i fs, (fs.get? n).getD .undefined) := by
  simp only [Script.context, Script.id, Script.bare, Script.evalRef, Host.name, hρ, pure_bind]
  rfl

theorem ofLiteral_ofNat {k : Nat} (hk : k ≤ Number.limit) :
    Value.ofLiteral (.int (Int64.ofNat k)) = .number (.int k) := by
  have hint : (Int64.ofNat k).toInt = k :=
    Int64.toInt_ofNat_of_lt (by simp [Number.limit] at hk; omega)
  rw [Value.ofLiteral, hint, Number.ofInt, if_pos (by simpa using hk)]

theorem evalRef_parents (hρ : ρ.lookup Script.contextSlot = some (.fixed (.object i fs)))
    (hps : fs.get? "$parents" = some (.array a ps)) (m : Marks) {k : Nat}
    (hk : k ≤ Number.limit) :
    (Script.index m (Script.context.dot "$parents")
        (Script.lit (.int (Int64.ofNat k)))).bare.evalRef (environment.host c) ρ =
      pure (.array a ps, ps.getD k .undefined) := by
  have hreceiver := evalRef_contextMember (c := c) hρ {} "$parents"
  rw [hps] at hreceiver
  rw [Script.bare, Script.evalRef, show (Script.context.dot "$parents").bare.evalRef _ ρ = _ from
    hreceiver]
  simp only [pure_bind, Script.lit, Script.bare, Script.evalRef, ofLiteral_ofNat hk]
  rfl

end Names

/-- The object is the binding context of the first of the data contexts. -/
structure IsContext (root element data : Value) (parents : List Value) (fs : Record Value) :
    Prop where
  data : fs.get? "$data" = some data
  root : fs.get? "$root" = some root
  element : fs.get? "$element" = some element
  parent : fs.get? "$parent" = parents.head?
  parents : ∃ a, fs.get? "$parents" = some (.array a parents)

theorem contextOf_isContext {root element data c : Value} {indexes : List Int64}
    {parents : List Value} {k : Nat} {s s' : State}
    (h : (contextOf root element indexes k (data :: parents)).run.run s = (.ok c, s')) :
    ∃ i fs, c = .object i fs ∧ IsContext root element data parents fs := by
  simp only [contextOf] at h
  obtain ⟨outer, s₁, -, h⟩ := run_bind_eq_ok h
  obtain rfl := Except.ok.inj (Prod.mk.inj h).1
  refine ⟨_, _, rfl, ?_⟩
  cases parents <;> cases indexes[k]? <;> exact ⟨rfl, rfl, rfl, rfl, _, rfl⟩

/-- The names around a script in a binding context. -/
abbrev contextScope (element data context : Value) : Env :=
  [("$element", .fixed element), ("$data", .fixed data), ("$context", .fixed context)]

theorem build_eq (models : List Bindery.Value) (indexes : List Int64) (element : Bindery.Value) :
    Context.build { models, indexes, element } = (do
      let models ← presentModels 0 models
      match models.getLast? with
      | none => throw .thrown
      | some root => contextOf root (← plain element) indexes 0 models) := by
  simp only [Context.build, List.mapM_nil, pure_bind, List.foldl_nil]
  congr 1
  funext models
  cases models.getLast? with
  | none => rfl
  | some root =>
    refine congrArg (plain element >>= ·) (funext fun element => ?_)
    refine Eq.trans (congrArg (contextOf root element indexes 0 models >>= ·) (funext fun v => ?_))
      (bind_pure _)
    cases v <;> rfl

/-- The contexts of view models from the `i`-th on, which stand at the `j`-th place in the other
run. -/
theorem contextOf_rel (hR : PathFamily P K R) {root root' element element' : Value}
    {indexes indexes' : List Int64} {models models' : List Value} {i j : Nat}
    (hroot : R w root root') (helement : R w element element')
    (hindexes : ∀ d, indexes[i + d]? = indexes'[j + d]?)
    (hpaths : ∀ d, P ("$index^" ++ Text.ofNat (i + d)) ("$index^" ++ Text.ofNat (j + d)))
    (hmodels : List.Forall₂ (R w) models models') :
    K.Rel w R (contextOf root element indexes i models)
      (contextOf root' element' indexes' j models') := by
  induction models generalizing i j w models' with
  | nil =>
    cases hmodels
    exact .pure hR.undefined
  | cons data parents ih =>
    obtain _ | ⟨hdata, hparents⟩ := hmodels
    rename_i data' parents'
    simp only [contextOf]
    refine (ih (i := i + 1) (j := j + 1) hroot helement (fun d => ?_) (fun d => ?_) hparents).bind
      fun w₁ outer outer' hle₁ houter => ?_
    · simpa only [Nat.add_assoc, Nat.add_comm 1 d] using hindexes (d + 1)
    · simpa only [Nat.add_assoc, Nat.add_comm 1 d] using hpaths (d + 1)
    refine Comparison.Rel.fresh.bind fun w₂ a a' hle₂ ha => ?_
    refine Comparison.Rel.fresh.bind fun w₃ b b' hle₃ hb => ?_
    refine Comparison.Rel.fresh.bind fun w₄ c c' hle₄ hc => .pure (hR.object hc ?_)
    have hle₃₄ := K.le_trans hle₃ hle₄
    have hle₂₄ := K.le_trans hle₂ hle₃₄
    have hle := K.le_trans hle₁ hle₂₄
    have harray : R w₄ (.array a parents) (.array a' parents') :=
      hR.of_alike rfl (.array (K.sameId_mono hle₃₄ ha) (hR.forall₂ hle hparents))
    refine List.rel_append (List.rel_append ?_ ?_) ?_
    · exact .cons ⟨rfl, hR.mono hle hdata⟩ (.cons ⟨rfl, hR.mono hle hroot⟩
        (.cons ⟨rfl, hR.mono hle helement⟩ (.cons ⟨rfl, harray⟩ .nil)))
    · cases hparents with
      | nil => exact .nil
      | cons hp _ =>
        exact .cons ⟨rfl, hR.mono hle hp⟩ (.cons ⟨rfl, hR.mono hle₂₄ houter⟩ .nil)
    · rw [show indexes[i]? = indexes'[j]? from hindexes 0]
      cases indexes'[j]? with
      | none => exact .nil
      | some n =>
        refine .cons ⟨rfl, hR.of_alike rfl (.cell (K.sameId_mono hle₄ hb) (hpaths 0) ?_)⟩ .nil
        exact hR.of_isPrimitive rfl

theorem getLast?_rel {R : Value → Value → Prop} {us vs : List Value} (h : List.Forall₂ R us vs) :
    Option.Rel R us.getLast? vs.getLast? := by
  induction h with
  | nil => exact .none
  | cons hu hus ih =>
    cases hus with
    | nil => exact .some hu
    | cons =>
      rw [List.getLast?_cons_cons, List.getLast?_cons_cons]
      exact ih

/-- A context that is made in one comparison is related to itself. -/
theorem build_related (hR : Family K R) (hw : K.fits w {} {}) {models : List Bindery.Value}
    {indexes : List Int64} {element : Bindery.Value} {u : Value} {σ : State}
    (h : (Context.build { models, indexes, element }).run.run {} = (.ok u, σ)) :
    ∃ w', K.fits w' σ σ ∧ R w' u u := by
  have hP : Paths (· = ·) := ⟨fun _ h => h ▸ rfl, fun h => h ▸ rfl⟩
  have hbuild : K.Rel w R (Context.build { models, indexes, element })
      (Context.build { models, indexes, element }) := by
    rw [build_eq]
    refine (presentModels_rel hR hP models fun _ => rfl).bind fun w₁ us vs hle hus => ?_
    have hlast := getLast?_rel hus
    generalize us.getLast? = root, vs.getLast? = root' at hlast
    cases hlast with
    | none => exact .throw _ _
    | some hroot =>
      exact (plain_rel hR element).bind fun w₂ a b hle helement =>
        contextOf_rel hR (hR.mono hle hroot) helement (fun _ => rfl) (fun _ => rfl)
          (hR.forall₂ hle hus)
  have hagrees := hbuild {} {} hw
  rw [h] at hagrees
  obtain ⟨w', hcomes, hu⟩ := hagrees
  exact ⟨w', hcomes.fits, hu⟩

end Bindery.Client
