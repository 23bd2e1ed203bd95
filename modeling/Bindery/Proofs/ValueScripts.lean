import Bindery.Proofs.CellReads
import Bindery.Proofs.DirectEvaluation
import Bindery.Proofs.ExprTyping
import Bindery.Proofs.NestedContexts
import Bindery.Proofs.StructuralText

/-!
# Value scripts

What scripts give that only read and compute. `Client.Yields` says that a script gives a value,
wherever a run of it starts, and `Client.Comes` where a chain under null checks ends. A path of
stored fields comes to the client form of the value that it leads to on the server, and is stopped
where the server is (`Expr.IsPath.reads`).
-/

namespace Bindery

namespace Script

variable {s : Script}

theorem Reshaped.isLink_eq {out : Script} {xs : List Script} (h : Reshaped s xs out) :
    out.isLink = s.isLink := by
  cases h <;> rfl

theorem marks_setMarks (m : Marks) (s : Script) : (s.setMarks m).marks = m := by cases s <;> rfl

theorem typed_typed (s : Script) (t t' : Ty) : (s.typed t).typed t' = s.typed t' := by
  have hset (m m' : Marks) : (s.setMarks m).setMarks m' = s.setMarks m' := by cases s <;> rfl
  simp only [typed, mark, marks_setMarks, hset, Marks.merge, Option.none_or, Option.some_or,
    Bool.or_false]

theorem typed_mark (s : Script) (t : Ty) (n : Text) :
    (s.typed t).mark { source := some n } = (s.mark { source := some n }).typed t := by
  cases s <;> rfl

theorem value_eq (hs : ∀ m x, s ≠ .paren m x) : s.value =
    if s.isCell then (s.withChildren (s.children.map value)).force
    else s.withChildren (s.children.map value) := by
  have hmarks := (reshaped (List.length_map value : (s.children.map value).length = _)).marks_eq
  rw [value_eq_ite, transform_readOperands hs, isCell, isCell, hmarks]

def isOperator : Script → Bool
  | .unary .. | .binary .. | .cond .. => true
  | _ => false

/-- Reading cells and null checks go from an operator to its operands. -/
theorem checkNulls_value (hs : s.isOperator) (hcell : s.isCell = false) :
    s.value.checkNulls = s.withChildren (s.children.map fun x => x.value.checkNulls) := by
  have hlink : s.isLink = false := by cases s <;> first | rfl | cases hs
  have hparen : ∀ m x, s ≠ .paren m x := by rintro m x rfl; cases hs
  have hshape := reshaped (List.length_map value : (s.children.map value).length = _)
  rw [value_eq hparen, hcell, if_neg Bool.false_ne_true]
  refine (congrArg CheckChain.toScript (checked_of_not_link (hshape.isLink_eq.trans hlink))).trans
    ?_
  rw [CheckChain.toScript, hshape.children_eq,
    hshape.withChildren_eq (List.length_map _), List.map_map]
  rfl

end Script

namespace Client

/-- The step gives a result with the property, wherever it starts. -/
def Run.Gives {α : Type} (p : α → Prop) (x : Run α) : Prop :=
  ∀ σ, ∃ a σ', x.run.run σ = (.ok a, σ') ∧ p a

namespace Run.Gives

variable {α β : Type} {p : α → Prop} {q : β → Prop}

theorem pure {a : α} (h : p a) : Gives p (Pure.pure a) := fun σ => ⟨a, σ, rfl, h⟩

theorem bind {x : Run α} {f : α → Run β} (hx : Gives p x) (hf : ∀ a, p a → Gives q (f a)) :
    Gives q (x >>= f) := by
  intro σ
  obtain ⟨a, σ₁, hrun, ha⟩ := hx σ
  rw [run_bind_ok hrun]
  exact hf a ha σ₁

end Run.Gives

/-- The script gives the value, whatever was evaluated before. -/
def Yields (h : Host) (ρ : Env) (s : Script) (v : Value) : Prop :=
  Run.Gives (fun p => p.2 = v) (s.bare.evalRef h ρ)

namespace Yields

variable {h : Host} {ρ : Env} {x y z : Script} {v u w : Value} {m : Marks}

theorem literal (l : Literal) : Yields h ρ (.literal m l) (.ofLiteral l) := .pure rfl

theorem member (hx : Yields h ρ x v) {n : Text} (hu : Run.Gives (· = u) (h.member v n)) :
    Yields h ρ (.member m x n) u := by
  refine Run.Gives.bind hx ?_
  rintro ⟨r, v⟩ rfl
  exact hu.bind fun a ha => .pure ha

theorem list {xs : List Script} {vs : List Value} (hxs : List.Forall₂ (Yields h ρ) xs vs) :
    Run.Gives (· = vs) (Script.evalList h ρ (Script.bareList xs)) := by
  induction hxs with
  | nil => exact .pure rfl
  | cons hx _ ih =>
    refine Run.Gives.bind hx ?_
    rintro ⟨r, v⟩ rfl
    exact ih.bind fun vs hvs => .pure (by rw [hvs])

theorem index (hx : Yields h ρ x v) (hy : Yields h ρ y w) (hu : Run.Gives (· = u) (h.element v w)) :
    Yields h ρ (.index m x y) u := by
  refine Run.Gives.bind hx ?_
  rintro ⟨r, v⟩ rfl
  refine Run.Gives.bind hy ?_
  rintro ⟨r', w⟩ rfl
  exact hu.bind fun a ha => .pure ha

theorem call {f : Script} (hfunction : f.core.isFunction = false) (hf : Yields h ρ f v)
    {xs : List Script} {vs : List Value} (hxs : List.Forall₂ (Yields h ρ) xs vs)
    (hu : ∀ r, Run.Gives (· = u) (h.call v r vs)) : Yields h ρ (.call m f xs) u := by
  rw [Yields, Script.bare, Script.evalRef_call (by rwa [Script.core_bare, Script.isFunction_bare])]
  refine Run.Gives.bind hf ?_
  rintro ⟨r, v⟩ rfl
  refine (list hxs).bind ?_
  rintro vs rfl
  exact (hu r).bind fun a ha => .pure ha

theorem unary (hx : Yields h ρ x v) {op : UnOp} (hu : Run.Gives (· = u) (h.unary op v)) :
    Yields h ρ (.unary m op x) u := by
  refine Run.Gives.bind hx ?_
  rintro ⟨r, v⟩ rfl
  exact hu.bind fun a ha => .pure ha

theorem binary (hx : Yields h ρ x v) (hy : Yields h ρ y w) {op : BinOp} (hop : op ≠ .assign)
    (hu : if needsRight op v then Run.Gives (· = u) (h.binary op v w) else v = u) :
    Yields h ρ (.binary m op x y) u := by
  rw [Yields, Script.bare, Script.evalRef_binary hop]
  refine Run.Gives.bind hx ?_
  rintro ⟨r, v⟩ rfl
  by_cases hright : needsRight op v
  · simp only [hright, if_true] at hu ⊢
    refine Run.Gives.bind hy ?_
    rintro ⟨r', w⟩ rfl
    exact hu.bind fun a ha => .pure ha
  · simp only [hright, Bool.false_eq_true, if_false] at hu ⊢
    exact .pure hu

theorem cond {c : Script} (hc : Yields h ρ c w) (hv : Yields h ρ (if w.isTrue then x else y) v) :
    Yields h ρ (.cond m c x y) v := by
  refine Run.Gives.bind hc ?_
  rintro ⟨r, w⟩ rfl
  simp only
  split at hv
  all_goals
    rename_i hw
    simp only [hw, if_true]
    exact Run.Gives.bind hv fun q hq => .pure hq

theorem ifNull (hx : Yields h ρ x u) (hv : Yields h ρ (if u.isNullish then y else z) v) :
    Yields h ρ (.cond m (Script.bin .looseEq x Script.null) y z) v := by
  refine cond (w := .bool u.isNullish) (hx.binary (literal .null) nofun ?_) hv
  have hop : h.binary .looseEq u .null = pure (.bool u.isNullish) := by
    rw [Host.binary, Host.looseEq_null]
    rfl
  simp only [needsRight, if_true, Value.ofLiteral, hop]
  exact .pure rfl

theorem checkedCond (hm : m.cell = none) (hx : Yields h ρ x.value.checkNulls u)
    (hv : Yields h ρ (if u.isNullish then y else z).value.checkNulls v) :
    Yields h ρ (Script.cond m (Script.bin .looseEq x Script.null) y z).value.checkNulls v := by
  have hcell : (Script.cond m (Script.bin .looseEq x Script.null) y z).isCell = false := by
    rw [Script.isCell, Script.marks, hm]
    rfl
  rw [Script.checkNulls_value rfl hcell]
  change Yields h ρ (.cond m (Script.bin .looseEq x Script.null).value.checkNulls y.value.checkNulls
    z.value.checkNulls) v
  rw [Script.checkNulls_value rfl rfl]
  refine hx.ifNull ?_
  cases hnullish : u.isNullish <;> rw [hnullish] at hv <;> exact hv

end Yields

/-! ## Chains -/

open Script (CheckChain)

/-- The chain comes to the value, or a guard stops it. -/
inductive Comes (h : Host) (ρ : Env) : CheckChain → Option Value → Prop
  | done {s : Script} {v : Value} (hs : Yields h ρ s v) : Comes h ρ (.done s) (some v)
  | stops {recv : Script} {v : Value} {rest : CheckChain} (hrecv : Yields h ρ recv v)
    (hv : v.isNullish) : Comes h ρ (.guarded recv rest) none
  | passes {recv : Script} {v : Value} {rest : CheckChain} {o : Option Value}
    (hrecv : Yields h ρ recv v) (hv : v.isNullish = false) (hrest : Comes h ρ rest o) :
    Comes h ρ (.guarded recv rest) o

namespace Comes

variable {h : Host} {ρ : Env} {C : CheckChain} {o : Option Value}

theorem toScript (hC : Comes h ρ C o) :
    Yields h ρ C.toScript (o.getD (.ofLiteral (CheckChain.default C.type?))) := by
  induction hC with
  | done hs => exact hs
  | stops hrecv hv => exact hrecv.ifNull (by rw [hv]; exact .literal _)
  | passes hrecv hv _ ih => exact hrecv.ifNull (by rw [hv]; exact ih)

/-- A chain goes on from its value, unless that is null. -/
theorem extend (hC : Comes h ρ C o) {build : Script → Script} {f : Value → Option Value}
    (hnull : ∀ v ∈ o, v.isNullish → C.body.mayBeNull ∧ f v = none)
    (hbuild : ∀ v ∈ o, v.isNullish = false → ∃ u, f v = some u ∧
      ∀ s, Yields h ρ s v → Yields h ρ (build s) u) :
    Comes h ρ (C.extend build true) (o.bind f) := by
  induction hC with
  | @done s v hs =>
    rw [CheckChain.extend, Bool.true_and, Option.bind_some]
    cases hv : v.isNullish with
    | true =>
      obtain ⟨hmay, hf⟩ := hnull v rfl hv
      rw [if_pos (show s.mayBeNull = true from hmay), hf]
      exact .stops hs hv
    | false =>
      obtain ⟨u, hf, hu⟩ := hbuild v rfl hv
      rw [hf]
      split
      · exact .passes hs hv (.done (hu s hs))
      · exact .done (hu s hs)
  | stops hrecv hv => exact .stops hrecv hv
  | passes hrecv hv _ ih => exact .passes hrecv hv (ih hnull hbuild)

end Comes

end Client

namespace Script.CheckChain

theorem extend_extend (C : CheckChain) (f g : Script → Script) (check : Bool) :
    (C.extend f check).extend g false = C.extend (fun x => g (f x)) check := by
  induction C with
  | done s =>
    rw [extend, extend]
    split <;> rfl
  | guarded recv rest ih => exact congrArg _ ih

theorem type?_eq (C : CheckChain) : C.type? = C.body.type? := by
  induction C with
  | done s => rfl
  | guarded recv rest ih => exact ih

end Script.CheckChain

namespace Client

variable {v : Bindery.Value} {u : Value}

/-- Sorting by names is stable, so it keeps what is found under a name. -/
theorem lookup_mergeSort (n : Text) (fs : Record Value) :
    Record.get? n (fs.mergeSort fun a b => a.1.le b.1) = fs.get? n := by
  have hlookup (gs : Record Value) :
      gs.get? n = ((gs.filter fun f => f.1 == n).head?).map (·.2) := by
    induction gs with
    | nil => rfl
    | cons g gs ih =>
      simp only [Record.get?, List.filter_cons, beq_iff_eq]
      split
      · rfl
      · exact ih
  rw [hlookup, hlookup]
  refine congrArg (fun l : Record Value => l.head?.map (·.2)) (List.Sublist.eq_of_length ?_ ?_).symm
  · have hsame : (fs.filter fun f => f.1 == n).Pairwise fun a b => a.1.le b.1 := by
      refine List.pairwise_of_forall_mem_list fun a ha b hb => ?_
      have := Text.le_total n n
      simp_all
    have hsub := @List.sublist_mergeSort _ (fun a b => a.1.le b.1) fs (fun _ _ _ => Text.le_trans)
      (fun a b => Text.le_total a.1 b.1) _ hsame List.filter_sublist
    simpa using hsub.filter fun f => f.1 == n
  · exact ((List.mergeSort_perm fs _).filter _).length_eq.symm

theorem presentFields_lookup {n : Text} {fs : Record Bindery.Value}
    (hn : fs.get? n = some v) {path : Text} {s s' : State}
    {gs : Record Value} (h : (presentFields path fs).run.run s = (.ok gs, s')) :
    ∃ i p u, gs.get? n = some (.cell i p u) ∧ Shows v u := by
  induction fs generalizing s s' gs with
  | nil => cases hn
  | cons f fs ih =>
    obtain ⟨k, w⟩ := f
    simp only [presentFields] at h
    obtain ⟨u, s₁, hu, h⟩ := run_bind_eq_ok h
    obtain ⟨i, s₂, -, h⟩ := run_bind_eq_ok h
    obtain ⟨rest, s₃, hrest, h⟩ := run_bind_eq_ok h
    obtain rfl := Except.ok.inj (Prod.mk.inj h).1
    simp only [Record.get?] at hn
    simp only [Record.get?]
    split at hn
    · obtain rfl := Option.some.inj hn
      rename_i hk
      rw [if_pos hk]
      exact ⟨i, _, u, rfl, _, _, _, hu⟩
    · rename_i hk
      rw [if_neg hk]
      exact ih hn hrest

theorem Shows.object {ref : Option Ref} {fs : Record Bindery.Value}
    (h : Shows (.object ref fs) u) {n : Text} (hn : Record.get? n fs = some v) :
    ∃ i gs j p w, u = .object i gs ∧ Record.get? n gs = some (.cell j p w) ∧ Shows v w := by
  obtain ⟨path, s, s', h⟩ := h
  simp only [present] at h
  obtain ⟨gs, s₁, hgs, h⟩ := run_bind_eq_ok h
  cases h
  obtain ⟨j, p, w, hw, hshows⟩ := presentFields_lookup hn hgs
  exact ⟨_, _, j, p, w, rfl, (lookup_mergeSort n gs).trans hw, hshows⟩

def ofScalar (v : Bindery.Value) : Value := .ofLiteral ((Literal.ofValue? v).getD .null)

theorem Shows.eq_ofScalar (h : Shows v u) (hv : (Literal.ofValue? v).isSome) : u = ofScalar v := by
  obtain ⟨path, s, s', h⟩ := h
  cases v with
  | list | object | function => cases hv
  | loose l =>
    cases l with
    | word n => cases h; rfl
    | _ => cases hv
  | _ =>
    cases h
    rfl

theorem isPrimitive_ofScalar (v : Bindery.Value) : (ofScalar v).isPrimitive := by
  rw [ofScalar]
  cases (Literal.ofValue? v).getD .null <;> rfl

theorem reveal_ofScalar (v : Bindery.Value) :
    reveal (ofScalar v) = ([], (reveal (ofScalar v)).2) := by
  rw [ofScalar]
  cases (Literal.ofValue? v).getD .null <;> rfl

theorem Shows.isNullish (h : Shows v u) : u.isNullish = v.isNull := by
  obtain ⟨path, s, s', h⟩ := h
  cases v with
  | list r vs | object r fs =>
    simp only [present] at h
    obtain ⟨us, s₁, -, h⟩ := run_bind_eq_ok h
    cases h
    rfl
  | loose l =>
    cases l with
    | word n => cases h; rfl
    | _ => cases h
  | function => cases h
  | _ =>
    cases h
    rfl

/-! ## Contexts -/

/-- What the names of contexts stand for is made from the view models, and no other name is bound
that scripts use. -/
structure Surrounds (ρ : Env) (vms : List Bindery.Value) : Prop where
  string : ρ.lookup ("String" : Text) = none
  names : ∃ i fs data parents root element,
    ρ.lookup Script.contextSlot = some (.fixed (.object i fs)) ∧
    ρ.lookup Script.dataSlot = some (.fixed data) ∧ IsContext root element data parents fs ∧
    (data :: parents).getLast? = some root ∧ List.Forall₂ Shows vms (data :: parents)

/-- What the scripts of bindings run on, without comparisons of identities. -/
abbrev identityFree : Environment := environmentWith fun _ _ => throw .thrown

/-- The host of scripts that compare no identities, with calls that nest at least once. -/
abbrev hostWithin (depth : Nat) : Host := identityFree.host (identityFree.callWithin (depth + 1))

section Context

variable (depth : Nat) {ρ : Env}

theorem yields_slot {h : Host} {n : Text} {v : Value}
    (hρ : ρ.lookup n = some (.fixed v)) (m : Marks) :
    Yields h ρ (.symbol m n (some (Script.id n))) v := by
  simp only [Yields, Script.id, Script.bare, Script.evalRef, Host.name, hρ, pure_bind]
  exact .pure rfl

theorem yields_context {s owner : Scope} {k : Nat} (hk : s.ancestor? k = some owner)
    (hlimit : s.depth < Number.limit) {vms : List Bindery.Value} (hlen : vms.length = s.depth + 1)
    (hρ : Surrounds ρ vms) : ∃ v u, vms[k]? = some v ∧ Shows v u ∧
      ∀ m, Yields (hostWithin depth) ρ ((Expr.lowerContext owner k).setMarks m) u := by
  obtain ⟨i, fs, data, parents, root, element, hcontext, hdata, hfs, hroot, hshows⟩ := hρ.names
  have hdepth := Scope.ancestor_depth hk
  have hlt : k < vms.length := by omega
  have hlt' : k < (data :: parents).length := hshows.length_eq ▸ hlt
  refine ⟨vms[k], (data :: parents)[k], List.getElem?_eq_getElem hlt, hshows.get hlt hlt',
    fun m => ?_⟩
  have hmember (m : Marks) {n : Text} {u : Value} (hu : Record.get? n fs = some u) :
      Yields (hostWithin depth) ρ (.member m Script.context n) u := by
    refine (yields_slot hcontext _).member (u := u) ?_
    change Run.Gives _ (pure ((Record.get? n fs).getD .undefined))
    rw [hu]
    exact .pure rfl
  have hget : (data :: parents)[k]? = some (data :: parents)[k] := List.getElem?_eq_getElem hlt'
  generalize (data :: parents)[k] = u at hget
  rw [Expr.lowerContext]
  cases k with
  | zero => exact Option.some.inj hget ▸ yields_slot hdata _
  | succ k =>
    rw [List.getElem?_cons_succ] at hget
    rw [if_neg (by simp)]
    split
    · rename_i houter
      refine hmember m (hfs.root.trans (hroot.symm.trans ?_))
      have hzero : owner.depth = 0 := by simpa [Scope.depth] using houter
      rw [List.getLast?_eq_getElem?, ← hshows.length_eq, hlen, ← hdepth, hzero]
      exact hget
    · split
      · obtain rfl : k = 0 := by simp_all
        exact hmember m (hfs.parent.trans (List.head?_eq_getElem? ▸ hget))
      · obtain ⟨a, hps⟩ := hfs.parents
        refine Yields.index (hmember {} hps) (.literal _) ?_
        rw [ofLiteral_ofNat (by omega)]
        change Run.Gives _ (pure (parents.getD _ .undefined))
        rw [Nat.add_sub_cancel, List.getD_eq_getElem?_getD, hget]
        exact .pure rfl

end Context

/-! ## Paths -/

end Client

open Client

def Link.of : Option Value → Link
  | none => .broken
  | some v => .reached v

theorem Value.HasType.normalize_eq {c : Catalog} {t : Ty} {v : Value} (h : HasType c t v)
    (ht : t.kind ≠ .any) : v.normalize t = v := by
  induction h with
  | any => exact absurd rfl ht
  | nullable _ ih => rw [normalize_nullable, ih ht]
  | _ => rfl

namespace Expr

variable {e : Expr}

/-- The value that a path leads to, unless an object before it is null. -/
def follow (s : Scope) (vms : List Value) : Expr → Option Value
  | .param _ owner _ => vms[s.depth - owner.depth]?
  | .member x f => match x.follow s vms with
    | some (.object _ fields) => Record.get? f.name fields
    | _ => none
  | _ => none

/-- A data context around, or a stored field with an identifier for a name of an object that a path
leads to. -/
inductive IsPath (c : Catalog) (r : Registry) (s : Scope) : Expr → Prop
  | context {n : Text} {owner : Scope} {k : Nat} (h : s.ancestor? k = some owner) :
    IsPath c r s (.param n owner none)
  | field {x : Expr} {f : Field} {d : Declared} (hx : IsPath c r s x) (hd : x.type = .declared d)
    (hstatic : d.isStatic = false) (hf : f ∈ (c.find d).fields) (hget : f.get = none)
    (hany : f.type.kind ≠ .any) (hform : r.member? f = none) (hname : f.name.isIdentifier) :
    IsPath c r s (.member x f)

/-- The view models are of the types that the scope says, and not null. -/
structure Models (c : Catalog) (s : Scope) (vms : List Value) : Prop where
  length : vms.length = s.depth + 1
  limit : s.depth < Number.limit
  typed : ∀ (i : Nat) v l, vms[i]? = some v → s.levels[i]? = some l →
    v.HasType c l.dataType ∧ v ≠ .null

/-- What a path leads to on the server and in a script that is made from `y`. -/
structure Reads (c : Catalog) (s : Scope) (fr : Frame) (h : Host) (ρ : Env) (e : Expr) (y : Script)
    (o : Option Client.Value) : Prop where
  chain (base n : Nat) : e.chain s base fr n = .ok (.of (e.follow s fr.vms))
  typed : ∀ v ∈ e.follow s fr.vms, v.HasType c e.type
  shows : Option.Rel Shows (e.follow s fr.vms) o
  comes (t : Ty) : Comes h ρ (y.typed t).value.checked o
  type (t : Ty) : (y.typed t).value.checked.type? = some t
  known : (e.follow s fr.vms).getD .null = .null → e.knownNonNull = false
  null : e.follow s fr.vms = some .null → ∀ t,
    (y.typed t).value.checked.body.mayBeNull = t.isNullable
  notNull : y.marks.notNull → ∃ v, e.follow s fr.vms = some v ∧ v ≠ .null

variable {c : Catalog} {r : Registry} {s : Scope} {fr : Frame} {ρ : Env} {depth : Nat}

theorem value_lowerContext (owner : Scope) (k : Nat) {m : Marks} (hm : m.cell = none) :
    ((lowerContext owner k).setMarks m).value.checked =
      .done ((lowerContext owner k).setMarks m) := by
  obtain ⟨type, cell, source, notNull, temp⟩ := m
  obtain rfl : cell = none := hm
  unfold lowerContext
  repeat' split
  all_goals rfl

theorem lower_context {n : Text} {owner : Scope} {k : Nat} (hk : s.ancestor? k = some owner) :
    lower r s (.param n owner none) =
      .ok (((lowerContext owner k).notNull.mark { source := some n }).typed owner.dataType) := by
  rw [lower, lowerParam, levelsOut_ancestor hk n]
  exact congrArg Except.ok (Script.typed_mark _ owner.dataType n)

theorem reads_context {n : Text} {owner : Scope} {k : Nat} (hk : s.ancestor? k = some owner)
    (hvms : Models c s fr.vms) (hρ : Surrounds ρ fr.vms) :
    ∃ o, Reads c s fr (hostWithin depth) ρ (.param n owner none)
      ((lowerContext owner k).notNull.mark { source := some n }) o := by
  have hlevels := levelsOut_ancestor hk n
  have hmarks (t : Ty) : ∃ m : Marks, ((lowerContext owner k).notNull.mark
      { source := some n }).typed t = (lowerContext owner k).setMarks m ∧ m.cell = none ∧
      m.type = some t := by
    unfold lowerContext
    repeat' split
    all_goals exact ⟨_, rfl, rfl, rfl⟩
  obtain ⟨v, u, hv, hshows, hyields⟩ := yields_context depth hk hvms.limit hvms.length hρ
  obtain ⟨htyped, hnull⟩ := hvms.typed k v owner.level hv (Scope.ancestor_level hk)
  have hfollow : follow s fr.vms (.param n owner none) = some v := by
    have hdepth := Scope.ancestor_depth hk
    rw [follow, show s.depth - owner.depth = k by omega, hv]
  refine ⟨some u, ?_⟩
  constructor
  case chain =>
    intro base i
    simp only [chain, eval, hlevels, hv, hfollow]
    rfl
  case typed => rw [hfollow]; rintro _ ⟨⟩; exact htyped
  case shows => rw [hfollow]; exact .some hshows
  case known => rw [hfollow]; exact fun h => absurd h hnull
  case null => rw [hfollow]; exact fun h => absurd (Option.some.inj h) hnull
  case notNull => exact fun _ => ⟨v, hfollow, hnull⟩
  all_goals
    intro t
    obtain ⟨m, hm, hcell, htype⟩ := hmarks t
    rw [hm, value_lowerContext owner k hcell]
  · exact .done (hyields m)
  · rw [← htype]
    exact congrArg Marks.type (Script.marks_setMarks m _)

section Field

variable {x : Expr} {f : Field} {d : Declared} (hd : x.type = .declared d)
  (hstatic : d.isStatic = false) {y : Script}

include hd hstatic

theorem lower_field (hform : r.member? f = none) (hlower : x.lower r s = .ok (y.typed x.type)) :
    lower r s (.member x f) =
      .ok ((((y.typed x.type).dot f.name).asCell .cell).typed f.type) := by
  have hkind : x.type.kind = .object := by rw [hd, Ty.kind, hstatic]; rfl
  simp only [lower, hlower, hform, hkind]
  rfl

theorem reads_field (hf : f ∈ (c.find d).fields) (hget : f.get = none) (hany : f.type.kind ≠ .any)
    {o : Option Client.Value} (hx : Reads c s fr (hostWithin depth) ρ x y o) :
    ∃ o, Reads c s fr (hostWithin depth) ρ (.member x f)
      (((y.typed x.type).dot f.name).asCell .cell)
      o := by
  let z := ((y.typed x.type).dot f.name).asCell .cell
  let read (t : Ty) (z : Script) : Script :=
    .call { type := some t } (.member { type := some t, cell := some .cell } z f.name) []
  have hchecked (t : Ty) :
      (z.typed t).value.checked = (y.typed x.type).value.checked.extend (read t) true := by
    have hnode : z.typed t =
      .member { type := some t, cell := some .cell } (y.typed x.type) f.name := rfl
    rw [hnode, Script.value_eq (by simp)]
    change (Script.call { type := some t } (.member { type := some t, cell := some .cell }
      (y.typed x.type).value f.name) []).checked = _
    rw [Script.checked_call, Script.checked_member, Script.CheckChain.extend_extend]
    rfl
  have hnullable : x.type.isNullable := by rw [hd, Ty.isNullable, hstatic]; rfl
  -- What is left to prove is where the access leads to, on both sides.
  have access {l : Option Value} {o' : Option Client.Value}
      (hstep : ∀ base n, Link.access x.stopsAt (readField (label base n (.member x f)) f)
        (.of (x.follow s fr.vms)) = .ok (.of l))
      (hl : follow s fr.vms (.member x f) = l) (htyped : ∀ v ∈ l, v.HasType c f.type)
      (hshows : Option.Rel Shows l o')
      (hcomes : ∀ t, Comes (hostWithin depth) ρ
        ((y.typed x.type).value.checked.extend (read t) true) o') :
      ∃ o, Reads c s fr (hostWithin depth) ρ (.member x f) z o := by
    refine ⟨o', fun base n => ?_, hl ▸ htyped, hl ▸ hshows,
      fun t => hchecked t ▸ hcomes t, fun t => ?_, fun _ => rfl, fun _ t => ?_, by rintro ⟨⟩⟩
    · rw [chain, hx.chain, hl]
      exact hstep base n
    · rw [hchecked, Script.CheckChain.type?_eq, Script.CheckChain.body_extend]
      rfl
    · rw [hchecked, Script.CheckChain.body_extend]
      simp [read, Script.mayBeNull, Script.marks, Script.isCell, Script.type?]
  have hcomes := hx.comes x.type
  have hshows := hx.shows
  cases hv : x.follow s fr.vms with
  | none =>
    rw [hv] at access hshows
    cases hshows
    exact access (fun _ _ => rfl) (by rw [follow, hv]) (by simp) .none fun t =>
      hcomes.extend (f := fun _ => none) (by simp) (by simp)
  | some v =>
    rw [hv] at access hshows
    cases hshows with
    | @some _ u hu =>
    by_cases hnull : v = .null
    · subst hnull
      have hknown := hx.known (by rw [hv]; rfl)
      have hmay := hx.null hv
      refine access (l := none) (fun base n => ?_) (by rw [follow, hv]) (by simp) .none fun t =>
        hcomes.extend (f := fun _ => none) (fun _ _ _ => ⟨(hmay _).trans hnullable, rfl⟩) ?_
      · have hstops : x.stopsAt (.value .null) := by
          rw [stopsAt, hnullable, hknown]
          rfl
        simp only [Link.of, Link.access, hstops, if_true]
        rfl
      · rintro _ ⟨⟩ hu'
        cases hu.isNullish.symm.trans hu'
    · have htyped := hd ▸ hx.typed v hv
      cases htyped with
      | null | empty => exact absurd rfl hnull
      | @object _ fields ref _ hsome hfields =>
        obtain ⟨w, hw⟩ := Option.isSome_iff_exists.1 (hsome f hf hget)
        obtain ⟨i, gs, j, p, u', rfl, hcell, hu'⟩ := hu.object hw
        have hwt := hfields f hf hget w hw
        refine access (l := some w) (fun base n => ?_) (by rw [follow, hv]; exact hw)
          (by simpa using hwt) (.some hu') fun t =>
            hcomes.extend (f := fun _ => some u') (by simp [Client.Value.isNullish]) ?_
        · have hread : readField (label base n (.member x f)) f (.value (.object ref fields)) =
              .ok w := by
            simp only [readField, hget, hw, Option.getD_some, hwt.normalize_eq hany]
          simp only [Link.of, Link.access, stopsAt, Operand.isNull, hread]
          rfl
        · rintro _ ⟨⟩ -
          refine ⟨u', rfl, fun z hz => ?_⟩
          refine (Yields.member hz (u := .cell j p u') ?_).call rfl .nil fun _ => ?_
          · change Run.Gives _ (pure ((Record.get? f.name gs).getD .undefined))
            rw [hcell]
            exact .pure rfl
          · exact fun σ => ⟨_, _, rfl, rfl⟩

end Field

/-- A path leads to the same place on both sides. -/
theorem IsPath.reads (he : e.IsPath c r s) (fr : Frame) (depth : Nat) (hvms : Models c s fr.vms) :
    ∃ y, e.lower r s = .ok (y.typed e.type) ∧ ∀ ρ, Surrounds ρ fr.vms →
      ∃ o, Reads c s fr (hostWithin depth) ρ e y o := by
  induction he with
  | context hk => exact ⟨_, lower_context hk, fun _ hρ => reads_context hk hvms hρ⟩
  | field _ hd hstatic hf hget hany hform _ ih =>
    obtain ⟨y, hlower, hreads⟩ := ih
    refine ⟨_, lower_field hd hstatic hform hlower, fun ρ hρ => ?_⟩
    obtain ⟨o, hx⟩ := hreads ρ hρ
    exact reads_field hd hstatic hf hget hany hx

theorem Reads.yields {h : Host} {y : Script} {o : Option Client.Value} (hx : Reads c s fr h ρ e y o)
    (hscalar : ∀ v ∈ e.follow s fr.vms, (Literal.ofValue? v).isSome) (t : Ty) :
    Yields h ρ (y.typed t).value.checkNulls (ofScalar ((e.follow s fr.vms).getD t.default)) := by
  have hyields := (hx.comes t).toScript
  rw [hx.type t] at hyields
  have hshows := hx.shows
  cases hv : e.follow s fr.vms with
  | none =>
    rw [hv] at hshows
    cases hshows
    exact hyields
  | some v =>
    rw [hv] at hshows
    cases hshows with
    | some hu =>
      rw [hu.eq_ofScalar (hscalar v hv)] at hyields
      exact hyields

theorem IsPath.checked (he : e.IsPath c r s) : e.checked s = .ok () := by
  induction he with
  | @context n _ _ hk =>
    rw [Expr.checked, levelsOut_ancestor hk n]
    rfl
  | field _ _ _ _ _ _ _ _ ih => exact ih

end Expr

/-! ## Runs of whole scripts -/

theorem Reader.read_of_chain {e : Expr} {s : Scope} {vms : List Value} (control : Option Control)
    {v : Value} (hc : e.checked s = .ok ())
    (h : ∀ base n, ∃ l, e.chain s base { vms, control } n = .ok l ∧ l.getD e.type = .value v) :
    ∃ reader, Reader.compile e s = .ok reader ∧ reader.read vms control = .ok (.value v) := by
  obtain ⟨l, hl, hv⟩ := h e.nextLocal 0
  refine ⟨⟨e.guardNulls, s⟩, ?_, ?_⟩
  · rw [Reader.compile, Expr.guardNulls_checked, hc]
    rfl
  · rw [Reader.read, Expr.guardNulls_eval, Expr.meaning, hl, ← hv]
    rfl

namespace Client

variable {element : Bindery.Value} {vms : List Bindery.Value} {indexes : List Int64}

theorem surrounds_of_build {u : Value} {σ : State}
    (h : (Context.build { models := vms, indexes, element }).run.run {} = (.ok u, σ)) :
    ∃ i fs data element', u = .object i fs ∧ Record.get? "$data" fs = some data ∧
      Record.get? "$element" fs = some element' ∧
        Surrounds (contextScope element' data (.object i fs)) vms := by
  rw [build_eq] at h
  obtain ⟨models, σ₁, hmodels, h⟩ := run_bind_eq_ok h
  have hshows := presentModels_shows hmodels
  cases models with
  | nil => cases h
  | cons data parents =>
    obtain ⟨root, hroot⟩ : ∃ root, (data :: parents).getLast? = some root := ⟨_, List.getLast?_cons⟩
    rw [hroot] at h
    obtain ⟨element', σ₂, -, h⟩ := run_bind_eq_ok h
    obtain ⟨i, fs, rfl, hfs⟩ := contextOf_isContext h
    exact ⟨i, fs, data, element', rfl, hfs.data, hfs.element,
      rfl, i, fs, data, parents, root, element', rfl, rfl, hfs, hroot, hshows⟩

theorem exists_surrounds
    (h : ∃ u σ, (Context.build { models := vms, indexes, element }).run.run {} = (.ok u, σ)) :
    ∃ ρ, Surrounds ρ vms := by
  obtain ⟨_, _, h⟩ := h
  obtain ⟨_, _, _, _, -, -, -, hρ⟩ := surrounds_of_build h
  exact ⟨_, hρ⟩

theorem exists_build {c : Context} (h : (c.build.run.run {}).1.isOk) :
    ∃ u σ, c.build.run.run {} = (.ok u, σ) := by
  cases hc : c.build.run.run {} with
  | mk r σ =>
    rw [hc] at h
    cases r with
    | ok u => exact ⟨u, σ, rfl⟩
    | error => cases h

end Client

/-! ## A team with a lead -/

namespace Team

def person : Declared := ⟨"Person", false, 1⟩

def team : Declared := ⟨"Team", false, 2⟩

def age : Field := { name := "Age", owner := .declared person, type := .int }

def score : Field := { name := "Score", owner := .declared person, type := .nullable .int }

def name : Field := { name := "Name", owner := .declared person, type := .string }

def retired : Field := { name := "Retired", owner := .declared person, type := .bool }

def lead : Field := { name := "Lead", owner := .declared team, type := .declared person }

def catalog : Catalog :=
  { entries := [(1, { fields := [age, score, name, retired] }), (2, { fields := [lead] })] }

def scope : Scope := ⟨{ dataType := .declared team }, []⟩

def ofLead (f : Field) : Expr := .member (.member (.param "_this" scope none) lead) f

def newPerson (n : Int64) (score name : Value) : Value :=
  .object none [("Age", .int n), ("Score", score), ("Name", name), ("Retired", .bool false)]

def newTeam (lead : Value) : Value := .object none [("Lead", lead)]

theorem newPerson_hasType {n : Int64} {v t : Value} (hv : v.HasType catalog (.nullable .int))
    (ht : t.HasType catalog .string) : (newPerson n v t).HasType catalog (.declared person) := by
  refine .object none rfl ?_ ?_ <;> refine List.forall_mem_cons.2 ⟨?_, List.forall_mem_cons.2 ⟨?_,
    List.forall_mem_cons.2 ⟨?_, List.forall_mem_singleton.2 ?_⟩⟩⟩ <;> intro _
  · rfl
  · rfl
  · rfl
  · rfl
  · rintro _ ⟨⟩; exact .int n
  · rintro _ ⟨⟩; exact hv
  · rintro _ ⟨⟩; exact ht
  · rintro _ ⟨⟩; exact .bool false

theorem newTeam_models {v : Value} (hv : v.HasType catalog (.declared person)) :
    Expr.Models catalog scope [newTeam v] where
  length := rfl
  limit := by decide
  typed i w l hw hl := by
    cases i with
    | zero =>
      obtain rfl := Option.some.inj hw
      obtain rfl := Option.some.inj hl
      refine ⟨.object none rfl (List.forall_mem_singleton.2 fun _ => rfl)
        (List.forall_mem_singleton.2 fun _ => ?_), nofun⟩
      rintro _ ⟨⟩
      exact hv
    | succ i => cases hw

theorem ofLead_isPath {f : Field} (hf : f ∈ [age, score, name, retired]) :
    (ofLead f).IsPath catalog Registry.standard scope := by
  have hlead :
      (Expr.member (.param "_this" scope none) lead).IsPath catalog Registry.standard scope :=
    .field (.context (k := 0) rfl) rfl rfl List.mem_cons_self rfl nofun rfl rfl
  refine .field hlead rfl rfl hf ?_ ?_ ?_ ?_ <;> revert f <;> decide

end Team

end Bindery
