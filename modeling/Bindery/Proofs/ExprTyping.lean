import Bindery.Proofs.ImplicitConversions
import Bindery.Proofs.MemberTyping
import Bindery.Proofs.NullPropagation

/-!
# Typed expressions evaluate to values of their types

`Expr.WellTyped` is what the checks establish about an expression: every operation is applied to
operands of the types it is defined on. Such an expression evaluates to a value of its type or fails
with an error that is not about null (`Expr.guardNulls_gives`), if no receiver in it is of a type
that has no value but null (`Expr.receiversHaveValues`).
-/

namespace Bindery

open Value (HasType)

namespace Expr

def isConversion : Expr → Bool
  | .convert .. => true
  | _ => false

/-- The conversion takes values of `s` to values of `t`. -/
def Converts (u : Universe) : Conversion → Ty → Ty → Prop
  | .box, s, t => t = .any ∨ s.kind = .list ∧ ∃ p, t = .list .any p ∧ t.Formed u
  | .lift, s, t => s = t.underlying ∧ t.Formed u
  | .numeric, s, t =>
    s.kind = .int ∧ t.kind = .float ∧ (t.isNullable || !s.isNullable) ∧ t.Formed u
  | _, _, _ => False

def Defined (t : Ty) : UnaryOp → Prop
  | .not => t.kind = .bool
  | _ => t.kind.isNumeric

mutual

/-- Every operation is applied to operands of the types it is defined on, in a scope and with the
given variables. Receivers are not conversions. -/
def WellTyped (u : Universe) (s : Scope) (ctx : List Local) : Expr → Prop
  | .param _ owner none => ∃ k, s.ancestor? k = some owner
  | .param _ owner (some p) => (∃ k, s.ancestor? k = some owner) ∧ p ∈ owner.level.params
  | .var l => l ∈ ctx ∧ l.nonNull = false
  | .const v t => HasType u.catalog t v ∧ t.Formed u
  | .member x f => WellTyped u s ctx x ∧ x.isConversion = false ∧
    ∃ name, x.type.field? u.catalog name = some f
  | .call x m args => WellTyped u s ctx x ∧ x.isConversion = false ∧ m.isStatic = false ∧
    (∃ name k, m ∈ x.type.overloads u.catalog name k) ∧ WellTypedAll u s ctx args ∧
    args.map type = m.params
  | .callStatic m args => m.isStatic ∧
    (∃ (t : Ty) (name : Text) (k : Nat), t.Formed u ∧ m ∈ t.overloads u.catalog name k) ∧
    WellTypedAll u s ctx args ∧ args.map type = m.params
  | .index x k t => WellTyped u s ctx x ∧ x.isConversion = false ∧ WellTyped u s ctx k ∧
    k.type = .int ∧ ∃ p, x.type = .list t p
  | .unary op x => WellTyped u s ctx x ∧ Defined x.type op
  | .binary op x y t => WellTyped u s ctx x ∧ WellTyped u s ctx y ∧ binaryType? op x y = some t
  | .cond c a b t => WellTyped u s ctx c ∧ WellTyped u s ctx a ∧ WellTyped u s ctx b ∧
    a.type = t ∧ b.type = t
  | .convert k x t => WellTyped u s ctx x ∧ Converts u k x.type t
  | .lambda ps b t => t = .func (ps.map (·.type)) b.type ∧ t.Formed u ∧ (ps.map (·.id)).Nodup ∧
    (∀ l ∈ ps, ∀ l' ∈ ctx, l.id ≠ l'.id) ∧ WellTyped u s (ps.reverse ++ ctx) b
  | .list xs t => WellTypedAll u s ctx xs ∧ t.Formed u ∧ ∃ e p, t = .list e p ∧ ∀ x ∈ xs, x.type = e
  | .guard .. => False
  | .typeRef t => t.Formed u

def WellTypedAll (u : Universe) (s : Scope) (ctx : List Local) : List Expr → Prop
  | [] => True
  | x :: xs => WellTyped u s ctx x ∧ WellTypedAll u s ctx xs

end

mutual

/-- No receiver of an access or call is of a type that has no value but null, such as the result of
a method without one. -/
def receiversHaveValues : Expr → Bool
  | .member x _ => !x.type.kind.isEmpty && receiversHaveValues x
  | .call x _ args =>
    !x.type.kind.isEmpty && receiversHaveValues x && receiversHaveValuesAll args
  | .callStatic _ args => receiversHaveValuesAll args
  | .index x k _ => receiversHaveValues x && receiversHaveValues k
  | .unary _ x => receiversHaveValues x
  | .binary _ x y _ => receiversHaveValues x && receiversHaveValues y
  | .cond c t e _ => receiversHaveValues c && (receiversHaveValues t && receiversHaveValues e)
  | .convert _ x _ => receiversHaveValues x
  | .lambda _ b _ => receiversHaveValues b
  | .list xs _ => receiversHaveValuesAll xs
  | .guard x _ b _ => receiversHaveValues x && receiversHaveValues b
  | _ => true

def receiversHaveValuesAll : List Expr → Bool
  | [] => true
  | x :: xs => receiversHaveValues x && receiversHaveValuesAll xs

end

end Expr

/-- The types of the scope are types of the universe. -/
def Scope.Formed (u : Universe) (s : Scope) : Prop :=
  ∀ l ∈ s.levels, l.dataType.Formed u ∧ ∀ p ∈ l.params, p.type.Formed u

theorem Local.fresh_cons {l : Local} {ls ctx : List Local} (hl : l.id ∉ ls.map (·.id))
    (hfresh : ∀ l₁ ∈ l :: ls, ∀ l₂ ∈ ctx, l₁.id ≠ l₂.id) :
    ∀ l₁ ∈ ls, ∀ l₂ ∈ l :: ctx, l₁.id ≠ l₂.id := by
  intro l₁ h₁
  refine List.forall_mem_cons.2 ⟨fun heq => hl (List.mem_map.2 ⟨l₁, h₁, heq⟩), ?_⟩
  exact hfresh l₁ (List.mem_cons_of_mem l h₁)

/-- The data contexts and special parameters of a frame are of the types that the scope says, and
not null, and its variables are of their types. -/
structure Frame.Typed (u : Universe) (s : Scope) (ctx : List Local) (fr : Frame) : Prop where
  vms : ∀ (i : Nat) v l, fr.vms[i]? = some v → s.levels[i]? = some l →
    HasType u.catalog l.dataType v ∧ v ≠ .null
  control : ∀ control, fr.control = some control → ∀ (i : Nat) l p v, s.levels[i]? = some l →
    p ∈ l.params → control p i = some v → HasType u.catalog p.type (v.normalize p.type) ∧ v ≠ .null
  vars : ∀ l ∈ ctx, (fr.get l.id).HasType u.catalog l.type

namespace Frame.Typed

variable {u : Universe} {s : Scope} {ctx : List Local} {fr : Frame}

theorem bind (h : fr.Typed u s ctx) {l : Local} {x : Operand} (hx : x.HasType u.catalog l.type)
    (hl : ∀ l' ∈ ctx, l.id ≠ l'.id) : (fr.bind l x).Typed u s (l :: ctx) where
  vms := h.vms
  control := h.control
  vars l' hl' := by
    rw [get_bind]
    rcases List.mem_cons.1 hl' with rfl | hl'
    · rw [if_pos rfl]
      exact hx
    · rw [if_neg (hl l' hl')]
      exact h.vars l' hl'

theorem bindAll (h : fr.Typed u s ctx) {ls : List Local} {vs : List Value}
    (hvs : List.Forall₂ (HasType u.catalog) (ls.map (·.type)) vs) (hnodup : (ls.map (·.id)).Nodup)
    (hfresh : ∀ l ∈ ls, ∀ l' ∈ ctx, l.id ≠ l'.id) :
    (fr.bindAll ls vs).Typed u s (ls.reverse ++ ctx) := by
  induction ls generalizing fr ctx vs with
  | nil => cases hvs; exact h
  | cons l ls ih =>
    cases hvs with
    | cons hv hvs =>
      rw [List.map_cons, List.nodup_cons] at hnodup
      have hbind := h.bind (.of_value hv) (hfresh l (by simp))
      have hall := ih hbind hvs hnodup.2 (Local.fresh_cons hnodup.1 hfresh)
      rw [List.reverse_cons, List.append_assoc]
      exact hall

end Frame.Typed

namespace Scope

variable {s owner : Scope} {k : Nat}

theorem ancestor_levels (h : s.ancestor? k = some owner) : owner.levels = s.levels.drop k := by
  rw [ancestor?] at h
  cases hd : s.levels.drop k with
  | nil => rw [hd] at h; cases h
  | cons l ls =>
    rw [hd] at h
    obtain rfl := Option.some.inj h
    rfl

theorem ancestor_level (h : s.ancestor? k = some owner) : s.levels[k]? = some owner.level := by
  have hl := ancestor_levels h
  rw [← Nat.add_zero k, ← List.getElem?_drop, ← hl]
  rfl

theorem ancestor_depth (h : s.ancestor? k = some owner) : k + owner.depth = s.depth := by
  have hlen := congrArg List.length (ancestor_levels h)
  simp only [levels, List.length_cons, List.length_drop] at hlen
  unfold depth
  omega

end Scope

namespace Expr

variable {u : Universe} {s : Scope} {ctx : List Local}

theorem levelsOut_ancestor {owner : Scope} {k : Nat} (h : s.ancestor? k = some owner)
    (name : Text) : levelsOut s name owner = .ok k := by
  have hd := Scope.ancestor_depth h
  have hk : s.depth - owner.depth = k := by omega
  have hle : owner.depth ≤ s.depth := by omega
  simp only [levelsOut, hk, h, Scope.same, hle, decide_true, beq_self_eq_true,
    Bool.and_true, if_true]

/-! ## Types of expressions -/

/-- The type of an operation is in every set that has the types of the operands and the basic
types. -/
theorem binaryType_mem {T : Ty → Prop} (hbasic : ∀ b, T (.basic b))
    (hnullable : ∀ b, (Ty.basic b).isNullable = false → T (.nullable (.basic b))) {op : BinaryOp}
    {x y : Expr} {t : Ty} (hx : T x.type) (hy : T y.type) (h : binaryType? op x y = some t) :
    T t := by
  have arithmetic {t : Ty} (h : arithmeticType? x.type y.type = some t) : T t := by
    unfold arithmeticType? at h
    split at h
    · cases h
    obtain rfl := Option.some.inj h
    split <;> split <;> first | exact hbasic _ | exact hnullable _ rfl
  have boolean {b : Bool} {t : Ty} (h : (if b then some Ty.bool else none) = some t) : T t := by
    split at h
    · exact Option.some.inj h ▸ hbasic _
    · cases h
  have logical {t : Ty} (h : (if x.type.kind == .bool && y.type.kind == .bool then
      some (if x.type.isNullable || y.type.isNullable then Ty.nullable .bool else .bool)
      else none) = some t) : T t := by
    split at h
    · obtain rfl := Option.some.inj h
      split <;> first | exact hbasic _ | exact hnullable _ rfl
    · cases h
  cases op with
  | add =>
    simp only [binaryType?] at h
    split at h
    · exact Option.some.inj h ▸ hbasic _
    · exact arithmetic h
  | sub | mul | div | mod => exact arithmetic h
  | equal | notEqual => exact Option.some.inj h ▸ hbasic _
  | less | lessEqual | greater | greaterEqual => exact boolean h
  | andAlso | orElse => exact logical h
  | coalesce =>
    simp only [binaryType?] at h
    split at h
    · cases h
    split at h
    · exact Option.some.inj h ▸ hx
    split at h
    · exact Option.some.inj h ▸ hy
    split at h
    · exact Option.some.inj h ▸ hx
    · cases h

theorem WellTyped.formed (hu : u.Sound) (hs : s.Formed u) {e : Expr} {ctx : List Local}
    (hctx : ∀ l ∈ ctx, l.type.Formed u) (h : e.WellTyped u s ctx) : e.type.Formed u := by
  cases e with
  | param name owner p =>
    cases p with
    | none =>
      obtain ⟨k, hk⟩ := h
      exact (hs _ (List.mem_of_getElem? (Scope.ancestor_level hk))).1
    | some p =>
      obtain ⟨⟨k, hk⟩, hp⟩ := h
      exact (hs _ (List.mem_of_getElem? (Scope.ancestor_level hk))).2 p hp
  | var l => exact hctx l h.1
  | const v t => exact h.2
  | member x f =>
    obtain ⟨hx, _, name, hf⟩ := h
    exact (Ty.readField_gives hu (WellTyped.formed hu hs hctx hx) hf).1
  | call x m args =>
    obtain ⟨hx, _, _, ⟨name, k, hm⟩, _⟩ := h
    exact (Ty.overloads_sound hu (WellTyped.formed hu hs hctx hx) hm).2.2.1
  | callStatic m args =>
    obtain ⟨_, ⟨t, name, k, ht, hm⟩, _⟩ := h
    exact (Ty.overloads_sound hu ht hm).2.2.1
  | index x k t =>
    obtain ⟨hx, _, _, _, p, hp⟩ := h
    have ht := WellTyped.formed hu hs hctx hx
    rw [hp] at ht
    exact ht.1
  | unary op x => exact WellTyped.formed (e := x) hu hs hctx h.1
  | binary op x y t =>
    exact binaryType_mem (fun _ => trivial) (fun _ hb => ⟨trivial, hb⟩)
      (WellTyped.formed hu hs hctx h.1) (WellTyped.formed hu hs hctx h.2.1) h.2.2
  | cond c a b t =>
    obtain ⟨_, ha, _, rfl, _⟩ := h
    exact WellTyped.formed (e := a) hu hs hctx ha
  | convert k x t =>
    cases k with
    | box =>
      rcases h.2 with h | ⟨_, p, _, h⟩
      · exact (show t = .any from h) ▸ trivial
      · exact h
    | lift => exact h.2.2
    | numeric => exact h.2.2.2.2
    | _ => exact absurd h.2 id
  | lambda | list => exact h.2.1
  | guard => exact absurd h id
  | typeRef t => exact h

end Expr

/-! ## Evaluation -/

/-- The chain of an expression ends as its type says. What is known not to be null is not, and the
null literal is. -/
def Link.Fits (c : Catalog) (e : Expr) : Link → Prop
  | .reached v => v.HasType c e.type ∧
    (e.isConversion = false → e.knownNonNull → v.isNull = false) ∧
    (e.isNullConst → v = .value .null)
  | .broken => e.isNullConst = false

namespace Expr

variable {u : Universe} {s : Scope} {ctx : List Local} {c : Catalog}

theorem isNull_value_of_ne {v : Value} (h : v ≠ .null) : v.isNull = false := by
  cases v <;> first | rfl | exact absurd rfl h

theorem fits_of_type {e : Expr} {v : Operand} (hv : v.HasType c e.type)
    (hk : e.knownNonNull = false) (hn : e.isNullConst = false) : (Link.reached v).Fits c e :=
  ⟨hv, fun _ h => absurd (hk.symm.trans h) (by simp), fun h => absurd (hn.symm.trans h) (by simp)⟩

theorem getD_fits {e : Expr} {link : Link} (h : link.Fits c e) :
    (link.getD e.type).HasType c e.type ∧ (e.isNullConst → link.getD e.type = .value .null) := by
  cases link with
  | reached v => exact ⟨h.1, h.2.2⟩
  | broken =>
    exact ⟨.of_value (.default c e.type), fun h' => absurd (Eq.trans (Eq.symm h) h') (by simp)⟩

theorem getD_gives {e : Expr} {r : Except Fault Link} (h : Gives (Link.Fits c e) r) :
    Gives (fun v => v.HasType c e.type ∧ (e.isNullConst → v = .value .null))
      (do return (← r).getD e.type) :=
  h.bind fun _ hlink => getD_fits hlink

theorem receives_of_not_stopsAt {x : Expr} {v : Operand} (hv : (Link.reached v).Fits c x)
    (hx : x.isConversion = false) (hkind : x.type.kind.isEmpty = false)
    (hstop : ¬ x.stopsAt v) : Operand.Receives c x.type v := by
  refine ⟨hv.1, ?_⟩
  by_contra hnull
  rw [Bool.not_eq_false] at hnull
  have hknown : x.knownNonNull = false := by
    by_contra h
    rw [Bool.not_eq_false] at h
    rw [hv.2.1 hx h] at hnull
    cases hnull
  have htype : x.type.isNullable := by
    have h := hv.1.toValue
    rw [Operand.HasType.isNull_iff.1 hnull] at h
    rcases h.nullable_of_null with h | h
    · exact h
    · rw [h] at hkind
      cases hkind
  exact hstop (by simp [stopsAt, hnull, htype, hknown])

theorem applyConversion_gives {k : Conversion} {t t' : Ty} {v : Operand} (h : Converts u k t t')
    (hv : v.HasType c t) : (applyConversion k t' v).HasType c t' := by
  cases k with
  | box =>
    rcases h with rfl | ⟨hk, p, rfl, -⟩
    · exact .any c _
    · exact applyConversion_box_list hv hk
  | lift => exact applyConversion_lift (h.1 ▸ hv)
  | numeric => exact applyConversion_numeric hv h.1 h.2.1 h.2.2.1
  | _ => exact absurd h id

/-- An implicit conversion leaves the expression as it is, types the null literal, or inserts a
conversion that takes values of one type to values of the other. -/
theorem implicit_cases (hn : u.WellNamed) {e e' : Expr} {t : Ty} (he : e.type.Formed u)
    (ht : t.Formed u) (h : e.implicit? t = some e') :
    (e' = e ∧ e.type = t) ∨
    (e' = .const .null t ∧ e.isNullConst ∧ t.isNullable) ∨
    ∃ k, e' = .convert k e t ∧ Converts u k e.type t := by
  cases implicit_of_some h with
  | same hid => exact .inl ⟨rfl, he.eq_of_identical hn ht hid⟩
  | any hany => exact .inr (.inr ⟨.box, rfl, .inl (ht.eq_any hany)⟩)
  | null hconst hnull => exact .inr (.inl ⟨rfl, hconst, hnull⟩)
  | lift _ hid => exact .inr (.inr ⟨.lift, rfl, he.eq_of_identical hn ht.underlying hid, ht⟩)
  | numeric hint hfloat hnull => exact .inr (.inr ⟨.numeric, rfl, hint, hfloat, hnull, ht⟩)
  | items hlist hany heq =>
    subst heq
    obtain rfl := ht.1.eq_any hany
    exact .inr (.inr ⟨.box, rfl, .inr ⟨hlist, _, rfl, ht⟩⟩)

theorem hasType_of_mem {t : Ty} {ts : List Ty} {vs : List Operand} {v : Operand}
    (h : List.Forall₂ (Operand.HasType c) ts vs) (ht : ∀ t' ∈ ts, t' = t) (hv : v ∈ vs) :
    v.HasType c t := by
  induction h with
  | nil => cases hv
  | cons hx _ ih =>
    rcases List.mem_cons.1 hv with rfl | hv
    · exact ht _ List.mem_cons_self ▸ hx
    · exact ih (fun t' h => ht t' (by simp [h])) hv

theorem formed_params {ps : List Local} (hps : Ty.FormedAll u (ps.map Local.type))
    (hctx : ∀ l ∈ ctx, l.type.Formed u) : ∀ l ∈ ps.reverse ++ ctx, l.type.Formed u := fun l hl => by
  rcases List.mem_append.1 hl with hl | hl
  · exact Ty.formedAll_iff.1 hps _ (List.mem_map_of_mem (List.mem_reverse.1 hl))
  · exact hctx l hl

theorem access_fits {x e : Expr} {r : Except Fault Link} {act : Operand → Except Fault Operand}
    (hr : Gives (Link.Fits c x) r) (hx : x.isConversion = false)
    (hkind : x.type.kind.isEmpty = false) (hk : e.knownNonNull = false)
    (hn : e.isNullConst = false)
    (hact : ∀ v, Operand.Receives c x.type v → Gives (Operand.HasType c e.type) (act v)) :
    Gives (Link.Fits c e) (do (← r).access x.stopsAt act) := by
  refine hr.bind fun link hlink => ?_
  cases link with
  | broken => exact hn
  | reached v =>
    rw [Link.access]
    split
    · exact hn
    · rename_i hstop
      exact (hact v (receives_of_not_stopsAt hlink hx hkind hstop)).bind fun w hw =>
        fits_of_type hw hk hn

theorem readElement_gives {e : Expr} {t p : Ty} {v k : Operand} (he : e.type = t)
    (hv : Operand.Receives c (.list t p) v) (hk : k.HasType c .int) :
    Gives (Operand.HasType c t) (readElement e v k) := by
  subst he
  obtain ⟨l, rfl, hl⟩ := hv.1.eq_value (by simp [Ty.kind]) (by simp [Ty.kind])
  obtain ⟨i, rfl, hi⟩ := hk.eq_value (by simp [Ty.kind, Ty.int]) (by simp [Ty.kind, Ty.int])
  obtain ⟨i, rfl⟩ := hi.eq_int rfl (hi.ne_null rfl rfl)
  cases hl with
  | null _ | empty _ => cases hv.2
  | list ref hitems =>
    rw [readElement]
    split
    · rename_i w hw
      refine .of_value (hitems w ?_).normalize
      split at hw
      · exact List.mem_of_getElem? hw
      · cases hw
    · exact .eval _ rfl (by simp)

section

variable (base : Nat)

mutual

/-- The chain of a well-typed expression ends as its type says. -/
theorem chain_fits (hn : u.WellNamed) (hu : u.Sound) (hs : s.Formed u) (e : Expr) {ctx : List Local}
    {fr : Frame} (n : Nat)
    (hctx : ∀ l ∈ ctx, l.type.Formed u) (hfr : fr.Typed u s ctx) (h : e.WellTyped u s ctx)
    (hr : e.receiversHaveValues) : Gives (Link.Fits u.catalog e) (chain s base fr n e) := by
  cases e with
  | member x f =>
    obtain ⟨hx, hconv, name, hf⟩ := h
    simp only [receiversHaveValues, Bool.and_eq_true, Bool.not_eq_true'] at hr
    have hread := Ty.readField_gives hu (hx.formed hu hs hctx) hf
    rw [chain]
    exact access_fits (chain_fits hn hu hs x n hctx hfr hx hr.2) hconv hr.1 rfl rfl
      fun v hv => hread.2 _ hv
  | call x m args =>
    obtain ⟨hx, hconv, hstatic, ⟨name, k, hm⟩, hargs, hparams⟩ := h
    simp only [receiversHaveValues, Bool.and_eq_true, Bool.not_eq_true'] at hr
    have hmethod := Ty.overloads_sound hu (hx.formed hu hs hctx) hm
    have hvals := chainList_fits hn hu hs args n hctx hfr hargs hr.2
    rw [hparams] at hvals
    have hx' := chain_fits hn hu hs x (afterList base n args) hctx hfr hx hr.1.2
    rw [chain]
    refine access_fits hx' hconv hr.1.1 rfl rfl fun v hv => ?_
    rw [hv.2, if_neg Bool.false_ne_true]
    exact hvals.bind fun vals hvals =>
      Method.applyMethod_gives _ hmethod.2.2.2 (fun _ => hv) hvals
  | index x k t =>
    obtain ⟨hx, hconv, hk, hint, p, hp⟩ := h
    simp only [receiversHaveValues, Bool.and_eq_true] at hr
    have hx' := chain_fits hn hu hs x (after base n k) hctx hfr hx hr.1
    rw [chain]
    refine access_fits hx' hconv (by rw [hp]; rfl) rfl rfl fun v hv => ?_
    refine (chain_fits hn hu hs k n hctx hfr hk hr.2).bind fun link hlink => ?_
    have hkey := (getD_fits hlink).1
    rw [hint] at hkey ⊢
    rw [hp] at hv
    exact readElement_gives (label_type base n (.index x k t)) hv hkey
  | callStatic m args =>
    obtain ⟨hstatic, ⟨t, name, k, ht, hm⟩, hargs, hparams⟩ := h
    rw [chain]
    refine (chainList_fits hn hu hs args n hctx hfr hargs hr).bind fun vals hvals => ?_
    rw [hparams] at hvals
    refine (Method.applyMethod_gives _ (Ty.overloads_sound hu ht hm).2.2.2
      (fun h => absurd (hstatic.symm.trans h) (by simp)) hvals).bind fun v hv => ?_
    exact fits_of_type hv rfl rfl
  | unary op x =>
    rw [chain]
    refine (chain_fits hn hu hs x n hctx hfr h.1 hr).bind fun link hlink => ?_
    have hv := (getD_fits hlink).1
    simp only
    split
    · exact fits_of_type hv rfl rfl
    · rename_i hnull
      refine (applyUnary_gives _ hv (by simpa using hnull) ?_).bind fun w hw => ?_
      · cases op <;> exact h.2
      · exact fits_of_type hw rfl rfl
  | binary op x y t =>
    simp only [receiversHaveValues, Bool.and_eq_true] at hr
    rw [chain]
    refine (chain_fits hn hu hs x n hctx hfr h.1 hr.1).bind fun link hlink => ?_
    have hy := chain_fits hn hu hs y (after base n x) hctx hfr h.2.1 hr.2
    refine (applyBinary_gives hn _ (h.1.formed hu hs hctx) (h.2.1.formed hu hs hctx) h.2.2
      (getD_fits hlink).1 (getD_gives hy)).bind fun v hv => ?_
    exact fits_of_type hv rfl rfl
  | cond c a b t =>
    obtain ⟨hc, ha, hb, hat, hbt⟩ := h
    simp only [receiversHaveValues, Bool.and_eq_true] at hr
    rw [chain]
    refine (chain_fits hn hu hs c n hctx hfr hc hr.1).bind fun link _ => ?_
    split
    · refine (chain_fits hn hu hs a _ hctx hfr ha hr.2.1).bind fun link hlink => ?_
      exact fits_of_type (hat ▸ (getD_fits hlink).1) rfl rfl
    · refine (chain_fits hn hu hs b _ hctx hfr hb hr.2.2).bind fun link hlink => ?_
      exact fits_of_type (hbt ▸ (getD_fits hlink).1) rfl rfl
  | convert k x t =>
    rw [chain]
    refine (chain_fits hn hu hs x n hctx hfr h.1 hr).bind fun link hlink => ?_
    exact ⟨applyConversion_gives h.2 (getD_fits hlink).1, (nomatch ·), (nomatch ·)⟩
  | lambda ps b t =>
    obtain ⟨rfl, hformed, hnodup, hfresh, hb⟩ := h
    rw [chain]
    refine ⟨fun args hargs => ?_, fun _ _ => rfl, (nomatch ·)⟩
    exact (getD_gives (chain_fits hn hu hs b n (formed_params hformed.1 hctx)
      (hfr.bindAll hargs hnodup hfresh) hb hr)).mono fun v hv => hv.1
  | list xs t =>
    obtain ⟨hxs, hformed, e, p, rfl, hall⟩ := h
    rw [chain]
    refine (chainList_fits hn hu hs xs n hctx hfr hxs hr).bind fun vs hvs => ?_
    refine ⟨.of_value (.list none fun v hv => ?_), fun _ _ => rfl, (nomatch ·)⟩
    obtain ⟨x, hx, rfl⟩ := List.mem_map.1 hv
    exact (hasType_of_mem hvs (by simpa using hall) hx).toValue
  | guard => exact absurd h id
  | param name owner p =>
    cases p with
    | none =>
      obtain ⟨k, hk⟩ := h
      simp only [chain, eval, levelsOut_ancestor hk name]
      cases hv : fr.vms[k]? with
      | none => exact .eval _ rfl (by simp)
      | some v =>
        obtain ⟨ht, hne⟩ := hfr.vms k v _ hv (Scope.ancestor_level hk)
        exact ⟨.of_value ht, fun _ _ => isNull_value_of_ne hne, (nomatch ·)⟩
    | some p =>
      obtain ⟨⟨k, hk⟩, hp⟩ := h
      simp only [chain, eval, levelsOut_ancestor hk name, readParam]
      cases hc : fr.control with
      | none => exact .eval _ rfl (by simp)
      | some control =>
        cases hv : control p k with
        | none => simp only [hv]; exact .eval _ rfl (by simp)
        | some v =>
          simp only [hv]
          obtain ⟨ht, hne⟩ := hfr.control control hc k _ p v (Scope.ancestor_level hk) hp hv
          refine ⟨.of_value ht, fun _ _ => ?_, (nomatch ·)⟩
          exact (HasType.normalize_isNull p.type v).trans (isNull_value_of_ne hne)
  | var l =>
    simp only [chain, eval]
    exact fits_of_type (hfr.vars l h.1) h.2 rfl
  | const v t =>
    simp only [chain, eval]
    refine ⟨.of_value h.1, fun _ hk => ?_, fun hnull => ?_⟩
    · exact (by simpa [knownNonNull] using hk : v.isNull = false)
    · cases v <;> first | rfl | cases hnull
  | typeRef t =>
    simp only [chain, eval]
    exact .diagnosis _ _ _

theorem chainList_fits (hn : u.WellNamed) (hu : u.Sound) (hs : s.Formed u) (es : List Expr)
    {ctx : List Local} {fr : Frame} (n : Nat)
    (hctx : ∀ l ∈ ctx, l.type.Formed u) (hfr : fr.Typed u s ctx) (h : WellTypedAll u s ctx es)
    (hr : receiversHaveValuesAll es) :
    Gives (List.Forall₂ (Operand.HasType u.catalog) (es.map type)) (chainList s base fr n es) := by
  cases es with
  | nil => exact .nil
  | cons x xs =>
    simp only [receiversHaveValuesAll, Bool.and_eq_true] at hr
    rw [chainList]
    refine (chain_fits hn hu hs x n hctx hfr h.1 hr.1).bind fun link hlink => ?_
    refine (chainList_fits hn hu hs xs _ hctx hfr h.2 hr.2).bind fun vs hvs => ?_
    exact .cons (getD_fits hlink).1 hvs

end

end

/-- A well-typed expression evaluates with its guards to a value of its type, or fails with an error
that is not about null. -/
theorem guardNulls_gives (hn : u.WellNamed) (hu : u.Sound) (hs : s.Formed u) {e : Expr} {fr : Frame}
    (hfr : fr.Typed u s []) (he : e.WellTyped u s []) (hr : e.receiversHaveValues) :
    Gives (Operand.HasType u.catalog e.type) (e.guardNulls.eval s fr) := by
  rw [guardNulls_eval, meaning]
  exact (getD_gives (chain_fits _ hn hu hs e 0 (by simp) hfr he hr)).mono fun v hv => hv.1

end Expr

end Bindery
