import Bindery.Proofs.PureEnvironment

/-!
# The environment of bindings is parametric

What the scripts of bindings run on is parametric, if the comparison of identities is
(`environmentWith_pathParametric`). Cells note that they are read, but nothing depends on the notes.
It is pure if the comparison does not tell new things apart.
-/

namespace Bindery.Client

section

variable {R : Value → Value → Prop} {d : Value}

theorem getD_rel {xs ys : List Value} (h : List.Forall₂ R xs ys) (hd : R d d) (i : Nat) :
    R (xs.getD i d) (ys.getD i d) := by
  induction h generalizing i with
  | nil => exact hd
  | cons hv _ ih =>
    cases i with
    | zero => exact hv
    | succ i => exact ih i

theorem headD_rel {xs ys : List Value} (h : List.Forall₂ R xs ys) (hd : R d d) :
    R (xs.headD d) (ys.headD d) := by
  cases h with
  | nil => exact hd
  | cons hv _ => exact hv

theorem optionGetD_rel {a b : Option Value} (h : Option.Rel R a b) (hd : R d d) :
    R (a.getD d) (b.getD d) := by
  cases h with
  | none => exact hd
  | some hv => exact hv

end

variable {P : Text → Text → Prop} {K : Comparison} {w : K.World}
  {R : K.World → Value → Value → Prop} {c c' : Caller}

namespace PathFamily

variable (hR : PathFamily P K R)

include hR

theorem native (f : Native) : R w (.native f) (.native f) := hR.of_alike rfl (.native f)

theorem method (f : Option Native) :
    R w ((f.map Value.native).getD .undefined) ((f.map Value.native).getD .undefined) := by
  cases f with
  | none => exact hR.undefined
  | some f => exact hR.native f

theorem member {v v' : Value} (n : Text) (h : R w v v') : K.Rel w R (member v n) (member v' n) := by
  have hprim {v : Value} (hv : v.isPrimitive) : K.Rel w R (pure v) (pure v) :=
    .pure (hR.of_isPrimitive hv)
  cases hR.alike h with
  | undefined | null => exact .throw _ _
  | text t =>
    simp only [Client.member]
    split
    · exact hprim rfl
    split
    · rename_i i _
      unfold unitAt
      split <;> exact hprim rfl
    · exact .pure (hR.method _)
  | array hid hitems =>
    simp only [Client.member, hitems.length_eq]
    split
    · exact hprim rfl
    split
    · exact .pure (getD_rel hitems hR.undefined _)
    · exact .pure (hR.method _)
  | object hid hkeys hfields =>
    exact .pure (optionGetD_rel (lookup_rel hkeys hfields n) hR.undefined)
  | native f => exact .pure (hR.method _)
  | _ => exact .pure hR.undefined

theorem ownPrimitive (hc : CallerRel K w R c c') {v v' : Value} (hv : R w v v')
    {fs gs : Record Value} (hkeys : fs.map (·.1) = gs.map (·.1))
    (hfields : List.Forall₂ (R w) (fs.map (·.2)) (gs.map (·.2))) (name : Text) :
    K.Rel w (fun w' => Option.Rel (R w')) (ownPrimitive c v fs name)
      (ownPrimitive c' v' gs name) := by
  have hlookup := lookup_rel hkeys hfields name
  unfold Client.ownPrimitive
  generalize fs.get? name = a at hlookup
  generalize gs.get? name = b at hlookup
  cases hlookup with
  | none => exact .pure .none
  | some hf =>
    simp only [(hR.alike hf).isCallable_eq]
    split
    · refine (hc (K.le_refl w) hf hv .nil).bind fun w' r r' _ hr => .pure ?_
      rw [(hR.alike hr).isPrimitive_eq]
      split
      · exact .some hr
      · exact .none
    · exact .pure .none

end PathFamily

mutual

theorem primitive_rel (hR : PathFamily P K R) (preferText : Bool) :
    (v : Value) → ∀ {w : K.World} (v'), CallerRel K w R c c' → R w v v' →
    K.Rel w R (primitive c preferText v) (primitive c' preferText v')
  | .array i xs, w, v', hc, h => by
    obtain ⟨j, ys, rfl, hitems⟩ : ∃ j ys, v' = .array j ys ∧ List.Forall₂ (R w) xs ys := by
      cases hR.alike h with
      | array _ hitems => exact ⟨_, _, rfl, hitems⟩
    simp only [primitive]
    exact (primitiveTexts_rel hR xs ys hc hitems).bind fun _ a b _ hab =>
      .pure (hab ▸ hR.of_isPrimitive rfl)
  | .object i fs, w, v', hc, h => by
    have halike := hR.alike h
    obtain ⟨j, gs, rfl, hkeys, hfields⟩ : ∃ j gs, v' = .object j gs ∧
        fs.map (·.1) = gs.map (·.1) ∧ List.Forall₂ (R w) (fs.map (·.2)) (gs.map (·.2)) := by
      cases halike with
      | object _ hkeys hfields => exact ⟨_, _, rfl, hkeys, hfields⟩
    simp only [primitive]
    refine (hR.ownPrimitive hc h hkeys hfields _).bind fun w₁ a b hle hab => ?_
    cases hab with
    | some hr => exact .pure hr
    | none =>
      refine (hR.ownPrimitive (hc.mono hle) (hR.mono hle h) hkeys (hR.forall₂ hle hfields) _).bind
        fun w₂ a b _ hab => ?_
      cases hab with
      | some hr => exact .pure hr
      | none =>
        have hlookup := lookup_rel hkeys hfields "toString"
        generalize Record.get? "toString" fs = a at hlookup
        generalize Record.get? "toString" gs = b at hlookup
        cases hlookup with
        | some _ => exact .throw _ _
        | none => exact .pure (hR.of_isPrimitive rfl)
  | .undefined, w, v', _, h | .null, w, v', _, h | .bool b, w, v', _, h | .number n, w, v', _, h
  | .text t, w, v', _, h => by
    cases hR.alike h
    exact .pure h
  | .cell .., w, v', _, h | .computed .., w, v', _, h | .closure .., w, v', _, h => by
    cases hR.alike h
    exact .pure (hR.of_isPrimitive rfl)
  | .native f, w, v', _, h => by
    cases hR.alike h
    cases f <;> exact .pure (hR.of_isPrimitive rfl)

theorem primitiveTexts_rel (hR : PathFamily P K R) : (xs : List Value) → ∀ {w : K.World} (ys),
    CallerRel K w R c c' → List.Forall₂ (R w) xs ys →
    K.Rel w (fun _ => (· = ·)) (primitiveTexts c xs) (primitiveTexts c' ys)
  | [], w, ys, _, h => by
    cases h
    exact .pure rfl
  | v :: vs, w, ys, hc, h => by
    obtain _ | ⟨hv, hvs⟩ := h
    simp only [primitiveTexts]
    refine (primitive_rel hR true v _ hc hv).bind fun w₁ a b hle hab => ?_
    refine (primitiveTexts_rel hR vs _ (hc.mono hle) (hR.forall₂ hle hvs)).bind
      fun w₂ ts us _ htu => ?_
    rw [(hR.alike hv).isNullish_eq, (hR.alike hab).toText_eq, htu]
    exact .pure rfl

end

/-- Comparisons of identities that give the same for things that belong together. -/
def SameRel (K : Comparison) (same same' : Value → Value → Run Bool) : Prop :=
  ∀ {P : Text → Text → Prop} {R : K.World → Value → Value → Prop} {w : K.World},
    PathFamily P K R → ∀ {v v' u u' : Value}, R w v v' → R w u u' →
      K.Rel w (fun _ => (· = ·)) (same v u) (same' v' u')

variable {same same' : Value → Value → Run Bool}

section

variable (hR : PathFamily P K R)

include hR

theorem global_rel (n : Text) : Option.Rel (R w) (global n) (global n) := by
  unfold global
  repeat' split
  all_goals first | exact .none | exact .some (hR.native _) | exact .some (hR.of_isPrimitive rfl)

theorem element_rel (hc : CallerRel K w R c c') {v v' k k' : Value}
    (hv : R w v v') (hk : R w k k') :
    K.Rel w R ((host same c).element v k) ((host same' c').element v' k') := by
  have hrest : K.Rel w R
      (if v.isNullish then throw .thrown
        else do Client.member v (← primitive c true k).toText)
      (if v'.isNullish then throw .thrown
        else do Client.member v' (← primitive c' true k').toText) := by
    rw [(hR.alike hv).isNullish_eq]
    split
    · exact .throw _ _
    · refine (primitive_rel hR true k k' hc hk).bind fun w₁ a b hle hab => ?_
      rw [(hR.alike hab).toText_eq]
      exact hR.member _ (hR.mono hle hv)
  cases hR.alike hv with
  | array hid hitems =>
    cases hR.alike hk with
    | number n =>
      cases n with
      | int n =>
        cases n with
        | ofNat i => exact .pure (getD_rel hitems hR.undefined i)
        | negSucc i => exact hrest
      | _ => exact hrest
    | _ => exact hrest
  | _ => exact hrest

theorem host_rel (hsame : SameRel K same same') (hc : CallerRel K w R c c') :
    HostRel K w R (host same c) (host same' c') where
  global _ := global_rel hR
  member _ n h := hR.member n h
  element hle := element_rel hR (hc.mono hle)
  call := hc
  construct _ _ _ := .throw _ _
  primitive hle preferText h := primitive_rel hR preferText _ _ (hc.mono hle) h
  same _ := hsame hR
  store _ _ _ _ := .throw _ _

/-! ## Calls -/

variable {xs ys : List Value}

theorem select_rel (hc : CallerRel K w R c c') {f f' array array' : Value}
    (hf : R w f f') (harray : R w array array') (h : List.Forall₂ (R w) xs ys) (i : Nat) :
    K.Rel w (fun w' => List.Forall₂ (R w')) (select c f array i xs) (select c' f' array' i ys) := by
  induction xs generalizing w ys i with
  | nil =>
    cases h
    exact .pure .nil
  | cons x xs ih =>
    obtain _ | ⟨hv, hxs⟩ := h
    simp only [select]
    refine (hc (K.le_refl w) hf hR.undefined
      (.cons hv (.cons (hR.of_isPrimitive rfl) (.cons harray .nil)))).bind fun w₁ r r' hle hr => ?_
    refine (ih (hc.mono hle) (hR.mono hle hf) (hR.mono hle harray)
      (hR.forall₂ hle hxs) (i + 1)).bind
      fun w₂ vs us hle' hvs => .pure ?_
    rw [(hR.alike hr).isTrue_eq]
    split
    · exact .cons (hR.mono (K.le_trans hle hle') hv) hvs
    · exact hvs

theorem search_rel (hc : CallerRel K w R c c') {f f' array array' : Value}
    (hf : R w f f') (harray : R w array array') (wanted : Bool) (h : List.Forall₂ (R w) xs ys)
    (i : Nat) :
    K.Rel w (fun _ => (· = ·)) (search c f array wanted i xs)
      (search c' f' array' wanted i ys) := by
  induction xs generalizing w ys i with
  | nil =>
    cases h
    exact .pure rfl
  | cons x xs ih =>
    obtain _ | ⟨hv, hxs⟩ := h
    simp only [search]
    refine (hc (K.le_refl w) hf hR.undefined
      (.cons hv (.cons (hR.of_isPrimitive rfl) (.cons harray .nil)))).bind fun w₁ r r' hle hr => ?_
    rw [(hR.alike hr).isTrue_eq]
    split
    · exact .pure rfl
    · exact ih (hc.mono hle) (hR.mono hle hf) (hR.mono hle harray) (hR.forall₂ hle hxs) (i + 1)

theorem foldNumbers_rel {h h' : Host} (hh : HostRel K w R h h') (f : Number → Number → Number)
    (start : Float) (hxs : List.Forall₂ (R w) xs ys) :
    K.Rel w R (foldNumbers h f start xs) (foldNumbers h' f start ys) := by
  have hmap : K.Rel w (fun _ => (· = ·)) (xs.mapM h.toNumber) (ys.mapM h'.toNumber) := by
    induction xs generalizing w ys with
    | nil =>
      cases hxs
      exact .pure rfl
    | cons x xs ih =>
      obtain _ | ⟨hv, hxs⟩ := hxs
      rw [List.mapM_cons, List.mapM_cons]
      refine (hh.toNumber hR hv).bind fun w₁ a b hle hab => ?_
      exact (ih (hh.mono hle) (hR.forall₂ hle hxs)).bind fun _ as bs _ habs =>
        .pure (by rw [hab, habs])
  exact hR.of_eq (fun _ => rfl) hmap

theorem onText_rel {this this' : Value} (hthis : R w this this')
    {f g : Text → Run Value} (h : ∀ t, K.Rel w R (f t) (g t)) :
    K.Rel w R (callNative.onText this f) (callNative.onText this' g) := by
  cases hR.alike hthis with
  | text t => exact h t
  | _ => exact .throw _ _

theorem callNative_rel {h h' : Host} (hh : HostRel K w R h h') (f : Native)
    {this this' : Value} {args args' : List Value} (hthis : R w this this')
    (hargs : List.Forall₂ (R w) args args') :
    K.Rel w R (callNative h f this args) (callNative h' f this' args') := by
  have harg : R w (args.headD .undefined) (args'.headD .undefined) := headD_rel hargs hR.undefined
  have hnumber (g : Number → Number) :
      K.Rel w R (do return .number (g (← h.toNumber (args.headD .undefined))))
        (do return .number (g (← h'.toNumber (args'.headD .undefined)))) :=
    hR.of_eq (fun _ => rfl) (hh.toNumber hR harg)
  have hpart (g : Text → Text → Bool) : K.Rel w R
      (callNative.onText this fun t => do return .bool (g t (← h.toText (args.headD .undefined))))
      (callNative.onText this' fun t => do
        return .bool (g t (← h'.toText (args'.headD .undefined)))) :=
    onText_rel hR hthis fun t => hR.of_eq (fun _ => rfl) (hh.toText hR harg)
  have htext (g : Text → Text) : K.Rel w R (callNative.onText this fun t => return .text (g t))
      (callNative.onText this' fun t => return .text (g t)) :=
    onText_rel hR hthis fun t => .pure (hR.of_isPrimitive rfl)
  have hfail {f g : PUnit → Run Value} : K.Rel w R (throw .thrown >>= f) (throw .thrown >>= g) :=
    (Comparison.Rel.throw (Q := fun _ _ _ => False) _ _).bind fun _ _ _ _ h => h.elim
  cases f <;> simp only [callNative]
  case unwrap =>
    rw [(hR.alike harg).isCell_eq]
    split
    · exact hh.call (K.le_refl w) harg hR.undefined .nil
    · exact .pure harg
  case pureComputed =>
    exact Comparison.Rel.fresh.bind fun w' i j hle hij =>
      .pure (hR.of_alike rfl (.computed hij (hR.mono hle harg)))
  case max | min => exact foldNumbers_rel hR hh _ _ hargs
  case abs | trunc => exact hnumber _
  case string =>
    have hempty : args.isEmpty = args'.isEmpty := by cases hargs <;> rfl
    rw [hempty]
    split
    · exact .pure (hR.of_isPrimitive rfl)
    · exact hR.of_eq (fun _ => rfl) (hh.toText hR harg)
  case filter =>
    have hthis' := hthis
    cases hR.alike hthis with
    | array hid hitems =>
      simp only [(hR.alike harg).isCallable_eq]
      split
      · exact hfail
      · refine (select_rel hR hh.call harg hthis' hitems 0).bind fun w₁ vs us hle hvs => ?_
        exact Comparison.Rel.fresh.bind fun w₂ i j hle' hij =>
          .pure (hR.of_alike rfl (.array hij (hR.forall₂ hle' hvs)))
    | _ => exact .throw _ _
  case some | every =>
    have hthis' := hthis
    cases hR.alike hthis with
    | array hid hitems =>
      simp only [(hR.alike harg).isCallable_eq]
      split
      · exact hfail
      · exact hR.of_eq (fun _ => rfl) (search_rel hR hh.call harg hthis' _ hitems 0)
    | _ => exact .throw _ _
  case hasElement =>
    cases hR.alike hthis with
    | array hid hitems => exact hR.of_eq (fun _ => rfl) (hh.hasElement hR harg hitems)
    | _ => exact .throw _ _
  case hasPart | startsWith | endsWith => exact hpart _
  case trim | toUpperCase | toLowerCase => exact htext _
  case ko | math => exact .throw _ _

end

/-- What the scripts of bindings run on is parametric, up to the comparison of identities. -/
theorem environmentWith_rel (hsame : SameRel K same same')
    (hP : K.varies → ∀ path path', P path path' → path = path') :
    (environmentWith same).Rel P K (environmentWith same') where
  host hR hc := host_rel hR hsame hc
  call {R w c c'} hR hc f f' this this' args args' hclosure hf hthis hargs := by
    have hempty : args.isEmpty = args'.isEmpty := by cases hargs <;> rfl
    cases hR.alike hf with
    | cell hid hpath hv =>
      simp only [environmentWith, hempty]
      split
      · exact (Comparison.Rel.noteRead fun hK => hP hK _ _ hpath).bind fun _ _ _ hle _ =>
          .pure (hR.mono hle hv)
      · exact .pure hR.undefined
    | computed hid hg => exact hc (K.le_refl w) hg hR.undefined .nil
    | native f => exact callNative_rel hR (host_rel hR hsame hc) f hthis hargs
    | closure => cases hclosure
    | _ => exact .throw _ _

theorem environmentWith_parametric (hsame : SameRel K same same) :
    (environmentWith same).Parametric K :=
  environmentWith_rel hsame fun _ _ _ => id

/-- What the scripts of bindings run on is pure, if identities are not compared. -/
theorem environmentWith_throw_pure (base : Nat) :
    (environmentWith fun _ _ => throw .thrown).Pure base :=
  environmentWith_parametric fun _ _ _ _ _ _ _ => .throw _ _

end Bindery.Client
