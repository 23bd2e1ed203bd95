import Bindery.Proofs.StoredForms
import Bindery.Proofs.TypeSoundness

/-!
# Reading does not depend on the forms of fields

A bound expression reads alike in data contexts that differ in the forms of what their fields hold
(`Reader.read_alike`): both reads fail in the same way, or their results are alike. Texts may only
be made of scalars (`Expr.textsOfScalars`).

Data contexts and the elements of lists are not brought into a standard form when they are read, so
their own forms do show (`Freight.contains_tells_forms`).
-/

namespace Bindery

namespace Expr

mutual

/-- Where an expression makes a text of an operand, the operand is of a scalar type. -/
def textsOfScalars : Expr → Bool
  | .member x _ => textsOfScalars x
  | .call x m args =>
    (!(m.owner == .any) || x.type.kind.isScalar) && textsOfScalars x && textsOfScalarsAll args
  | .callStatic _ args => textsOfScalarsAll args
  | .index x k _ => textsOfScalars x && textsOfScalars k
  | .unary _ x => textsOfScalars x
  | .binary op x y t =>
    (!(op == .add && t.kind == .string) || x.type.kind.isScalar && y.type.kind.isScalar) &&
      (textsOfScalars x && textsOfScalars y)
  | .cond c t e _ => textsOfScalars c && (textsOfScalars t && textsOfScalars e)
  | .convert .toText x _ => x.type.kind.isScalar && textsOfScalars x
  | .convert _ x _ => textsOfScalars x
  | .lambda _ b _ => textsOfScalars b
  | .list xs _ => textsOfScalarsAll xs
  | .guard x _ b _ => textsOfScalars x && textsOfScalars b
  | _ => true

def textsOfScalarsAll : List Expr → Bool
  | [] => true
  | x :: xs => textsOfScalars x && textsOfScalarsAll xs

end

end Expr

/-! ## Frames -/

/-- Data contexts for a scope are alike, from the innermost out. -/
structure Scope.AlikeContexts (c : Catalog) (s : Scope) (vms vms' : List Value) : Prop where
  length : vms.length = vms'.length
  alike : ∀ (i : Nat) v v' l, vms[i]? = some v → vms'[i]? = some v' → s.levels[i]? = some l →
    v.Alike c l.dataType v'

/-- The frames have the same control, alike data contexts and alike variables. -/
structure Frame.Alike (c : Catalog) (s : Scope) (ctx : List Local) (fr fr' : Frame) : Prop where
  vms : s.AlikeContexts c fr.vms fr'.vms
  control : fr.control = fr'.control
  vars : ∀ l ∈ ctx, (fr.get l.id).Alike c l.type (fr'.get l.id)

namespace Frame.Alike

variable {c : Catalog} {s : Scope} {ctx : List Local} {fr fr' : Frame}

theorem bind (h : Alike c s ctx fr fr') {l : Local} {x x' : Operand} (hx : x.Alike c l.type x')
    (hl : ∀ l' ∈ ctx, l.id ≠ l'.id) : Alike c s (l :: ctx) (fr.bind l x) (fr'.bind l x') where
  vms := h.vms
  control := h.control
  vars l' hl' := by
    rw [get_bind, get_bind]
    rcases List.mem_cons.1 hl' with rfl | hl'
    · rw [if_pos rfl, if_pos rfl]
      exact hx
    · rw [if_neg (hl l' hl'), if_neg (hl l' hl')]
      exact h.vars l' hl'

theorem bindAll (h : Alike c s ctx fr fr') {ls : List Local} {vs vs' : List Value}
    (hvs : Each (Value.Alike c) (ls.map (·.type)) vs vs') (hnodup : (ls.map (·.id)).Nodup)
    (hfresh : ∀ l ∈ ls, ∀ l' ∈ ctx, l.id ≠ l'.id) :
    Alike c s (ls.reverse ++ ctx) (fr.bindAll ls vs) (fr'.bindAll ls vs') := by
  induction ls generalizing fr fr' ctx vs vs' with
  | nil => cases hvs; exact h
  | cons l ls ih =>
    cases hvs with
    | cons hv hvs =>
      rw [List.map_cons, List.nodup_cons] at hnodup
      have hbind := h.bind (.of_value hv) (hfresh l (by simp))
      have hall := ih hbind hvs hnodup.2 (Local.fresh_cons hnodup.1 hfresh)
      rw [List.reverse_cons, List.append_assoc]
      exact hall

end Frame.Alike

/-! ## Evaluation -/

/-- The chains end at the same link, or with alike values. -/
def Link.Alike (c : Catalog) (t : Ty) : Link → Link → Prop
  | .reached v, .reached v' => v.Alike c t v'
  | .broken, .broken => True
  | _, _ => False

theorem Link.Alike.getD {c : Catalog} {t : Ty} {link link' : Link} (h : Alike c t link link') :
    (link.getD t).Alike c t (link'.getD t) := by
  match link, link', h with
  | .reached _, .reached _, h => exact h
  | .broken, .broken, _ => exact .same t _

namespace Expr

variable {u : Universe} {s : Scope} {ctx : List Local} {c : Catalog}

theorem getD_alike {t : Ty} {r r' : Except Fault Link} (h : Both (Link.Alike c t) r r') :
    Both (Operand.Alike c t) (do return (← r).getD t) (do return (← r').getD t) :=
  h.bind fun _ _ hlink => hlink.getD

theorem access_alike {x : Expr} {t : Ty} {r r' : Except Fault Link}
    {act act' : Operand → Except Fault Operand} (hr : Both (Link.Alike c x.type) r r')
    (hact : ∀ v v', v.Alike c x.type v' → Both (Operand.Alike c t) (act v) (act' v')) :
    Both (Link.Alike c t) (do (← r).access x.stopsAt act) (do (← r').access x.stopsAt act') := by
  refine hr.bind fun link link' hlink => ?_
  match link, link', hlink with
  | .broken, .broken, _ => trivial
  | .reached v, .reached v', hlink =>
    have hstop : x.stopsAt v = x.stopsAt v' := by
      rw [stopsAt, stopsAt, Operand.Alike.isNull_eq hlink]
    rw [Link.access, Link.access, hstop]
    split
    · trivial
    · exact (hact v v' hlink).bind fun w w' hw => hw

theorem applyConversion_alike {k : Conversion} {t t' : Ty} {v v' : Operand}
    (h : Converts u k t t') (hv : v.Alike c t v') :
    (applyConversion k t' v).Alike c t' (applyConversion k t' v') := by
  have box (x : Operand) : applyConversion .box t' x = x := by cases x <;> rfl
  have lift (x : Operand) : applyConversion .lift t' x = x := by cases x <;> rfl
  cases k with
  | box =>
    rw [box, box]
    rcases h with rfl | ⟨hk, p, rfl, -⟩
    · exact hv.any
    · obtain ⟨w, w', rfl, rfl, hw⟩ := hv.eq_values (by simp [hk]) (by simp [hk])
      exact .of_value (hw.box_list hk)
  | lift =>
    rw [lift, lift]
    exact (h.1 ▸ hv).of_underlying
  | numeric => exact applyConversion_scalar .numeric hv (by rw [h.1]; rfl)
  | _ => exact absurd h id

theorem forall_toValue {e : Ty} {ts : List Ty} {vs vs' : List Operand}
    (h : Each (Operand.Alike c) ts vs vs') (hts : ∀ t ∈ ts, t = e) :
    List.Forall₂ (Value.Alike c e) (vs.map Operand.toValue) (vs'.map Operand.toValue) := by
  induction h with
  | nil => exact .nil
  | cons hv _ ih =>
    have hv := hv.toValue
    rw [hts _ List.mem_cons_self] at hv
    exact .cons hv (ih fun t ht => hts t (List.mem_cons_of_mem _ ht))

theorem chain_nullConst {y : Expr} (hy : y.isNullConst) (base : Nat) (fr : Frame) (n : Nat) :
    (do return (← chain s base fr n y).getD y.type : Except Fault Operand) =
      .ok (.value .null) := by
  cases y with
  | const v t => cases v <;> first | rfl | cases hy
  | _ => cases hy

section

variable (base : Nat)

mutual

/-- The chain of a well-typed expression ends alike in alike frames. -/
theorem chain_alike (hn : u.WellNamed) (hu : u.Sound) (hr : u.Respectful) (hs : s.Formed u)
    (e : Expr) {ctx : List Local} {fr fr' : Frame} (n : Nat)
    (hctx : ∀ l ∈ ctx, l.type.Formed u) (hfr : fr.Alike u.catalog s ctx fr')
    (h : e.WellTyped u s ctx) (ht : e.textsOfScalars) :
    Both (Link.Alike u.catalog e.type) (chain s base fr n e) (chain s base fr' n e) := by
  cases e with
  | member x f =>
    obtain ⟨hx, -, name, hf⟩ := h
    rw [chain, chain]
    exact access_alike (chain_alike hn hu hr hs x n hctx hfr hx ht) fun v v' hv =>
      Ty.readField_alike hu hr (hx.formed hu hs hctx) hf _ hv
  | call x m args =>
    obtain ⟨hx, -, -, ⟨name, k, hm⟩, hargs, hparams⟩ := h
    simp only [textsOfScalars, Bool.and_eq_true] at ht
    have hmethod := Ty.overloads_respect hu hr (hx.formed hu hs hctx) hm fun hany => by
      obtain rfl := List.mem_singleton.1 hany
      exact ht.1.1
    have hvals := chainList_alike hn hu hr hs args n hctx hfr hargs ht.2
    rw [hparams] at hvals
    rw [chain, chain]
    refine access_alike (chain_alike hn hu hr hs x _ hctx hfr hx ht.1.2) fun v v' hv => ?_
    rw [hv.isNull_eq]
    split
    · exact rfl
    · exact hvals.bind fun vals vals' hvals => Method.applyMethod_alike _ hmethod hv hvals
  | index x k t =>
    obtain ⟨hx, -, hk, hint, p, hp⟩ := h
    simp only [textsOfScalars, Bool.and_eq_true] at ht
    rw [chain, chain]
    refine access_alike (chain_alike hn hu hr hs x _ hctx hfr hx ht.1) fun v v' hv => ?_
    refine (chain_alike hn hu hr hs k n hctx hfr hk ht.2).bind fun link link' hlink => ?_
    have hkey := hlink.getD
    rw [hint] at hkey ⊢
    rw [hp] at hv
    exact readElement_alike (label_type base n (.index x k t)) hv hkey
  | callStatic m args =>
    obtain ⟨hstatic, ⟨t, name, k, hformed, hm⟩, hargs, hparams⟩ := h
    rw [chain, chain]
    refine (chainList_alike hn hu hr hs args n hctx hfr hargs ht).bind fun vals vals' hvals => ?_
    rw [hparams] at hvals
    have hmethod := Ty.overloads_respect hu hr hformed hm fun hany => by
      obtain rfl := List.mem_singleton.1 hany
      cases hstatic
    exact (Method.applyMethod_alike _ hmethod (.same t .null) hvals).bind fun v v' hv => hv
  | unary op x =>
    rw [chain, chain]
    refine (chain_alike hn hu hr hs x n hctx hfr h.1 ht).bind fun link link' hlink => ?_
    have hv := hlink.getD
    have hscalar : x.type.kind.isScalar := by
      have hop := h.2
      cases op with
      | not => rw [show x.type.kind = .bool from hop]; rfl
      | _ =>
        cases hk : x.type.kind <;> simp [Defined, hk, Kind.isNumeric] at hop <;> rfl
    simp only [hv.isNull_eq]
    split
    · exact hv
    · exact (applyUnary_alike _ op hv hscalar).bind fun w w' hw => hw
  | binary op x y t =>
    simp only [textsOfScalars, Bool.and_eq_true] at ht
    rw [chain, chain]
    refine (chain_alike hn hu hr hs x n hctx hfr h.1 ht.2.1).bind fun link link' hlink => ?_
    have hy := chain_alike hn hu hr hs y (after base n x) hctx hfr h.2.1 ht.2.2
    refine (applyBinary_alike hn _ (h.1.formed hu hs hctx) (h.2.1.formed hu hs hctx)
      h.2.2 (fun hadd => ?_) hlink.getD (getD_alike hy) fun hnull => ?_).bind fun v v' hv => hv
    · simpa [hadd] using ht.1
    · exact ⟨chain_nullConst hnull base fr _, chain_nullConst hnull base fr' _⟩
  | cond c a b t =>
    obtain ⟨hc, ha, hb, hat, hbt⟩ := h
    simp only [textsOfScalars, Bool.and_eq_true] at ht
    rw [chain, chain]
    refine (chain_alike hn hu hr hs c n hctx hfr hc ht.1).bind fun link link' hlink => ?_
    rw [hlink.getD.isTrue_eq]
    split
    · refine (chain_alike hn hu hr hs a _ hctx hfr ha ht.2.1).bind fun link link' hlink => ?_
      exact hat ▸ hlink.getD
    · refine (chain_alike hn hu hr hs b _ hctx hfr hb ht.2.2).bind fun link link' hlink => ?_
      exact hbt ▸ hlink.getD
  | convert k x t =>
    have htx : x.textsOfScalars := by
      cases k <;> first | exact ht | exact absurd h.2 id
    rw [chain, chain]
    refine (chain_alike hn hu hr hs x n hctx hfr h.1 htx).bind fun link link' hlink => ?_
    exact applyConversion_alike h.2 hlink.getD
  | lambda ps b t =>
    obtain ⟨rfl, hformed, hnodup, hfresh, hb⟩ := h
    rw [chain, chain]
    intro args args' hargs
    exact getD_alike (chain_alike hn hu hr hs b n (formed_params hformed.1 hctx)
      (hfr.bindAll hargs hnodup hfresh) hb ht)
  | list xs t =>
    obtain ⟨hxs, -, e, p, rfl, hall⟩ := h
    rw [chain, chain]
    refine (chainList_alike hn hu hr hs xs n hctx hfr hxs ht).bind fun vs vs' hvs => ?_
    exact .of_value (.of_items none none (forall_toValue hvs (by simpa using hall)))
  | guard => exact absurd h id
  | param name owner p =>
    cases p with
    | none =>
      obtain ⟨k, hk⟩ := h
      simp only [chain, eval, levelsOut_ancestor hk name, ← hfr.vms.length]
      cases hv : fr.vms[k]? with
      | none =>
        rw [List.getElem?_eq_none (hfr.vms.length ▸ List.getElem?_eq_none_iff.1 hv)]
        exact rfl
      | some v =>
        obtain ⟨hlt, -⟩ := List.getElem?_eq_some_iff.1 hv
        rw [List.getElem?_eq_getElem (hfr.vms.length ▸ hlt)]
        exact .of_value (hfr.vms.alike k v _ _ hv (List.getElem?_eq_getElem _)
          (Scope.ancestor_level hk))
    | some p =>
      obtain ⟨⟨k, hk⟩, -⟩ := h
      simp only [chain, eval, levelsOut_ancestor hk name, readParam, ← hfr.control]
      cases fr.control with
      | none => exact rfl
      | some control =>
        cases hv : control p k with
        | none => simp only [hv]; exact rfl
        | some v => simp only [hv]; exact Operand.Alike.same _ _
  | var l =>
    simp only [chain, eval]
    exact hfr.vars l h.1
  | const v t =>
    simp only [chain, eval]
    exact Operand.Alike.same t v
  | typeRef t =>
    simp only [chain, eval]
    exact rfl

theorem chainList_alike (hn : u.WellNamed) (hu : u.Sound) (hr : u.Respectful) (hs : s.Formed u)
    (es : List Expr) {ctx : List Local} {fr fr' : Frame} (n : Nat)
    (hctx : ∀ l ∈ ctx, l.type.Formed u) (hfr : fr.Alike u.catalog s ctx fr')
    (h : WellTypedAll u s ctx es) (ht : textsOfScalarsAll es) :
    Both (Each (Operand.Alike u.catalog) (es.map type)) (chainList s base fr n es)
      (chainList s base fr' n es) := by
  cases es with
  | nil => exact .nil
  | cons x xs =>
    simp only [textsOfScalarsAll, Bool.and_eq_true] at ht
    rw [chainList, chainList]
    refine (chain_alike hn hu hr hs x n hctx hfr h.1 ht.1).bind fun link link' hlink => ?_
    refine (chainList_alike hn hu hr hs xs _ hctx hfr h.2 ht.2).bind fun vs vs' hvs => ?_
    exact .cons hlink.getD hvs

end

end

/-- The expression is well typed, or the text of an expression that is. -/
def Readable (u : Universe) (s : Scope) (e : Expr) : Prop :=
  e.WellTyped u s [] ∨ ∃ x t, e = .convert .toText x t ∧ x.WellTyped u s []

/-- What the type that a binding expects makes of an expression, if it is not a type of
functions. -/
theorem convertTo_readable (hn : u.WellNamed) (hu : u.Sound) (hs : s.Formed u) {e x : Expr}
    (he : e.WellTyped u s []) {dest : Ty} (hdest : dest.Formed u) (hfunc : dest.kind ≠ .func)
    {allowText : Bool} (h : e.convertTo dest allowText = .ok x) : x.Readable u s := by
  have hlambda : e.lambda? dest = none := by
    cases dest with
    | func ps r => exact absurd rfl hfunc
    | _ => rfl
  simp only [convertTo, hlambda, Option.none_or, Option.or_none, ite_self] at h
  split at h
  · obtain rfl := Except.ok.inj h
    exact .inl he
  cases himplicit : e.implicit? dest with
  | some e' =>
    simp only [himplicit, Option.some_or] at h
    obtain rfl := Except.ok.inj h
    have hformed := he.formed hu hs (by simp)
    exact .inl ((Source.implicit_typed s [] hn hformed hdest himplicit).2 he)
  | none =>
    simp only [himplicit, Option.none_or] at h
    split at h
    · rename_i hx
      obtain rfl := Except.ok.inj h
      split at hx
      · exact .inr ⟨e, dest, (Option.some.inj hx).symm, he⟩
      · cases hx
    · cases h

/-- An expression evaluates alike with its guards in alike frames. -/
theorem guardNulls_alike (hn : u.WellNamed) (hu : u.Sound) (hr : u.Respectful) (hs : s.Formed u)
    {e : Expr} {fr fr' : Frame} (hfr : fr.Alike u.catalog s [] fr') (he : e.Readable u s)
    (ht : e.textsOfScalars) :
    Both (Operand.Alike u.catalog e.type) (e.guardNulls.eval s fr) (e.guardNulls.eval s fr') := by
  rw [guardNulls_eval, guardNulls_eval, meaning, meaning]
  refine getD_alike ?_
  rcases he with he | ⟨x, t, rfl, hx⟩
  · exact chain_alike _ hn hu hr hs e 0 (by simp) hfr he ht
  · simp only [textsOfScalars, Bool.and_eq_true] at ht
    rw [chain, chain]
    refine (chain_alike _ hn hu hr hs x 0 (by simp) hfr hx ht.2).bind
      fun link link' hlink => ?_
    exact applyConversion_scalar .toText hlink.getD ht.1

end Expr

/-- A bound expression, converted to the type that a binding expects, reads alike in data contexts
that differ in the forms of what their fields hold, and if it is a scalar it reads the same. -/
theorem Reader.read_alike {u : Universe} (hn : u.WellNamed) (hu : u.Sound) (hr : u.Respectful)
    {src : Text} {scope : Scope} (hs : scope.Formed u) {t : Tree}
    {session session' : Source.Session} (htable : session.table.Formed u) {e x : Expr}
    (hbind : (Source.bind { src, scope, types := u } t).run.run session = (.ok e, session'))
    {dest : Ty} (hdest : dest.Formed u) (hfunc : dest.kind ≠ .func) {allowText : Bool}
    (hcast : e.convertTo dest allowText = .ok x) (htexts : x.textsOfScalars) {r : Reader}
    (hread : compile x scope = .ok r) {vms vms' : List Value}
    (hvms : scope.AlikeContexts u.catalog vms vms') (control : Option Control) :
    Both (Operand.Alike u.catalog x.type) (r.read vms control) (r.read vms' control) ∧
      (x.type.kind.isScalar → r.read vms control = r.read vms' control) := by
  have hwell := Source.bind_wellTyped hn hu hs htable hbind
  obtain ⟨_, -, hread⟩ := bind_ok_iff.1 hread
  obtain rfl := Except.ok.inj hread
  have hframes : Frame.Alike u.catalog scope [] { vms, control } { vms := vms', control } :=
    ⟨hvms, rfl, by simp⟩
  have hboth := Expr.guardNulls_alike hn hu hr hs hframes
    (Expr.convertTo_readable hn hu hs hwell hdest hfunc hcast) htexts
  exact ⟨hboth, Operand.Alike.outcome_eq hboth⟩

/-! ## An application of crates -/

namespace Freight

def crateClass : Declared := ⟨"App.Crate", false, 2⟩

def crate : Ty := .declared crateClass

def members : Declaration where
  fields := [{ name := "Weight", owner := crate, type := .int },
    { name := "Parts", owner := crate, type := .list crate (.func [crate] .bool) },
    { name := "Labels", owner := crate, type := .list .int (.func [.int] .bool) }]

def types : Universe where
  named := Universe.initial.named ++ [(crate.name, crate)]
  catalog := ({} : Catalog).set crateClass members

def scope : Scope := ⟨{ dataType := crate }, []⟩

def newCrate (weight : Value) (parts labels : List Value) : Value :=
  .object none [("Weight", weight), ("Parts", .list none parts), ("Labels", .list none labels)]

theorem types_wellNamed : types.WellNamed :=
  Universe.initial_wellNamed.add (d := crateClass) (by decide) (by decide) _

theorem crate_formed : crate.Formed types := List.mem_append_right _ (List.mem_singleton_self _)

theorem get_none {f : Field} (hf : f ∈ members.fields) : f.get = none := by
  simp only [members, List.mem_cons, List.not_mem_nil, or_false] at hf
  rcases hf with rfl | rfl | rfl <;> rfl

theorem members_sound : members.Sound types crateClass where
  fieldType f hf := by
    simp only [members, List.mem_cons, List.not_mem_nil, or_false] at hf
    rcases hf with rfl | rfl | rfl
    · trivial
    · exact ⟨crate_formed, rfl⟩
    · exact ⟨trivial, rfl⟩
  methodType _ hm := nomatch hm
  getter f hf get hget := by
    rw [get_none hf] at hget
    cases hget
  method _ hm := nomatch hm

theorem types_sound : types.Sound where
  math := rfl
  resources := rfl
  host d hd hmath hres := by
    obtain rfl := Universe.eq_of_named hd hmath hres
    exact members_sound
  stored := by rintro _ _ ⟨⟩

theorem types_respectful : types.Respectful where
  field d hd hmath hres f hf get hget := by
    obtain rfl := Universe.eq_of_named hd hmath hres
    rw [get_none hf] at hget
    cases hget
  method d hd hmath hres m hm := by
    obtain rfl := Universe.eq_of_named hd hmath hres
    cases hm
  stored := by rintro _ _ ⟨⟩

theorem scope_formed : scope.Formed types := by
  intro l hl
  obtain rfl := List.mem_singleton.1 hl
  exact ⟨crate_formed, fun p hp => nomatch hp⟩

theorem newCrate_alike {w w' : Value} (hw : w.normalize .int = w'.normalize .int)
    {parts parts' : List Value}
    (hparts : List.Forall₂ (Value.Alike types.catalog crate) parts parts') (labels : List Value) :
    Value.Alike types.catalog crate (newCrate w parts labels) (newCrate w' parts' labels) := by
  refine .object none none fun f hf _ => ?_
  have hf : f ∈ members.fields := hf
  simp only [members, List.mem_cons, List.not_mem_nil, or_false] at hf
  rcases hf with rfl | rfl | rfl
  · exact (show w.normalize .int = w'.normalize .int from hw) ▸ .same _ _
  · exact .of_items none none hparts
  · exact .same _ _

/-- `Parts.Any(p => p.Weight / 2 >= Weight)` -/
def hasHeavyPart : Tree :=
  .call (.dot (.ident 1 "Parts") "Any") [.arrow 11 ⟨[some "p"], false⟩ (some (.binary ">="
    (.binary "/" (.dot (.ident 16 "p") "Weight") (.number 27 (.int 2))) (.ident 32 "Weight")))]

/-- `Labels.Contains(1)` -/
def isLabelled : Tree := .call (.dot (.ident 1 "Labels") "Contains") [.number 17 (.int 1)]

def nested (outer inner : Value) : Value := newCrate outer [newCrate inner [] []] []

theorem nested_alike {w w' v v' : Value} (hw : w.normalize .int = w'.normalize .int)
    (hv : v.normalize .int = v'.normalize .int) :
    scope.AlikeContexts types.catalog [nested w v] [nested w' v'] where
  length := rfl
  alike i x x' l hx hx' hl := by
    cases i with
    | zero =>
      obtain rfl := Option.some.inj hx
      obtain rfl := Option.some.inj hx'
      obtain rfl := Option.some.inj hl
      exact newCrate_alike hw (.cons (newCrate_alike hv .nil []) .nil) []
    | succ i => cases hx

/-- Weights in loose forms read as those in standard form. -/
theorem read_alike_hasHeavyPart : ∃ e session r,
    (Source.bind { src := ∅, scope, types } hasHeavyPart).run.run {} = (.ok e, session) ∧
    e.convertTo .bool true = .ok e ∧ e.textsOfScalars ∧ Reader.compile e scope = .ok r ∧
    r.read [nested (.int 3) (.int 7)] none = .ok (.value (.bool true)) ∧
    r.read [nested (.loose (.word 3)) (.loose (.int32 7))] none = .ok (.value (.bool true)) := by
  obtain ⟨e, session, r, hbind, hcast, htexts, hr, htype, hread⟩ : ∃ e session r,
      (Source.bind { src := ∅, scope, types } hasHeavyPart).run.run {} = (.ok e, session) ∧
      e.convertTo .bool true = .ok e ∧ e.textsOfScalars ∧ Reader.compile e scope = .ok r ∧
      e.type = .bool ∧ r.read [nested (.int 3) (.int 7)] none = .ok (.value (.bool true)) :=
    ⟨_, _, _, rfl, rfl, rfl, rfl, rfl, rfl⟩
  have htable : ({} : Source.Session).table.Formed types := fun _ h => nomatch h
  have houter : Value.normalize .int (.loose (.word 3)) = Value.normalize .int (.int 3) := rfl
  have hinner : Value.normalize .int (.loose (.int32 7)) = Value.normalize .int (.int 7) := rfl
  have hsame := (Reader.read_alike types_wellNamed types_sound types_respectful scope_formed htable
    hbind (show Ty.bool.Formed types from trivial) (by simp [Ty.kind, Ty.bool]) hcast htexts hr
    (nested_alike houter hinner) none).2 (by rw [htype]; rfl)
  exact ⟨e, session, r, hbind, hcast, htexts, hr, hread, hsame.trans hread⟩

/-- The forms of the elements of a list show, though they are the same in standard form. -/
theorem contains_tells_forms :
    Value.normalize .int (.loose (.word 1)) = Value.normalize .int (.int 1) ∧ ∃ e session r,
    (Source.bind { src := ∅, scope, types } isLabelled).run.run {} = (.ok e, session) ∧
    e.convertTo .bool true = .ok e ∧ e.textsOfScalars ∧ Reader.compile e scope = .ok r ∧
    r.read [newCrate (.int 3) [] [.loose (.word 1)]] none = .ok (.value (.bool false)) ∧
    r.read [newCrate (.int 3) [] [.int 1]] none = .ok (.value (.bool true)) :=
  ⟨rfl, _, _, _, rfl, rfl, rfl, rfl, rfl, rfl⟩

end Freight

end Bindery
