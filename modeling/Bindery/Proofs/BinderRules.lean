import Bindery.Proofs.ExprTyping
import Bindery.Proofs.Utf8Text
import Bindery.Source.Binder

/-!
# Rules of binding

What `Source.bind` establishes is proved once, for all rules that the parts of a typed expression
may follow (`Source.bind_holds`). `Rules` says what is known about types, scopes, errors and
expressions, and from which sessions steps give the same; `Rules.Lawful` says that every production
of the binder keeps to it.
-/

namespace Bindery

/-! ## Syntax trees -/

namespace Tree

mutual

/-- The names and texts that matter to a binding are UTF-8. -/
def isClean : Tree → Bool
  | .ident _ name => name.isUtf8
  | .number _ (.big literal) => literal.isUtf8
  | .string _ t => t.isUtf8
  | .dot x name => isClean x && name.isUtf8
  | .index x key => isClean x && isClean key
  | .call f args => isClean f && areClean args
  | .unary _ _ x => isClean x
  | .binary _ x y => isClean x && isClean y
  | .cond c t e => isClean c && isClean t && isClean e
  | .array _ items => areCleanItems items
  | .arrow _ ps none => namesClean ps
  | .arrow _ ps (some body) => namesClean ps && isClean body
  | _ => true
where
  /-- The names of parameters are UTF-8. -/
  namesClean (ps : ParamList) : Bool := ps.params.all fun
    | some name => name.isUtf8
    | none => true

def areClean : List Tree → Bool
  | [] => true
  | x :: xs => isClean x && areClean xs

def areCleanItems : List (Option Tree) → Bool
  | [] => true
  | none :: rest => areCleanItems rest
  | some x :: rest => isClean x && areCleanItems rest

end

end Tree

/-! ## Scopes -/

namespace Scope

variable {s owner : Scope} {p : Param → Bool} {q : Param} {innermost : Bool}

/-- A parameter is found at a level of the chain that declares it. -/
theorem findIn_some : (levels : List Level) → (innermost : Bool) →
    findIn p innermost levels = some (q, owner) →
    ∃ k, ofLevels? (levels.drop k) = some owner ∧ q ∈ owner.level.params
  | [], _, h => nomatch h
  | l :: ls, innermost, h => by
    rw [findIn] at h
    split at h
    · rename_i q' hq
      obtain ⟨rfl, rfl⟩ := Prod.mk.inj (Option.some.inj h)
      exact ⟨0, rfl, List.mem_of_find?_eq_some hq⟩
    · obtain ⟨k, hk, hq⟩ := findIn_some ls false h
      exact ⟨k + 1, hk, hq⟩

theorem ancestor_root (s : Scope) : s.ancestor? s.depth = some s.root := by
  cases hl : s.outer.getLast? with
  | none =>
    have hnil : s.outer = [] := List.getLast?_eq_none_iff.1 hl
    simp [root, ancestor?, depth, levels, hnil, ofLevels?]
    cases s
    simp_all
  | some l =>
    obtain ⟨ls, hls⟩ := List.getLast?_eq_some_iff.1 hl
    have hdrop : s.levels.drop s.depth = [l] := by
      simp [levels, depth, hls]
    rw [ancestor?, hdrop, root, hl]
    rfl

end Scope

theorem Universe.eq_of_lookup {u : Universe} {name : Text} {namespaces : List Text} {t : Ty}
    (h : u.lookup name namespaces = some t) : (∃ b, t = .basic b) ∨ ∃ e ∈ u.named, e.2 = t := by
  have find {name : Text} (h : u.find? name = some t) : ∃ e ∈ u.named, e.2 = t := by
    obtain ⟨e, he, rfl⟩ := Option.map_eq_some_iff.1 h
    exact ⟨e, List.mem_of_find?_eq_some he, rfl⟩
  rw [Universe.lookup, Option.or_eq_some_iff] at h
  rcases h with h | ⟨-, h⟩
  · unfold Universe.keyword? at h
    repeat' split at h
    all_goals first | exact .inl ⟨_, (Option.some.inj h).symm⟩ | cases h
  · rw [Option.or_eq_some_iff] at h
    rcases h with h | ⟨-, h⟩
    · exact .inr (find h)
    · obtain ⟨ns, -, h⟩ := List.exists_of_findSome?_eq_some h
      exact .inr (find h)

namespace Source

open Binder

variable {x : Expr}

/-! ## Rules -/

/-- What is known about the parts of expressions while names are bound. -/
structure Rules where
  /-- Sessions from which steps give the same. -/
  sessions : Session → Session → Prop
  /-- The texts of sources and names have to be UTF-8. -/
  clean : Prop
  error : Error → Prop
  types : Ty → Prop
  /-- An expression of the first type can stand where the second type is asked for. -/
  same : Ty → Ty → Prop
  classes : Universe → Prop
  scope : Scope → Prop
  typed : Names → Expr → Prop

namespace Rules

variable (L : Rules)

def Spells (t : Text) : Prop := L.clean → t.isUtf8

/-- What names are looked up in keeps to the rules, and the variables have numbers below `n`. -/
structure Knows (n : Nat) (names : Names) : Prop where
  src : L.Spells names.src
  classes : L.classes names.types
  scope : L.scope names.scope
  locals : ∀ l ∈ names.locals, l.id < n ∧ L.types l.type ∧ L.Spells l.name ∧ l.nonNull = false

/-- The expression keeps to the rules, and is not a conversion. -/
def Binds (names : Names) (e : Expr) : Prop := L.typed names e ∧ e.isConversion = false

/-- The arguments can stand for parameters of the types. -/
def Passes (names : Names) : List Expr → List Ty → Prop :=
  List.Forall₂ fun x t => L.typed names x ∧ L.same x.type t

/-- The table of types gives a type that satisfies `Q`. -/
def Constructs (build : TypeTable → Ty × TypeTable) (Q : Ty → Prop) : Prop :=
  ∀ s s' : Session, L.sessions s s' → (build s.table).1 = (build s'.table).1 ∧
    Q (build s.table).1 ∧ L.sessions { s with table := (build s.table).2 }
      { s' with table := (build s'.table).2 }

/-- Every production of the binder keeps to the rules. -/
structure Lawful : Prop where
  next {s s' : Session} : L.sessions s s' → s.nextLocal = s'.nextLocal
  fresh {s s' : Session} : L.sessions s s' → L.sessions { s with nextLocal := s.nextLocal + 1 }
    { s' with nextLocal := s'.nextLocal + 1 }
  nullable {t : Ty} : L.types t → L.Constructs (·.nullable t) L.types
  listOf {t : Ty} : L.types t → L.Constructs (·.listOf t) fun r =>
    ∀ {names : Names} {xs : List Expr},
    (∀ x ∈ xs, L.typed names x ∧ L.same x.type t) → L.typed names (.list xs r)
  fault {src note : Text} (offset : Option Nat) : L.Spells src → L.Spells note →
    L.error (.source src offset note)
  basic (b : Basic) : L.types (.basic b)
  name {t : Ty} : L.types t → L.Spells t.name
  func {ps : List Ty} {r : Ty} : L.types (.func ps r) → (∀ p ∈ ps, L.types p) ∧ L.types r
  underlying {t : Ty} : L.types t → L.types t.underlying
  named {u : Universe} : L.classes u → ∀ e ∈ u.named, L.types e.2
  refl (t : Ty) : L.same t t
  identical {s t : Ty} : L.types s → L.types t → s.identical t → L.same t s
  implicit (names : Names) {x x' : Expr} {t : Ty} : L.types x.type → L.types t →
    x.implicit? t = some x' → L.same x'.type t ∧ (L.typed names x → L.typed names x')
  int {names : Names} (n : Int64) : L.typed names (.const (.int n) .int)
  float {names : Names} (x : Float) : L.typed names (.const (.float x) .float)
  text {names : Names} {t : Text} : L.Spells t → L.typed names (.const (.text t) .string)
  bool {names : Names} (b : Bool) : L.typed names (.const (.bool b) .bool)
  null {names : Names} : L.typed names .null
  ofText {names : Names} {t : Text} {ty : Ty} : L.typed names (.const (.text t) ty) → L.Spells t
  typeRef {names : Names} {t : Ty} : L.types t → L.typed names (.typeRef t)
  type {n : Nat} {names : Names} {e : Expr} : L.Knows n names → L.typed names e → L.types e.type
  var {n : Nat} {names : Names} {l : Local} : L.Knows n names → l ∈ names.locals →
    L.typed names (.var l)
  context {n k : Nat} {names : Names} {s : Scope} {name : Text} : L.Knows n names →
    names.scope.ancestor? k = some s → L.Spells name → L.typed names (.dataContext s name)
  param {n k : Nat} {names : Names} {s : Scope} {p : Param} {name : Text} : L.Knows n names →
    names.scope.ancestor? k = some s → p ∈ s.level.params → L.Spells name →
    L.typed names (.param name s (some p))
  member {n : Nat} {names : Names} {x : Expr} {name : Text} {f : Field} : L.Knows n names →
    L.Binds names x → x.type.field? names.types.catalog name = some f → L.typed names (.member x f)
  index {n : Nat} {names : Names} {x k : Expr} {e : Ty} : L.Knows n names → L.Binds names x →
    L.typed names k → L.same k.type .int → x.type.kind = .list → x.type.elem? = some e →
    L.typed names (.index x k e)
  params {n arity : Nat} {names : Names} {t : Ty} {name : Text} {m : Method} : L.Knows n names →
    L.types t → m ∈ t.overloads names.types.catalog name arity → ∀ p ∈ m.params, L.types p
  call {n arity : Nat} {names : Names} {x : Expr} {name : Text} {m : Method} {args : List Expr} :
    L.Knows n names → L.Binds names x → m ∈ x.type.overloads names.types.catalog name arity →
    m.isStatic = false → L.Passes names args m.params → L.typed names (.call x m args)
  callStatic {n arity : Nat} {names : Names} {t : Ty} {name : Text} {m : Method}
    {args : List Expr} :
    L.Knows n names → L.types t → m ∈ t.overloads names.types.catalog name arity →
    m.isStatic → L.Passes names args m.params → L.typed names (.callStatic m args)
  unary {names : Names} {x : Expr} (op : UnaryOp) : L.typed names x →
    Ends (L.typed names) (fun e => L.Spells e.message) (Expr.newUnary op x)
  binary {names : Names} {x y : Expr} (op : BinaryOp) : L.typed names x → L.typed names y →
    Ends (L.typed names) (fun e => L.Spells e.message) (Expr.newBinary op x y)
  cond {names : Names} {c a b : Expr} {t : Ty} : L.typed names c → L.typed names a →
    L.typed names b → L.types t → L.same a.type t → L.same b.type t →
    L.typed names (.cond c a b t)
  lambda {n : Nat} {names : Names} {ls : List Local} {b : Expr} {r : Ty} : L.Knows n names →
    L.types (.func (ls.map (·.type)) r) → (ls.map (·.id)).Nodup →
    (∀ l ∈ ls, n ≤ l.id ∧ L.Spells l.name) →
    L.typed { names with locals := ls.reverse ++ names.locals } b → L.same b.type r →
    L.typed names (.lambda ls b (.func (ls.map (·.type)) r))

/-! ## Steps -/

/-- From sessions that agree, with variables numbered from `n` at least, the step gives the same and
leaves such sessions behind. A value satisfies `Q` together with the number of the next variable. -/
def Holds {α : Type} (n : Nat) (step : Binder α) (Q : Nat → α → Prop) : Prop :=
  ∀ s s' : Session, L.sessions s s' → n ≤ s.nextLocal → ∃ r t t', step.run.run s = (r, t) ∧
    step.run.run s' = (r, t') ∧ L.sessions t t' ∧ s.nextLocal ≤ t.nextLocal ∧
    Ends (Q t.nextLocal) L.error r

variable {L} {α β : Type} {n : Nat}

namespace Spells

theorem literal (s : String) : L.Spells s := fun _ => Text.isUtf8_ofString s

theorem ofNat (n : Nat) : L.Spells (Text.ofNat n) := fun _ => Text.isUtf8_ofNat n

theorem append {a b : Text} (ha : L.Spells a) (hb : L.Spells b) : L.Spells (a ++ b) :=
  fun hc => Text.isUtf8_append (ha hc) (hb hc)

end Spells

namespace Holds

variable {step : Binder α} {f : α → Binder β} {Q : Nat → α → Prop} {R : Nat → β → Prop}
  {P : α → Prop}

theorem pure {a : α} (h : ∀ k, n ≤ k → Q k a) : L.Holds n (Pure.pure a) Q :=
  fun s s' hs hn => ⟨.ok a, s, s', rfl, rfl, hs, Nat.le_refl _, h _ hn⟩

theorem throw {e : Error} (h : L.error e) : L.Holds n (MonadExcept.throw e) Q :=
  fun s s' hs _ => ⟨.error e, s, s', rfl, rfl, hs, Nat.le_refl _, h⟩

theorem bind (h : L.Holds n step Q) (hf : ∀ k a, n ≤ k → Q k a → L.Holds k (f a) R) :
    L.Holds n (step >>= f) R := by
  intro s s' hs hn
  obtain ⟨r, t, t', hrun, hrun', ht, hle, hr⟩ := h s s' hs hn
  cases r with
  | error e =>
    have stop {s t : Session} (h : step.run.run s = (.error e, t)) :
        (step >>= f).run.run s = (.error e, t) := by
      simp only [ExceptT.run_bind, StateT.run_bind, h]
      rfl
    exact ⟨.error e, t, t', stop hrun, stop hrun', ht, hle, hr⟩
  | ok a =>
    obtain ⟨q, u, u', hgo, hgo', hu, hle', hq⟩ :=
      hf t.nextLocal a (Nat.le_trans hn hle) hr t t' ht (Nat.le_refl _)
    exact ⟨q, u, u', (run_bind_ok hrun).trans hgo, (run_bind_ok hrun').trans hgo', hu,
      Nat.le_trans hle hle', hq⟩

theorem mono (h : L.Holds n step Q) {k : Nat} (hk : n ≤ k) : L.Holds k step Q :=
  fun s s' hs hn => h s s' hs (Nat.le_trans hk hn)

theorem next (h : L.Holds n step fun _ => P) (hf : ∀ a, P a → L.Holds n (f a) R) :
    L.Holds n (step >>= f) R :=
  h.bind fun _ a hk ha => (hf a ha).mono hk

theorem attempt (h : L.Holds n step fun _ => P) :
    L.Holds n (Binder.attempt step) fun _ => Ends P L.error := by
  intro s s' hs hn
  obtain ⟨r, t, t', hrun, hrun', ht, hle, hr⟩ := h s s' hs hn
  have lift {s t : Session} (h : step.run.run s = (r, t)) :
      (Binder.attempt step).run.run s = (.ok r, t) := by
    change (Except.ok (step.run.run s).1, (step.run.run s).2) = _
    rw [h]
  exact ⟨.ok r, t, t', lift hrun, lift hrun', ht, hle, hr⟩

theorem construct {build : TypeTable → Ty × TypeTable} {P : Ty → Prop} (h : L.Constructs build P) :
    L.Holds n (Binder.construct build) fun _ => P := by
  intro s s' hs _
  obtain ⟨hsame, ht, hs'⟩ := h s s' hs
  refine ⟨.ok (build s.table).1, _, _, rfl, ?_, hs', Nat.le_refl _, ht⟩
  rw [hsame]
  rfl

theorem freshLocal (hL : L.Lawful) (name : Text) (t : Ty) :
    L.Holds n (Binder.freshLocal name t) fun k l =>
      n ≤ l.id ∧ l.id < k ∧ l.type = t ∧ l.name = name ∧ l.nonNull = false := by
  intro s s' hs hn
  refine ⟨.ok { id := s.nextLocal, name, type := t }, _, _, rfl, ?_, hL.fresh hs, Nat.le_succ _, hn,
    Nat.lt_succ_self _, rfl, rfl, rfl⟩
  rw [hL.next hs]
  rfl

end Holds

theorem Lawful.freshLocals (hL : L.Lawful) (ps : Record Ty) :
    L.Holds n (ps.mapM fun (name, type) => freshLocal name type) fun k ls =>
      ls.map (·.type) = ps.map (·.2) ∧ (ls.map (·.id)).Nodup ∧
        ∀ l ∈ ls, n ≤ l.id ∧ l.id < k ∧ l.name ∈ ps.map (·.1) ∧ l.nonNull = false := by
  induction ps generalizing n with
  | nil => exact .pure fun _ _ => ⟨rfl, List.nodup_nil, by simp⟩
  | cons p ps ih =>
    rw [List.mapM_cons]
    refine (Holds.freshLocal hL p.1 p.2).bind fun k l hk hl => ?_
    refine (ih (n := k)).bind fun k' ls hk' hls => ?_
    refine .pure fun k'' hk'' => ⟨by simp [hl.2.2.1, hls.1], ?_, ?_⟩
    · rw [List.map_cons, List.nodup_cons]
      refine ⟨fun hmem => ?_, hls.2.1⟩
      obtain ⟨l', hl', hid⟩ := List.mem_map.1 hmem
      have := hls.2.2 l' hl'
      omega
    · intro l' hl'
      rcases List.mem_cons.1 hl' with rfl | hl'
      · exact ⟨hl.1, by omega, by simp [hl.2.2.2.1], hl.2.2.2.2⟩
      · have := hls.2.2 l' hl'
        exact ⟨by omega, by omega, List.mem_cons_of_mem _ this.2.2.1, this.2.2.2⟩

end Rules

open Rules

variable {L : Rules} {n : Nat} {names : Names}

/-! ## Names -/

section

variable (hL : L.Lawful) (h : L.Knows n names)

include hL h

theorem failAt_holds {α : Type} {Q : Nat → α → Prop} (offset : Option Nat) {note : Text}
    (hnote : L.Spells note) : L.Holds n (names.failAt offset note) Q :=
  .throw (hL.fault _ h.src hnote)

theorem type?_types {name : Text} {t : Ty} (ht : names.type? name = some t) : L.types t := by
  rcases Universe.eq_of_lookup ht with ⟨b, rfl⟩ | ⟨e, he, rfl⟩
  · exact hL.basic b
  · exact hL.named h.classes e he

theorem ident_holds (offset : Option Nat) {name : Text} (hname : L.Spells name) :
    L.Holds n (names.ident offset name) fun _ => L.Binds names := by
  have context {s : Scope} {k : Nat} (hs : names.scope.ancestor? k = some s) :
      L.Holds n (pure (.dataContext s name)) fun _ => L.Binds names :=
    .pure fun _ _ => ⟨hL.context h hs hname, rfl⟩
  have hthis : names.scope.ancestor? 0 = some names.scope := rfl
  unfold Names.ident
  simp only
  split
  · rename_i l hl
    exact .pure fun _ _ => ⟨hL.var h (List.mem_of_find?_eq_some hl), rfl⟩
  split
  · exact context hthis
  split
  · exact context (Scope.ancestor_root names.scope)
  split
  · split
    · rename_i s hs
      exact context hs
    · exact failAt_holds hL h _
        (((hname.append (.literal _)).append (.ofNat _)).append (.literal _))
  split
  · rename_i p owner hp
    obtain ⟨k, hk, hq⟩ := Scope.findIn_some _ _ hp
    exact .pure fun _ _ => ⟨hL.param h hk hq hname, rfl⟩
  split
  · rename_i f hf
    exact .pure fun _ _ => ⟨hL.member h ⟨hL.context h hthis (.literal _), rfl⟩ hf, rfl⟩
  split
  · rename_i t ht
    exact .pure fun _ _ => ⟨hL.typeRef (type?_types hL h ht), rfl⟩
  · exact failAt_holds hL h _ ((Spells.literal _).append hname)

end

/-! ## Parts of expressions -/

/-- Both expressions were converted to the type. -/
def Unified (L : Rules) (names : Names) (x y : Expr) : Option (Ty × Expr × Expr) → Prop
  | some (t, x', y') => L.types t ∧ L.same x'.type t ∧ L.same y'.type t ∧
    (L.typed names x → L.typed names x') ∧ (L.typed names y → L.typed names y')
  | none => True

theorem asNullable_holds (hL : L.Lawful) (names : Names) {y : Expr} (hx : L.types x.type)
    (hy : L.types y.type) {t : Ty} (ht : L.types t) : L.Holds n (do
      if !t.kind.isValue then return none
      let n ← Binder.construct (·.nullable t)
      match x.implicit? n, y.implicit? n with
      | some x', some y' => return some (n, x', y')
      | _, _ => return none) fun _ => Unified L names x y := by
  split
  · exact .pure fun _ _ => trivial
  · refine (Holds.construct (hL.nullable ht)).next fun t' ht' => ?_
    split
    · rename_i x' y' hx' hy'
      have hx' := hL.implicit names hx ht' hx'
      have hy' := hL.implicit names hy ht' hy'
      exact .pure fun _ _ => ⟨ht', hx'.1, hy'.1, hx'.2, hy'.2⟩
    · exact .pure fun _ _ => trivial

theorem unify_holds (hL : L.Lawful) (names : Names) {y : Expr} (hx : L.types x.type)
    (hy : L.types y.type) : L.Holds n (unify x y) fun _ => Unified L names x y := by
  unfold unify
  simp only
  split
  · rename_i hid
    exact .pure fun _ _ => ⟨hx, hL.refl _, hL.identical hx hy hid, id, id⟩
  split
  · rename_i y' hy'
    split at hy'
    · cases hy'
    · have hy' := hL.implicit names hy hx hy'
      exact .pure fun _ _ => ⟨hx, hL.refl _, hy'.1, id, hy'.2⟩
  split
  · rename_i x' hx'
    split at hx'
    · cases hx'
    · have hx' := hL.implicit names hx hy hx'
      exact .pure fun _ _ => ⟨hy, hx'.1, hL.refl _, hx'.2, id⟩
  · refine (asNullable_holds hL names hx hy hx).next fun r hr => ?_
    split
    · exact .pure fun _ _ => hr
    · exact asNullable_holds hL names hx hy hy

section

variable (hL : L.Lawful) (h : L.Knows n names)

include hL h

variable {t : Ty} {elems : List (Option Nat × Expr)}

theorem mismatch_holds {α : Type} {Q : Nat → α → Prop} (offset : Option Nat) {s : Ty}
    (hs : L.types s) (ht : L.types t) : L.Holds n (names.failAt offset
      ("mismatched list element " ++ s.name ++ ", want " ++ t.name)) Q :=
  failAt_holds hL h _ ((((Spells.literal _).append (hL.name hs)).append (.literal _)).append
    (hL.name ht))

theorem commonType_holds {acc : Expr} (hacc : L.types acc.type)
    (helems : ∀ x ∈ elems, L.types x.2.type) :
    L.Holds n (commonType names acc elems) fun _ => L.types := by
  induction elems generalizing acc with
  | nil => exact .pure fun _ _ => hacc
  | cons x rest ih =>
    have hx := helems x (List.mem_cons_self ..)
    have hrest : ∀ x ∈ rest, L.types x.2.type := fun x hx => helems x (List.mem_cons_of_mem _ hx)
    rw [commonType]
    refine (unify_holds hL names hacc hx).next fun r hr => ?_
    split
    · exact mismatch_holds hL h _ hx hacc
    · split
      · exact ih hacc hrest
      · exact ih hr.1 hrest

theorem convertElements_holds (ht : L.types t) (helems : ∀ x ∈ elems, L.typed names x.2) :
    L.Holds n (convertElements names t elems) fun _ xs =>
      ∀ x ∈ xs, L.typed names x ∧ L.same x.type t := by
  induction elems with
  | nil => exact .pure fun _ _ => nofun
  | cons x rest ih =>
    have hx := helems x (List.mem_cons_self ..)
    rw [convertElements]
    split
    · rename_i x' hx'
      obtain ⟨hsame, hkeeps⟩ := hL.implicit names (hL.type h hx) ht hx'
      refine (ih fun y hy => helems y (List.mem_cons_of_mem _ hy)).next fun xs hxs => ?_
      exact .pure fun _ _ => List.forall_mem_cons.2 ⟨⟨hkeeps hx, hsame⟩, hxs⟩
    · exact mismatch_holds hL h _ (hL.type h hx) ht

theorem listOf_holds (helems : ∀ x ∈ elems, L.typed names x.2) :
    L.Holds n (listOf names elems) fun _ => L.Binds names := by
  have list {t : Ty} {xs : List Expr} (ht : L.types t)
      (hxs : ∀ x ∈ xs, L.typed names x ∧ L.same x.type t) :
      L.Holds n (do return .list xs (← Binder.construct (·.listOf t))) fun _ => L.Binds names :=
    (Holds.construct (hL.listOf ht)).next fun r hr => .pure fun _ _ => ⟨hr hxs, rfl⟩
  have htypes : ∀ x ∈ elems, L.types x.2.type := fun x hx => hL.type h (helems x hx)
  unfold listOf
  split
  · exact list (hL.basic .any) nofun
  · refine (commonType_holds hL h (htypes _ (List.mem_cons_self ..)) fun y hy =>
      htypes y (List.mem_cons_of_mem _ hy)).next fun t ht => ?_
    exact (convertElements_holds hL h ht helems).next fun xs hxs => list ht hxs

theorem passAs_holds (a : Tree) (hx : L.typed names x) (ht : L.types t) :
    L.Holds n (passAs names a x t) fun _ e => L.typed names e ∧ L.same e.type t := by
  rw [passAs]
  split
  · rename_i x' hx'
    obtain ⟨hsame, hkeeps⟩ := hL.implicit names (hL.type h hx) ht hx'
    exact .pure fun _ _ => ⟨hkeeps hx, hsame⟩
  · exact failAt_holds hL h _ (((((Spells.literal _).append (hL.name (hL.type h hx))).append
      (.literal _)).append (hL.name ht)).append (.literal _))

theorem receiver_holds (x : Tree) {value : Binder Expr}
    (hvalue : L.Holds n value fun _ => L.Binds names) :
    L.Holds n (receiver names x value) fun _ => L.Binds names := by
  rw [receiver]
  refine hvalue.attempt.next fun r hr => ?_
  split
  · exact .pure fun _ _ => hr
  · split
    · rename_i t ht
      obtain ⟨name, -, ht⟩ := Option.bind_eq_some_iff.1 ht
      exact .pure fun _ _ => ⟨hL.typeRef (type?_types hL h ht), rfl⟩
    · exact .throw hr

theorem memberOf_holds (e : Tree) {name : Text} (hname : L.Spells name) (hx : L.Binds names x) :
    L.Holds n (memberOf names e name x) fun _ => L.Binds names := by
  have ht := hL.name (hL.type h hx.1)
  unfold memberOf
  split
  · exact failAt_holds hL h _ ((ht.append (.literal _)).append hname)
  · split
    · rename_i f hf
      exact .pure fun _ _ => ⟨hL.member h hx hf, rfl⟩
    · exact failAt_holds hL h _ ((ht.append (.literal _)).append hname)

theorem element_holds (e key : Tree) {k : Expr} (hx : L.Binds names x) (hk : L.Binds names k) :
    L.Holds n (element names e key x k) fun _ => L.Binds names := by
  have ht := hL.name (hL.type h hx.1)
  have refuse : L.Holds n (names.fail e ("cannot index " ++ x.type.name)) fun _ => L.Binds names :=
    failAt_holds hL h _ ((Spells.literal _).append ht)
  unfold element
  simp only
  split
  · rename_i elem hkind helem
    split
    · rename_i k' hk'
      obtain ⟨hsame, hkeeps⟩ := hL.implicit names (hL.type h hk.1) (hL.basic .int) hk'
      exact .pure fun _ _ => ⟨hL.index h hx (hkeeps hk.1) hsame hkind helem, rfl⟩
    · exact failAt_holds hL h _ ((Spells.literal _).append (hL.name (hL.type h hk.1)))
  · split
    · split
      · rename_i f hf
        exact .pure fun _ _ => ⟨hL.member h hx hf, rfl⟩
      · exact failAt_holds hL h _ ((ht.append (.literal _)).append (hL.ofText hk.1))
    · exact refuse
  · exact refuse

end

theorem firstFit_holds {P : Expr → Prop} {call : Method → Binder Expr} {missing : Binder Expr}
    (hmissing : L.Holds n missing fun _ => P) : (ms : List Method) → (first : Option Error) →
    (∀ e, first = some e → L.error e) → (∀ m ∈ ms, L.Holds n (call m) fun _ => P) →
    L.Holds n (firstFit call missing first ms) fun _ => P
  | [], none, _, _ => hmissing
  | [], some e, hfirst, _ => .throw (hfirst e rfl)
  | m :: ms, first, hfirst, hcall => by
    rw [firstFit]
    refine (hcall m (List.mem_cons_self ..)).attempt.next fun r hr => ?_
    split
    · exact .pure fun _ _ => hr
    · refine firstFit_holds hmissing ms _ ?_ fun m hm => hcall m (List.mem_cons_of_mem _ hm)
      intro e' he'
      obtain rfl := Option.some.inj he'
      cases first with
      | none => exact hr
      | some e' => exact hfirst e' rfl

/-! ## Function literals -/

theorem eq_map_some_of_mapM_id {α : Type} {xs : List (Option α)} {ys : List α}
    (h : xs.mapM id = some ys) : xs = ys.map some := by
  induction xs generalizing ys with
  | nil =>
    obtain rfl := Option.some.inj h
    rfl
  | cons x xs ih =>
    rw [List.mapM_cons] at h
    obtain ⟨y, hy, h⟩ := Option.bind_eq_some_iff.1 h
    obtain ⟨ys', hys, h⟩ := Option.bind_eq_some_iff.1 h
    obtain rfl := Option.some.inj h
    rw [List.map_cons, ← ih hys]
    exact congrArg (· :: xs) hy

/-- The names inside of a function literal. -/
theorem Rules.Knows.enter (h : L.Knows n names) {k : Nat} (hk : n ≤ k) {ls : List Local}
    (hls : ∀ l ∈ ls, l.id < k ∧ L.types l.type ∧ L.Spells l.name ∧ l.nonNull = false) :
    L.Knows k { names with locals := ls.reverse ++ names.locals } where
  src := h.src
  classes := h.classes
  scope := h.scope
  locals l hl := by
    rcases List.mem_append.1 hl with hl | hl
    · exact hls l (List.mem_reverse.1 hl)
    · obtain ⟨hid, hrest⟩ := h.locals l hl
      exact ⟨Nat.lt_of_lt_of_le hid hk, hrest⟩

theorem lambda_holds (hL : L.Lawful) (h : L.Knows n names) (fn : Tree) {ps : ParamList}
    (hps : L.clean → Tree.isClean.namesClean ps) {t : Ty} (ht : L.types t)
    (body? : Option (Names → Binder Expr))
    (hbody : ∀ body, body? = some body → ∀ k (inner : Names), L.Knows k inner →
      L.Holds k (body inner) fun _ => L.Binds inner) :
    L.Holds n (lambda names fn ps t body?) fun _ => L.typed names := by
  have fail {k : Nat} {note : Text} (hk : n ≤ k) (hnote : L.Spells note) :
      L.Holds k (names.fail fn note) fun _ => L.typed names :=
    (failAt_holds hL h _ hnote).mono hk
  unfold lambda
  split
  · rename_i domain result
    split
    · exact fail (Nat.le_refl n)
        ((((Spells.literal _).append (.ofNat _)).append (.literal _)).append (.ofNat _))
    rename_i hlen
    split
    · exact fail (Nat.le_refl n) (.literal _)
    rename_i body
    split
    · exact fail (Nat.le_refl n) (.literal _)
    rename_i plain hplain
    have hparams := eq_map_some_of_mapM_id hplain
    simp only [hparams, List.length_map, Bool.or_eq_true, bne_iff_ne, ne_eq, not_or,
      Decidable.not_not] at hlen
    refine (hL.freshLocals (plain.zip domain)).bind fun k ls hk hls => ?_
    obtain ⟨htypes, hnodup, hfresh⟩ := hls
    rw [List.map_snd_zip (Nat.le_of_eq hlen.1.symm)] at htypes
    subst htypes
    obtain ⟨hdomain, hresult⟩ := hL.func ht
    have hspelled : ∀ l ∈ ls, L.Spells l.name := fun l hl hc => by
      have hmem := (hfresh l hl).2.2.1
      rw [List.map_fst_zip (Nat.le_of_eq hlen.1)] at hmem
      have hall := hps hc
      simp only [Tree.isClean.namesClean, hparams, List.all_eq_true, List.mem_map] at hall
      exact hall (some l.name) ⟨l.name, hmem, rfl⟩
    have hinner := h.enter hk fun l hl => ⟨(hfresh l hl).2.1,
      hdomain _ (List.mem_map_of_mem hl), hspelled l hl, (hfresh l hl).2.2.2⟩
    refine (hbody body rfl k _ hinner).next fun x hx => ?_
    have hxtype := hL.type hinner hx.1
    split
    · rename_i x' hx'
      obtain ⟨hsame, hkeeps⟩ := hL.implicit _ hxtype hresult hx'
      exact .pure fun _ _ => hL.lambda h ht hnodup
        (fun l hl => ⟨(hfresh l hl).1, hspelled l hl⟩) (hkeeps hx.1) hsame
    · exact fail hk ((((Spells.literal _).append (hL.name hxtype)).append (.literal _)).append
        (hL.name hresult))
  · exact fail (Nat.le_refl n) ((Spells.literal _).append (hL.name ht))

/-! ## Expressions -/

theorem formName_spells (t : Tree) : L.Spells (formName t) := by
  unfold formName
  split <;> exact .literal _

theorem newUnary_ok {op : UnaryOp} {e : Expr} (h : Expr.newUnary op x = .ok e) :
    e = .unary op x ∧ Expr.Defined x.type op := by
  unfold Expr.newUnary at h
  cases op <;> simp only at h <;> split at h
  case not.isTrue hbool => exact ⟨(Except.ok.inj h).symm, by simpa [Expr.Defined] using hbool⟩
  case negate.isTrue hnum | plus.isTrue hnum => exact ⟨(Except.ok.inj h).symm, hnum⟩
  all_goals cases h

theorem newBinary_ok {op : BinaryOp} {y e : Expr} (h : Expr.newBinary op x y = .ok e) :
    ∃ t, e = .binary op x y t ∧ Expr.binaryType? op x y = some t := by
  unfold Expr.newBinary at h
  split at h
  · rename_i t ht
    exact ⟨t, (Except.ok.inj h).symm, ht⟩
  · cases h

/-- The receiver of a call is a value of the type that declares the method, or the type itself. -/
def Declares (L : Rules) (names : Names) (decl : Ty) : Option Expr → Prop
  | some recv => L.Binds names recv ∧ decl = recv.type
  | none => True

/-- The call of a method of a type, given how its arguments are bound. -/
theorem call_holds (hL : L.Lawful) (h : L.Knows n names) {args : List Tree} {name : Text}
    (hargs : ∀ types : List Ty, types.length = args.length → (∀ t ∈ types, L.types t) →
      L.Holds n (bindArgs names args types) fun _ xs => L.Passes names xs types)
    {decl : Ty} (hdecl : L.types decl) {recv? : Option Expr} (hrecv : Declares L names decl recv?)
    {m : Method} (hm : m ∈ (decl.overloads names.types.catalog name args.length).filter fun m =>
      m.isStatic == recv?.isNone) :
    L.Holds n (do
      let xs ← bindArgs names args m.params
      match recv? with
      | some r => return .call r m xs
      | none => return .callStatic m xs) fun _ => L.Binds names := by
  obtain ⟨hmem, hstatic⟩ := List.mem_filter.1 hm
  refine (hargs m.params (Ty.mem_overloads hmem).2 (hL.params h hdecl hmem)).next
    fun xs hxs => ?_
  cases recv? with
  | none =>
    exact .pure fun _ _ => ⟨hL.callStatic h hdecl hmem (by simpa using hstatic) hxs, rfl⟩
  | some recv =>
    obtain ⟨hbinds, rfl⟩ := hrecv
    exact .pure fun _ _ => ⟨hL.call h hbinds hmem (by simpa using hstatic) hxs, rfl⟩

section

variable (hL : L.Lawful)

include hL

mutual

/-- What is bound keeps to the rules, and so does the error if nothing can be bound. -/
theorem bind_holds (t : Tree) (ht : L.clean → t.isClean) {names : Names} {n : Nat}
    (h : L.Knows n names) : L.Holds n (bind names t) fun _ => L.Binds names := by
  cases t with
  | ident offset name =>
    rw [bind]
    exact ident_holds hL h _ ht
  | number _ x =>
    cases x <;> rw [bind]
    · exact .pure fun _ _ => ⟨hL.int _, rfl⟩
    · exact .pure fun _ _ => ⟨hL.float _, rfl⟩
    · exact failAt_holds hL h _ ((Spells.literal _).append ht)
  | string _ t =>
    rw [bind]
    exact .pure fun _ _ => ⟨hL.text ht, rfl⟩
  | bool _ b =>
    rw [bind]
    exact .pure fun _ _ => ⟨hL.bool b, rfl⟩
  | null _ =>
    rw [bind]
    exact .pure fun _ _ => ⟨hL.null, rfl⟩
  | dot x name =>
    simp only [Tree.isClean, Bool.and_eq_true, imp_and] at ht
    rw [bind]
    refine (receiver_holds hL h x (bind_holds x ht.1 h)).attempt.next
      fun r hr => ?_
    split
    · exact memberOf_holds hL h _ ht.2 hr
    · split
      · rename_i t ht
        obtain ⟨full, -, ht⟩ := Option.bind_eq_some_iff.1 ht
        exact .pure fun _ _ => ⟨hL.typeRef (type?_types hL h ht), rfl⟩
      · exact .throw hr
  | index x key =>
    simp only [Tree.isClean, Bool.and_eq_true, imp_and] at ht
    rw [bind]
    refine (bind_holds x ht.1 h).next fun x' hx => ?_
    refine (bind_holds key ht.2 h).next fun key' hkey => ?_
    exact element_holds hL h _ key hx hkey
  | call f args =>
    simp only [Tree.isClean, Bool.and_eq_true, imp_and] at ht
    cases f with
    | dot x name =>
      simp only [Tree.isClean, Bool.and_eq_true, imp_and] at ht
      rw [bind]
      refine (receiver_holds hL h x (bind_holds x ht.1.1 h)).next
        fun recv hrecv => ?_
      have hargs := bindArgs_holds args ht.2 h
      split
      rename_i decl recv? heq
      have hdecl : L.types decl ∧ Declares L names decl recv? := by
        have htype := hL.type h hrecv.1
        split at heq
        · obtain ⟨rfl, rfl⟩ := Prod.mk.inj heq
          exact ⟨htype, trivial⟩
        · obtain ⟨rfl, rfl⟩ := Prod.mk.inj heq
          exact ⟨htype, hrecv, rfl⟩
      refine firstFit_holds (failAt_holds hL h _ ?_) _ none nofun fun m hm =>
        call_holds hL h hargs hdecl.1 hdecl.2 hm
      have hkind : L.Spells (if recv?.isNone then "static method" else "method") := by
        split <;> exact .literal _
      exact ((((((hL.name hdecl.1).append (.literal _)).append hkind).append (.literal _)).append
        ht.1.2).append (.literal _)).append (.ofNat _) |>.append (.literal _)
    | _ =>
      rw [bind]
      · exact failAt_holds hL h _ (.literal _)
      · simp
  | unary _ op x =>
    rw [bind]
    split
    · exact failAt_holds hL h _ ((Spells.literal _).append (.literal _))
    · rename_i o _
      refine (bind_holds x ht h).next fun x' hx => ?_
      have hunary := hL.unary o hx.1
      split
      · rename_i e he
        obtain ⟨rfl, -⟩ := newUnary_ok he
        rw [he] at hunary
        exact .pure fun _ _ => ⟨hunary, rfl⟩
      · rename_i err herr
        rw [herr] at hunary
        exact failAt_holds hL h _ hunary
  | binary op x y =>
    simp only [Tree.isClean, Bool.and_eq_true, imp_and] at ht
    rw [bind]
    split
    · exact failAt_holds hL h _ ((Spells.literal _).append (.literal _))
    · rename_i o _
      refine (bind_holds x ht.1 h).next fun x' hx => ?_
      refine (bind_holds y ht.2 h).next fun y' hy => ?_
      have hright : L.typed names (if o == .coalesce && x'.type.underlying != x'.type then
          (y'.implicit? x'.type.underlying).getD y' else y') := by
        split
        · cases himp : y'.implicit? x'.type.underlying with
          | none => exact hy.1
          | some z =>
            exact (hL.implicit names (hL.type h hy.1) (hL.underlying (hL.type h hx.1)) himp).2 hy.1
        · exact hy.1
      have hbinary := hL.binary o hx.1 hright
      simp only
      split
      · rename_i e he
        obtain ⟨t, rfl, -⟩ := newBinary_ok he
        rw [he] at hbinary
        exact .pure fun _ _ => ⟨hbinary, rfl⟩
      · rename_i err herr
        rw [herr] at hbinary
        exact failAt_holds hL h _ hbinary
  | cond c t e =>
    simp only [Tree.isClean, Bool.and_eq_true, imp_and] at ht
    rw [bind]
    refine (bind_holds c ht.1.1 h).next fun c' hc => ?_
    split
    · exact failAt_holds hL h _ ((Spells.literal _).append (hL.name (hL.type h hc.1)))
    · refine (bind_holds t ht.1.2 h).next fun t' ht' => ?_
      refine (bind_holds e ht.2 h).next fun e' he' => ?_
      have htype := hL.type h ht'.1
      have hetype := hL.type h he'.1
      refine (unify_holds hL names htype hetype).next fun r hr => ?_
      split
      · obtain ⟨hty, hsame, hsame', hkeeps, hkeeps'⟩ := hr
        exact .pure fun _ _ => ⟨hL.cond hc.1 (hkeeps ht'.1) (hkeeps' he'.1) hty hsame hsame', rfl⟩
      · exact failAt_holds hL h _ ((((Spells.literal _).append (hL.name htype)).append
          (.literal _)).append (hL.name hetype))
  | array _ items =>
    rw [bind]
    exact (bindItems_holds items ht h).next fun elems helems => listOf_holds hL h helems
  | postfixOp =>
    rw [bind]
    exact failAt_holds hL h _ ((Spells.literal _).append (.literal _))
  | arrow =>
    rw [bind]
    exact failAt_holds hL h _ (.literal _)
  | _ =>
    rw [bind]
    · exact failAt_holds hL h _ ((Spells.literal _).append (formName_spells _))
    all_goals simp

theorem bindArgs_holds (args : List Tree) (hargs : L.clean → Tree.areClean args)
    {names : Names} {n : Nat} (h : L.Knows n names) (types : List Ty)
    (hlen : types.length = args.length) (htypes : ∀ t ∈ types, L.types t) :
    L.Holds n (bindArgs names args types) fun _ xs => L.Passes names xs types := by
  cases args with
  | nil =>
    rw [bindArgs]
    obtain rfl : types = [] := List.length_eq_zero_iff.1 hlen
    exact .pure fun _ _ => .nil
  | cons a rest =>
    simp only [Tree.areClean, Bool.and_eq_true, imp_and] at hargs
    obtain _ | ⟨t, types⟩ := types
    · cases hlen
    obtain ⟨ht, htypes⟩ := List.forall_mem_cons.1 htypes
    have hrest := bindArgs_holds rest hargs.2 h types
      (Nat.succ.inj hlen) htypes
    have pass {x : Expr} (hx : L.typed names x) : L.Holds n (do
        let x ← passAs names a x t
        return x :: (← bindArgs names rest types)) fun _ xs => L.Passes names xs (t :: types) :=
      (passAs_holds hL h a hx ht).next fun x' hx' => hrest.next fun xs hxs =>
        .pure fun _ _ => .cons hx' hxs
    cases a with
    | arrow pos ps body =>
      cases body with
      | none =>
        rw [bindArgs]
        exact (lambda_holds hL h _ hargs.1 ht none nofun).next fun x hx => pass hx
      | some body =>
        simp only [Tree.isClean, Bool.and_eq_true, imp_and] at hargs
        rw [bindArgs]
        refine (lambda_holds hL h _ hargs.1.1 ht (some _)
          fun f hf k inner hinner => ?_).next fun x hx => pass hx
        obtain rfl := Option.some.inj hf
        exact bind_holds body hargs.1.2 hinner
    | _ =>
      rw [bindArgs]
      · exact (bind_holds _ hargs.1 h).next fun x hx => pass hx.1
      all_goals simp

theorem bindItems_holds (items : List (Option Tree))
    (hitems : L.clean → Tree.areCleanItems items) {names : Names} {n : Nat}
    (h : L.Knows n names) :
    L.Holds n (bindItems names items) fun _ elems => ∀ x ∈ elems, L.typed names x.2 := by
  obtain _ | ⟨_ | x, rest⟩ := items
  · rw [bindItems]
    exact .pure fun _ _ => nofun
  · rw [bindItems]
    exact failAt_holds hL h _ (.literal _)
  · simp only [Tree.areCleanItems, Bool.and_eq_true, imp_and] at hitems
    rw [bindItems]
    refine (bind_holds x hitems.1 h).next fun x' hx => ?_
    refine (bindItems_holds rest hitems.2 h).next fun xs hxs => ?_
    exact .pure fun _ _ => List.forall_mem_cons.2 ⟨hx.1, hxs⟩

end

end

end Source

end Bindery
