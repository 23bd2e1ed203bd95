import Bindery.Proofs.DirectEvaluation
import Bindery.Proofs.ValueLocations

/-!
# Assignment through paths

A `Path` leads from a data context through stored fields and constant positions. Assigning to a path
and reading paths are an update and its views (`Writer.write_lawful`): the path reads as what was
assigned, in the standard form of its type, and every path beside it reads as before.

The exception is a list that is kept as loose texts. Reading such a list makes a new one, which is
what the assignment changes, so it leaves the data contexts as they are
(`Shopping.write_texts_unchanged`).
-/

namespace Bindery

open Value (Key held put child? setChild fieldOf itemAt? bare bareList)

inductive Access where
  | field (f : Field)
  | item (i : Int64) (t : Ty)

namespace Access

def of (x : Expr) : Access → Expr
  | .field f => .member x f
  | .item i t => .index x (.const (.int i) .int) t

def key : Access → Key
  | .field f => .name f.name
  | .item i _ => .item i

def type : Access → Ty
  | .field f => f.type
  | .item _ t => t

def isPlain : Access → Bool
  | .field f => f.get.isNone && f.set.isNone
  | .item .. => true

def isWritable : Access → Bool
  | .field f => !f.readOnly
  | .item .. => true

def read (e : Expr) (a : Access) (v : Operand) : Except Fault Operand :=
  match a with
  | .field f => Expr.readField e f v
  | .item i _ => Expr.readElement e v (.value (.int i))

theorem type_of (a : Access) (x : Expr) : (a.of x).type = a.type := by cases a <;> rfl

end Access

/-- A way from a data context to what it holds. -/
inductive Path where
  | context (name : Text) (owner : Scope)
  | access (p : Path) (a : Access)

namespace Path

def expr : Path → Expr
  | .context name owner => .param name owner none
  | .access p a => a.of p.expr

/-- The number of levels out to the data context that the path begins with. -/
def level (s : Scope) : Path → Except Error Nat
  | .context name owner => Expr.levelsOut s name owner
  | .access p _ => p.level s

/-- Where the path leads from its data context. -/
def keys : Path → List Key
  | .context .. => []
  | .access p a => p.keys ++ [a.key]

def isPlain : Path → Bool
  | .context .. => true
  | .access p a => a.isPlain && p.isPlain

/-- What the data contexts of a scope hold where the path leads. -/
def find (s : Scope) (vms : List Value) (p : Path) : Option Value :=
  match p.level s with
  | .ok l => (vms[l]?).bind (held p.keys)
  | .error _ => none

/-- The path leads to a list that is kept as loose texts. -/
def leadsToTexts (s : Scope) (vms : List Value) (p : Path) : Bool :=
  match p.find s vms with
  | some (.loose (.texts _)) => true
  | _ => false

/-- One of the paths leads to what the other one leads through. -/
def Meets (s : Scope) (p q : Path) : Prop :=
  ∃ l, p.level s = .ok l ∧ q.level s = .ok l ∧ (p.keys <+: q.keys ∨ q.keys <+: p.keys)

end Path

def Operand.bare : Operand → Operand
  | .value v => .value v.bare
  | f => f

/-! ## Reading a step -/

namespace Value

variable {v : Value}

theorem isCompound_of_child {k : Key} {w : Value} (h : child? k v = some w) : v.isCompound := by
  cases k <;> cases v <;> first | rfl | cases h

theorem normalize_of_isCompound (t : Ty) (h : v.isCompound) : v.normalize t = v := by
  cases v <;> first | rfl | cases h

/-- A standard form that is an object or a list was one before, or was made of loose texts. -/
theorem eq_or_texts_of_normalize {t : Ty} (h : (v.normalize t).isCompound) :
    v.normalize t = v ∨ ∃ ts, v = .loose (.texts ts) := by
  have hint n : (normalize.ofInt t n).isCompound = false := by
    unfold normalize.ofInt; split <;> rfl
  have hfloat x : (normalize.ofFloat t x).isCompound = false := by
    unfold normalize.ofFloat; split <;> rfl
  cases v with
  | int n => exact absurd ((hint n).symm.trans h) Bool.false_ne_true
  | float x => exact absurd ((hfloat x).symm.trans h) Bool.false_ne_true
  | loose l =>
    cases l with
    | texts ts => exact .inr ⟨ts, rfl⟩
    | word n => exact absurd ((hint n).symm.trans h) Bool.false_ne_true
    | int32 n => exact absurd ((hint n.toInt64).symm.trans h) Bool.false_ne_true
    | single x => exact absurd ((hfloat x.toFloat).symm.trans h) Bool.false_ne_true
  | _ => exact .inl rfl

end Value

namespace Access

variable {a : Access} {e : Expr} {v w : Value}

/-- Why a step fails on a receiver that holds nothing for it. -/
def refusal : Access → Value → EvalCause
  | .field f, .null => .accessOnNull f.name
  | .field f, v => .accessOn f.name v.rep
  | .item .., .null => .indexOfNull
  | .item i _, .list _ items => .indexRange (Text.ofInt i.toInt) items.length
  | .item i _, .object .. => .objectKey (Value.int i).rep
  | .item .., v => .notIndexable v.rep

theorem stored_of_isPlain {f : Field} (h : (Access.field f).isPlain) :
    f.get = none ∧ f.set = none := by
  simpa [isPlain] using h

theorem refusal_setChild (a : Access) (new : Value) {k : Key} (hk : child? k v = some w) :
    a.refusal (setChild new k v) = a.refusal v := by
  cases k with
  | name n =>
    cases v with
    | object r fields => cases a <;> rfl
    | _ => cases hk
  | item i =>
    cases v with
    | list r items =>
      cases a with
      | field f => rfl
      | item j t => simp only [setChild, refusal, List.length_set]
    | _ => cases hk

theorem refusal_bare (a : Access) (v : Value) : a.refusal v.bare = a.refusal v := by
  cases a with
  | field f => cases v <;> rfl
  | item i t =>
    cases v with
    | list r items => simp only [bare, refusal, Value.bareList_eq_map, List.length_map]
    | _ => rfl

variable (ha : a.isPlain) (he : e.type = a.type)

include ha he

/-- A step reads what its receiver holds, in the standard form of its type. -/
theorem read_eq (v : Value) : a.read e v = match child? a.key v with
      | some w => .ok (.value (w.normalize a.type))
      | none => .error (e.failed (a.refusal v)) := by
  cases a with
  | field f =>
    have hget := (stored_of_isPlain ha).1
    cases v <;> simp only [read, Expr.readField, hget] <;> rfl
  | item i t =>
    cases v with
    | list r items =>
      simp only [read, Expr.readElement, he]
      rfl
    | _ => rfl

theorem read_of_child (h : child? a.key v = some w) :
    a.read e v = .ok (.value (w.normalize a.type)) := by
  rw [read_eq ha he, h]

theorem child_of_read {x : Operand} (h : a.read e v = .ok x) :
    ∃ w, child? a.key v = some w ∧ x = .value (w.normalize a.type) := by
  rw [read_eq ha he] at h
  cases hc : child? a.key v with
  | none => rw [hc] at h; cases h
  | some w =>
    rw [hc] at h
    exact ⟨w, rfl, (Except.ok.inj h).symm⟩

theorem read_setChild_of_ne {k : Key} (new : Value) (hk : child? k v = some w) (hne : k ≠ a.key) :
    a.read e (setChild new k v) = a.read e v := by
  rw [read_eq ha he, read_eq ha he, Value.child?_setChild_of_ne new hk hne,
    refusal_setChild a new hk]

theorem read_bare (x : Operand) : a.read e x.bare = (a.read e x).map Operand.bare := by
  cases x with
  | value v =>
    rw [Operand.bare, read_eq ha he, read_eq ha he, Value.child?_bare, refusal_bare]
    cases child? a.key v with
    | none => rfl
    | some w =>
      simp only [Option.map_some, Value.normalize_bare]
      rfl
  | func f =>
    cases a with
    | field f => simp only [read, Expr.readField, (stored_of_isPlain ha).1, Operand.bare]; rfl
    | item i t => rfl

end Access

/-! ## Reading a path -/

namespace Path

variable {s : Scope} {base n l : Nat} {fr fr' : Frame} {p q : Path} {root : Value}

theorem label_type (base n : Nat) (p : Path) (a : Access) :
    (Expr.label base n (a.of p.expr)).type = a.type :=
  (Expr.label_type base n _).trans (a.type_of _)

theorem chain_access (s : Scope) (base : Nat) (fr : Frame) (n : Nat) (p : Path) (a : Access) :
    Expr.chain s base fr n (p.access a).expr = (do
      (← Expr.chain s base fr n p.expr).access p.expr.stopsAt
        (a.read (Expr.label base n (a.of p.expr)))) := by
  cases a <;> rfl

theorem chain_context {name : Text} {owner : Scope}
    (hl : (Path.context name owner).level s = .ok l) (base : Nat) (fr : Frame) (n : Nat) :
    Expr.chain s base fr n (Path.context name owner).expr = match fr.vms[l]? with
      | some v => .ok (.reached (.value v))
      | none =>
        .error (Expr.failed (.param name owner none) (.shortChain fr.vms.length (l + 1))) := by
  have hlevel : Expr.levelsOut s name owner = .ok l := hl
  simp only [expr, Expr.chain, Expr.eval, hlevel]
  cases fr.vms[l]? <;> rfl

theorem chain_access_of_reached {a : Access} {v : Value} (hv : v.isCompound)
    (h : Expr.chain s base fr n p.expr = .ok (.reached (.value v))) :
    Expr.chain s base fr n (p.access a).expr = (do
      return .reached (← a.read (Expr.label base n (a.of p.expr)) v)) := by
  have hnull : (Operand.value v).isNull = false := by cases v <;> first | rfl | cases hv
  rw [chain_access, h, ok_bind, Link.access, Expr.stopsAt_of_not_null hnull]
  rfl

/-- A path that leads on reads as what is held where it leads. -/
theorem chain_of_held (base n : Nat) (hp : p.isPlain) (hl : p.level s = .ok l)
    (hroot : fr.vms[l]? = some root) {k : Key} {ks : List Key}
    (h : (held (p.keys ++ k :: ks) root).isSome) :
    ∃ v, held p.keys root = some v ∧ v.isCompound ∧
      Expr.chain s base fr n p.expr = .ok (.reached (.value v)) := by
  induction p generalizing k ks with
  | context name owner =>
    refine ⟨root, rfl, ?_, by rw [chain_context hl, hroot]⟩
    obtain ⟨u, hu⟩ := Option.isSome_iff_exists.1 h
    obtain ⟨w, hw, -⟩ := Option.bind_eq_some_iff.1 hu
    exact Value.isCompound_of_child hw
  | access p a ih =>
    simp only [isPlain, Bool.and_eq_true] at hp
    simp only [keys, List.append_assoc, List.cons_append, List.nil_append] at h
    obtain ⟨v, hv, hcompound, hchain⟩ := ih hp.2 hl h
    rw [Value.held_append, hv, Option.bind_some] at h
    obtain ⟨u, hu⟩ := Option.isSome_iff_exists.1 h
    obtain ⟨w, hw, hu⟩ := Option.bind_eq_some_iff.1 hu
    obtain ⟨x, hx, -⟩ := Option.bind_eq_some_iff.1 hu
    have hw' := Value.isCompound_of_child hx
    refine ⟨w, ?_, hw', ?_⟩
    · rw [keys, Value.held_snoc, hv, Option.bind_some, hw]
    · rw [chain_access_of_reached hcompound hchain,
        Access.read_of_child hp.1 (label_type base n p a) hw, Value.normalize_of_isCompound _ hw']
      rfl

/-- A path that reads as an object or a list leads to it, or to loose texts that the list is made
of. -/
theorem held_of_chain (hp : p.isPlain) (hl : p.level s = .ok l) {v : Value}
    (hv : v.isCompound) (h : Expr.chain s base fr n p.expr = .ok (.reached (.value v))) :
    ∃ root w, fr.vms[l]? = some root ∧ held p.keys root = some w ∧
      (w = v ∨ ∃ ts, w = .loose (.texts ts) ∧ v = .list none (ts.map .text)) := by
  induction p generalizing v with
  | context name owner =>
    rw [chain_context hl] at h
    cases hroot : fr.vms[l]? with
    | none => rw [hroot] at h; cases h
    | some root =>
      rw [hroot] at h
      obtain rfl := Operand.value.inj (Link.reached.inj (Except.ok.inj h))
      exact ⟨root, root, rfl, rfl, .inl rfl⟩
  | access p a ih =>
    simp only [isPlain, Bool.and_eq_true] at hp
    rw [chain_access] at h
    obtain ⟨link, hlink, h⟩ := bind_ok_iff.1 h
    obtain ⟨x, rfl, hx⟩ : ∃ x, link = .reached x ∧
        a.read (Expr.label base n (a.of p.expr)) x = .ok (.value v) := by
      cases link with
      | broken => cases h
      | reached x =>
        rw [Link.access] at h
        split at h
        · cases h
        · obtain ⟨y, hy, h⟩ := bind_ok_iff.1 h
          obtain rfl := Link.reached.inj (Except.ok.inj h)
          exact ⟨x, rfl, hy⟩
    obtain ⟨u, rfl⟩ : ∃ u, x = .value u := by
      cases x with
      | value u => exact ⟨u, rfl⟩
      | func f =>
        cases a with
        | field f => simp [Access.read, Expr.readField, (Access.stored_of_isPlain hp.1).1] at hx
        | item i t => cases hx
    obtain ⟨w, hw, hv'⟩ := Access.child_of_read hp.1 (label_type base n p a) hx
    obtain rfl := Operand.value.inj hv'
    obtain ⟨root, w', hroot, hheld, hw'⟩ := ih hp.2 hl (Value.isCompound_of_child hw) hlink
    rcases hw' with rfl | ⟨ts, -, rfl⟩
    · refine ⟨root, w, hroot, by rw [keys, Value.held_snoc, hheld, Option.bind_some, hw], ?_⟩
      rcases Value.eq_or_texts_of_normalize hv with h | ⟨ts, rfl⟩
      · exact .inl h.symm
      · exact .inr ⟨ts, rfl, rfl⟩
    · -- The elements of loose texts are texts.
      exfalso
      cases a with
      | field f => cases hw
      | item i t =>
        obtain ⟨-, hw⟩ := Value.itemAt?_eq_some hw
        rw [List.getElem?_map] at hw
        obtain ⟨text, -, rfl⟩ := Option.map_eq_some_iff.1 hw
        cases hv

/-- A path beside a location reads as before when something else is put there. -/
theorem chain_put_of_beside (hq : q.isPlain) {m : Nat} (hm : q.level s = .ok m)
    {ks : List Key} {new : Value} (hroot : fr.vms[l]? = some root)
    (hheld : (held ks root).isSome) (hvms : fr'.vms = fr.vms.set l (put new ks root))
    (hbeside : m = l → ¬ q.keys <+: ks ∧ ¬ ks <+: q.keys) :
    Expr.chain s base fr' n q.expr = Expr.chain s base fr n q.expr := by
  induction q with
  | context name owner =>
    have hne : l ≠ m := fun h => (hbeside h.symm).1 (List.nil_prefix)
    rw [chain_context hm, chain_context hm, hvms, List.getElem?_set_ne hne, List.length_set]
  | access q a ih =>
    simp only [isPlain, Bool.and_eq_true] at hq
    by_cases hmeets : m = l → ¬ q.keys <+: ks ∧ ¬ ks <+: q.keys
    · rw [chain_access, chain_access, ih hq.2 hm hmeets]
    · -- The paths part at the last step of `q`.
      obtain ⟨rfl, hparts⟩ := Classical.not_imp.1 hmeets
      obtain ⟨hq', hks⟩ := hbeside rfl
      have hks' : ¬ ks <+: q.keys := fun h => hks (h.trans (List.prefix_append ..))
      obtain ⟨rest, rfl⟩ : q.keys <+: ks := by
        by_contra h
        exact hparts ⟨h, hks'⟩
      cases rest with
      | nil => exact absurd (by simp) hks'
      | cons k rest =>
        have hne : k ≠ a.key := by
          rintro rfl
          exact hq' (by simp [keys])
        have hroot' : fr'.vms[m]? = some (put new (q.keys ++ k :: rest) root) := by
          obtain ⟨hlt, -⟩ := List.getElem?_eq_some_iff.1 hroot
          rw [hvms, List.getElem?_set_self hlt]
        have hheld' := congrArg Option.isSome (Value.held_put new hheld)
        obtain ⟨v, hv, hcompound, hchain⟩ := chain_of_held base n hq.2 hm hroot hheld
        obtain ⟨v', hv', hcompound', hchain'⟩ := chain_of_held base n hq.2 hm hroot' hheld'
        obtain rfl := Option.some.inj (hv'.symm.trans (Value.held_put_append new (k :: rest) hv))
        rw [chain_access_of_reached hcompound hchain, chain_access_of_reached hcompound' hchain']
        cases hc : child? k v with
        | none => simp only [put, hc]
        | some c =>
          simp only [put, hc]
          rw [Access.read_setChild_of_ne hq.1 (label_type base n q a) _ hc hne]

end Path

def Link.bare : Link → Link
  | .reached x => .reached x.bare
  | .broken => .broken

namespace Path

variable {s : Scope} {base n l : Nat} {fr fr' : Frame} {p q : Path} {root : Value} {r : Reader}

theorem isNull_bare (x : Operand) : x.bare.isNull = x.isNull := by
  cases x with
  | value v => cases v <;> rfl
  | func f => rfl

theorem chain_bare (hp : p.isPlain) (hl : p.level s = .ok l)
    (hvms : fr'.vms = fr.vms.map Value.bare) :
    Expr.chain s base fr' n p.expr = (Expr.chain s base fr n p.expr).map Link.bare := by
  induction p with
  | context name owner =>
    rw [chain_context hl, chain_context hl, hvms, List.getElem?_map, List.length_map]
    cases fr.vms[l]? <;> rfl
  | access p a ih =>
    simp only [isPlain, Bool.and_eq_true] at hp
    rw [chain_access, chain_access, ih hp.2 hl]
    cases Expr.chain s base fr n p.expr with
    | error fault => rfl
    | ok link =>
      cases link with
      | broken => rfl
      | reached x =>
        have hstop : p.expr.stopsAt x.bare = p.expr.stopsAt x := by
          rw [Expr.stopsAt, Expr.stopsAt, isNull_bare]
        simp only [Except.map, ok_bind, Link.bare, Link.access, hstop,
          Access.read_bare hp.1 (label_type base n p a)]
        split
        · rfl
        · cases a.read (Expr.label base n (a.of p.expr)) x <;> rfl

theorem meaning_bare (hp : p.isPlain) (hl : p.level s = .ok l)
    (hvms : fr'.vms = fr.vms.map Value.bare) :
    p.expr.meaning s fr' = (p.expr.meaning s fr).map Operand.bare := by
  rw [Expr.meaning, Expr.meaning, chain_bare hp hl hvms]
  cases Expr.chain s p.expr.nextLocal fr 0 p.expr with
  | error fault => rfl
  | ok link =>
    cases link with
    | reached x => rfl
    | broken =>
      have : (p.expr.type.default).bare = p.expr.type.default := by
        unfold Ty.default
        split
        · rfl
        · split <;> rfl
      simp only [Except.map, ok_bind, pure_ok, Link.bare, Link.getD, Operand.bare, this]

/-- The receiver of a path that leads to something is the object or list that holds it. -/
theorem meaning_of_held {vms : List Value} (control : Option Control) (hp : p.isPlain)
    (hl : p.level s = .ok l) (hroot : vms[l]? = some root) {k : Key}
    (h : (held (p.keys ++ [k]) root).isSome) :
    ∃ v, held p.keys root = some v ∧ v.isCompound ∧
      p.expr.meaning s { vms, control } = .ok (.value v) := by
  have hroot' : (Frame.vms { vms, control })[l]? = some root := hroot
  obtain ⟨v, hv, hcompound, hchain⟩ := chain_of_held p.expr.nextLocal 0 hp hl hroot' h
  refine ⟨v, hv, hcompound, ?_⟩
  rw [Expr.meaning, hchain]
  rfl

theorem find_access (hl : p.level s = .ok l) (a : Access) (vms : List Value) :
    (p.access a).find s vms = (vms[l]?).bind (held (p.keys ++ [a.key])) := by
  have hl' : (p.access a).level s = .ok l := hl
  rw [find, hl']
  rfl

theorem leadsToTexts_of_held {vms : List Value} (hl : p.level s = .ok l)
    (hroot : vms[l]? = some root) {k : Key} (h : (held (p.keys ++ [k]) root).isSome) :
    p.leadsToTexts s vms = false := by
  rw [Value.held_snoc] at h
  simp only [leadsToTexts, find, hl, hroot, Option.bind_some]
  cases hv : held p.keys root with
  | none => rfl
  | some v =>
    rw [hv, Option.bind_some] at h
    obtain ⟨c, hc⟩ := Option.isSome_iff_exists.1 h
    have hcompound := Value.isCompound_of_child hc
    cases v <;> first | rfl | cases hcompound

theorem read_eq_meaning (hr : Reader.compile p.expr s = .ok r) (vms : List Value)
    (control : Option Control) : r.read vms control = p.expr.meaning s { vms, control } := by
  obtain ⟨_, -, hr⟩ := bind_ok_iff.1 hr
  obtain rfl := Except.ok.inj hr
  exact Expr.guardNulls_eval s _ p.expr

theorem checked_of_level (hl : p.level s = .ok l) : p.expr.checked s = .ok () := by
  induction p with
  | context name owner =>
    have hlevel : Expr.levelsOut s name owner = .ok l := hl
    simp only [expr, Expr.checked, hlevel]
    rfl
  | access p a ih =>
    cases a with
    | field f => exact ih hl
    | item i t => simp only [expr, Access.of, Expr.checked, ih hl]; rfl

theorem level_of_checked (h : p.expr.checked s = .ok ()) : ∃ l, p.level s = .ok l := by
  induction p with
  | context name owner =>
    obtain ⟨l, hl, -⟩ := bind_ok_iff.1 h
    exact ⟨l, hl⟩
  | access p a ih =>
    cases a with
    | field f => exact ih h
    | item i t =>
      obtain ⟨⟨⟩, hp, -⟩ := bind_ok_iff.1 h
      exact ih hp

/-- The readers of paths are those of the paths that begin with a data context of the scope. -/
theorem level_of_compile (hr : Reader.compile p.expr s = .ok r) : ∃ l, p.level s = .ok l := by
  obtain ⟨⟨⟩, hchecked, -⟩ := bind_ok_iff.1 hr
  rw [Expr.guardNulls_checked] at hchecked
  exact level_of_checked hchecked

theorem compile_of_level (hl : p.level s = .ok l) :
    Reader.compile p.expr s = .ok ⟨p.expr.guardNulls, s⟩ := by
  rw [Reader.compile, Expr.guardNulls_checked, checked_of_level hl]
  rfl

theorem read_bare (hp : p.isPlain) (hr : Reader.compile p.expr s = .ok r) (vms : List Value)
    (control : Option Control) : (r.read vms control).map Operand.bare =
      p.expr.meaning s { vms := vms.map Value.bare, control } := by
  obtain ⟨l, hl⟩ := level_of_compile hr
  rw [read_eq_meaning hr]
  exact (meaning_bare hp hl rfl).symm

end Path

/-! ## Assigning to a path -/

def Access.writer (p : Path) (s : Scope) (a : Access) : Writer :=
  match a with
  | .field f => ⟨.field (.member p.expr f) p.expr.guardNulls f, s⟩
  | .item i t =>
    let k := Expr.const (.int i) .int
    ⟨.element (.index p.expr k t) p.expr.guardNulls k t, s⟩

/-- Why a step cannot be assigned to on a receiver that holds nothing for it. -/
def Access.unassignable : Access → Value → EvalCause
  | .field f, .null => .assignToNull f.name
  | .field f, v => .assignTo f.name v.rep
  | .item i _, .list _ items => .indexRange (Value.int i).display items.length
  | .item i _, .object .. => .objectKey (Value.int i).rep
  | .item .., v => .assignElement v.rep

namespace Writer

variable {s : Scope} {l : Nat} {p : Path} {a : Access}

theorem compile_access (ha : a.isPlain) (hw : a.isWritable) (hl : p.level s = .ok l) :
    compile (p.access a).expr s = .ok (some (a.writer p s)) := by
  have hchecked : p.expr.guardNulls.checked s = .ok () := by
    rw [Expr.guardNulls_checked, Path.checked_of_level hl]
  cases a with
  | field f =>
    have hreadOnly : f.readOnly = false := by simpa [Access.isWritable] using hw
    obtain ⟨hget, hset⟩ := Access.stored_of_isPlain ha
    simp [compile, Path.expr, Access.of, Expr.strip, hreadOnly, hget, hset, hchecked]
    rfl
  | item i t =>
    simp only [compile, Path.expr, Access.of, Expr.strip, hchecked]
    rfl

/-- An assignment to a step sets what the receiver holds at its key, if it holds anything there. -/
theorem store_access (ha : a.isPlain) (fr : Frame) (value : Value) :
    (a.writer p s).store fr value = (do
      let recv := (← p.expr.meaning s fr).toValue
      match child? a.key recv with
      | some _ => return (recv, setChild (value.normalize a.type) a.key recv)
      | none => throw ((a.of p.expr).failed (a.unassignable recv))) := by
  cases a with
  | field f =>
    have hset := (Access.stored_of_isPlain ha).2
    simp only [Access.writer, store, Expr.guardNulls_eval, hset]
    cases p.expr.meaning s fr with
    | error fault => rfl
    | ok x =>
      simp only [ok_bind]
      cases x.toValue <;> rfl
  | item i t =>
    simp only [Access.writer, store, Expr.guardNulls_eval, Expr.eval]
    cases p.expr.meaning s fr with
    | error fault => rfl
    | ok x =>
      simp only [ok_bind]
      cases x.toValue with
      | list r items =>
        simp only [Operand.toValue, child?, Access.key, ← Value.isSome_itemAt?]
        cases itemAt? items i <;> rfl
      | _ => rfl

/-- What is found where a path leads is what the receiver of an assignment is. -/
theorem receiver_held (hp : p.isPlain) (hl : p.level s = .ok l) {fr : Frame} {x : Operand}
    (hx : p.expr.meaning s fr = .ok x) (hcompound : x.toValue.isCompound) :
    ∃ root w, fr.vms[l]? = some root ∧ held p.keys root = some w ∧
      (w = x.toValue ∨ ∃ ts, w = .loose (.texts ts) ∧ x.toValue = .list none (ts.map .text)) := by
  obtain ⟨link, hlink, hx⟩ := bind_ok_iff.1 hx
  obtain rfl := Except.ok.inj hx
  cases link with
  | reached x =>
    cases x with
    | value v => exact Path.held_of_chain hp hl hcompound hlink
    | func f => cases hcompound
  | broken =>
    -- No default is an object or a list.
    have hdefault : (p.expr.type.default).isCompound = false := by
      unfold Ty.default
      split
      · rfl
      · split <;> rfl
    exact absurd (hdefault.symm.trans hcompound) Bool.false_ne_true

theorem store_ok (ha : a.isPlain) {fr : Frame} {value old new : Value}
    (h : (a.writer p s).store fr value = .ok (old, new)) :
    ∃ x c, p.expr.meaning s fr = .ok x ∧ old = x.toValue ∧ child? a.key old = some c ∧
      new = setChild (value.normalize a.type) a.key old := by
  rw [store_access ha] at h
  obtain ⟨x, hx, h⟩ := bind_ok_iff.1 h
  cases hc : child? a.key x.toValue with
  | none => simp only [hc] at h; cases h
  | some c =>
    simp only [hc, pure_ok, Except.ok.injEq, Prod.mk.injEq] at h
    obtain ⟨rfl, rfl⟩ := h
    exact ⟨x, c, hx, rfl, hc, rfl⟩

/-- An assignment that succeeds has put the value where the path leads, or the path leads into loose
texts and nothing has changed. -/
theorem write_access (hp : p.isPlain) (ha : a.isPlain) (hl : p.level s = .ok l)
    {vms vms' : List Value} {control : Option Control} {value : Value}
    (h : (a.writer p s).write vms control value = .ok vms') :
    (∃ root, vms[l]? = some root ∧ (held (p.keys ++ [a.key]) root).isSome ∧
      vms'.map bare = (vms.map bare).set l
        (put (value.normalize a.type).bare (p.keys ++ [a.key]) root.bare)) ∨
    (p.leadsToTexts s vms ∧ vms'.map bare = vms.map bare) := by
  obtain ⟨hlabels, hbare⟩ := Value.labelList_spec vms 0
  rw [Value.bareList_eq_map, Value.bareList_eq_map] at hbare
  rw [write] at h
  generalize ((Value.labelList vms).run 0).1 = labelled at hlabels hbare h
  obtain ⟨⟨old, new⟩, hstore, h⟩ := bind_ok_iff.1 h
  obtain ⟨x, c, hx, rfl, hc, rfl⟩ := store_ok ha hstore
  have hcompound := Value.isCompound_of_child hc
  obtain ⟨rootL, w, hrootL, hheldL, hw⟩ := receiver_held hp hl hx hcompound
  obtain ⟨root, hvms, hrootbare⟩ := Value.getElem?_of_bare_eq hbare hrootL
  rcases hw with rfl | ⟨ts, rfl, hlist⟩
  · left
    obtain ⟨r, hr⟩ := hlabels.ref hrootL hheldL hcompound
    simp only [hr, pure_ok, Except.ok.injEq] at h
    rw [Value.replaceList_eq_put _ hlabels.nodup hrootL hheldL hr,
      ← Value.put_snoc _ hheldL hc] at h
    refine ⟨root, hvms, ?_, ?_⟩
    · rw [Value.isSome_held_of_bare_eq hrootbare, Value.held_snoc, hheldL, Option.bind_some, hc,
        Option.isSome_some]
    · rw [← h, List.map_set, Value.bare_put, hbare, hrootbare]
  · right
    simp only [hlist, Value.ref?, pure_ok, Except.ok.injEq] at h
    refine ⟨?_, by rw [← h, hbare]⟩
    have hheld := Value.held_of_bare_eq hrootbare p.keys
    rw [hheldL] at hheld
    obtain ⟨w, hw, hwbare⟩ := Option.map_eq_some_iff.1 hheld
    simp only [Path.leadsToTexts, Path.find, hl, hvms, Option.bind_some, hw,
      Value.eq_texts_of_bare hwbare]

theorem write_of_held (hp : p.isPlain) (ha : a.isPlain) (hl : p.level s = .ok l)
    {vms : List Value} {root : Value} (hroot : vms[l]? = some root)
    (hheld : (held (p.keys ++ [a.key]) root).isSome) (control : Option Control)
    (value : Value) : ∃ vms', (a.writer p s).write vms control value = .ok vms' := by
  obtain ⟨hlabels, hbare⟩ := Value.labelList_spec vms 0
  rw [Value.bareList_eq_map, Value.bareList_eq_map] at hbare
  rw [write]
  generalize ((Value.labelList vms).run 0).1 = labelled at hlabels hbare ⊢
  obtain ⟨rootL, hrootL, hrootbare⟩ := Value.getElem?_of_bare_eq hbare.symm hroot
  rw [← Value.isSome_held_of_bare_eq hrootbare] at hheld
  obtain ⟨v, hv, hcompound, hmeaning⟩ := Path.meaning_of_held control hp hl hrootL hheld
  rw [Value.held_snoc, hv, Option.bind_some] at hheld
  obtain ⟨c, hc⟩ := Option.isSome_iff_exists.1 hheld
  obtain ⟨r, hr⟩ := hlabels.ref hrootL hv hcompound
  refine ⟨Value.replaceList r (setChild (value.normalize a.type) a.key v) labelled, ?_⟩
  simp only [store_access ha, hmeaning, ok_bind, Operand.toValue, hc, pure_ok, hr]

variable {vms vms' : List Value} {root new : Value}

/-- A path reads as what was put where it leads. -/
theorem read_put_self (hp : p.isPlain) (ha : a.isPlain) (hl : p.level s = .ok l)
    (hroot : vms[l]? = some root) (hheld : (held (p.keys ++ [a.key]) root).isSome)
    (hvms : vms'.map bare = (vms.map bare).set l (put new (p.keys ++ [a.key]) root.bare))
    {r : Reader} (hr : Reader.compile (p.access a).expr s = .ok r) (control : Option Control) :
    (r.read vms' control).map Operand.bare = .ok (.value (new.normalize a.type)) := by
  have hplain : (p.access a).isPlain := by rw [Path.isPlain, ha, hp]; rfl
  rw [Path.read_bare hplain hr, Expr.meaning]
  generalize (p.access a).expr.nextLocal = base
  rw [← Option.isSome_map (f := bare), ← Value.held_bare] at hheld
  have hput := Value.held_put new hheld
  have hroot' : (Frame.vms { vms := vms'.map bare, control })[l]? =
      some (put new (p.keys ++ [a.key]) root.bare) := by
    have hlt : l < (vms.map bare).length := by
      rw [List.length_map]
      exact (List.getElem?_eq_some_iff.1 hroot).1
    rw [hvms, List.getElem?_set_self hlt]
  obtain ⟨v, hv, hcompound, hchain⟩ :=
    Path.chain_of_held base 0 hp hl hroot' (Option.isSome_of_eq_some hput)
  rw [Value.held_snoc, hv, Option.bind_some] at hput
  rw [Path.chain_access_of_reached hcompound hchain,
    Access.read_of_child ha (Path.label_type base 0 p a) hput]
  rfl

theorem read_put_of_beside {q : Path} (hq : q.isPlain) {ks : List Key}
    (hroot : vms[l]? = some root) (hheld : (held ks root).isSome)
    (hvms : vms'.map bare = (vms.map bare).set l (put new ks root.bare)) {r : Reader}
    (hr : Reader.compile q.expr s = .ok r)
    (hbeside : ∀ m, q.level s = .ok m → m = l → ¬ q.keys <+: ks ∧ ¬ ks <+: q.keys)
    (control : Option Control) :
    (r.read vms' control).map Operand.bare = (r.read vms control).map Operand.bare := by
  obtain ⟨m, hm⟩ := Path.level_of_compile hr
  rw [Path.read_bare hq hr, Path.read_bare hq hr, Expr.meaning, Expr.meaning]
  have hroot' : (Frame.vms { vms := vms.map bare, control })[l]? = some root.bare := by
    rw [List.getElem?_map, hroot, Option.map_some]
  rw [← Option.isSome_map (f := bare), ← Value.held_bare] at hheld
  rw [Path.chain_put_of_beside hq hm hroot' hheld hvms (hbeside m hm)]

/-- Assignment through a path is a lawful update, up to references: unless the path leads to an
element of loose texts, the assignment succeeds where the path leads to something, the path then
reads as the assigned value in the standard form of its type, and the paths beside it read as
before. In loose texts nothing changes. -/
theorem write_lawful (hp : p.isPlain) (ha : a.isPlain) (hw : a.isWritable)
    (hl : p.level s = .ok l) :
    ∃ w r, compile (p.access a).expr s = .ok (some w) ∧
      Reader.compile (p.access a).expr s = .ok r ∧
      ∀ vms control value,
        (p.leadsToTexts s vms → ∀ vms', w.write vms control value = .ok vms' →
          vms'.map bare = vms.map bare) ∧
        (p.leadsToTexts s vms = false →
          ((∃ vms', w.write vms control value = .ok vms') ↔
            ((p.access a).find s vms).isSome) ∧
          ∀ vms', w.write vms control value = .ok vms' →
            (r.read vms' control).map Operand.bare =
              .ok (.value (value.normalize a.type).bare) ∧
            ∀ (q : Path) (rq : Reader), q.isPlain → Reader.compile q.expr s = .ok rq →
              ¬ q.Meets s (p.access a) → (rq.read vms' control).map Operand.bare =
                (rq.read vms control).map Operand.bare) := by
  refine ⟨a.writer p s, _, compile_access ha hw hl, Path.compile_of_level (p := p.access a) hl, ?_⟩
  intro vms control value
  constructor
  · intro htexts vms' h
    rcases write_access hp ha hl h with ⟨root, hroot, hheld, -⟩ | ⟨-, hvms⟩
    · rw [Path.leadsToTexts_of_held hl hroot hheld] at htexts
      cases htexts
    · exact hvms
  · intro htexts
    have hput vms' (h : (a.writer p s).write vms control value = .ok vms') :=
      (write_access hp ha hl h).resolve_right fun h => Bool.false_ne_true (htexts.symm.trans h.1)
    refine ⟨⟨?_, ?_⟩, ?_⟩
    · rintro ⟨vms', h⟩
      obtain ⟨root, hroot, hheld, -⟩ := hput vms' h
      rwa [Path.find_access hl, hroot]
    · intro hfind
      obtain ⟨c, hc⟩ := Option.isSome_iff_exists.1 hfind
      rw [Path.find_access hl] at hc
      obtain ⟨root, hroot, hheld⟩ := Option.bind_eq_some_iff.1 hc
      exact write_of_held hp ha hl hroot (Option.isSome_of_eq_some hheld) control value
    · intro vms' h
      obtain ⟨root, hroot, hheld, hvms⟩ := hput vms' h
      refine ⟨?_, fun q rq hq hr hbeside => ?_⟩
      · rw [read_put_self hp ha hl hroot hheld hvms (Path.compile_of_level (p := p.access a) hl),
          Value.normalize_bare, Value.normalize_normalize]
      · refine read_put_of_beside hq hroot hheld hvms hr (fun m hm hml => ?_) control
        subst hml
        exact not_or.1 fun h => hbeside ⟨m, hm, hl, h⟩

end Writer

namespace Shopping

def cart : Ty := .declared ⟨"App.Cart", false, 2⟩

def shop : Scope := ⟨{ dataType := cart }, []⟩

def line : Scope := shop.push { dataType := .int }

def listOf (name : Text) (elem : Ty) : Path :=
  .access (.context "_parent" shop)
    (.field { name, owner := cart, type := .list elem (.func [elem] .bool) })

def counts : Path := listOf "Counts" .int

def notes : Path := listOf "Notes" .string

def contexts (notes : Value) : List Value :=
  [.int 2, .object none [("Counts", .list none [.int 2, .int 3]), ("Notes", notes)]]

/-- A count is assigned, and the notes stay. -/
theorem write_lawful_counts : ∃ w r q vms',
    Writer.compile (counts.access (.item 1 .int)).expr line = .ok (some w) ∧
    Reader.compile (counts.access (.item 1 .int)).expr line = .ok r ∧
    Reader.compile notes.expr line = .ok q ∧
    w.write (contexts (.list none [.text "a"])) none (.loose (.word 4)) = .ok vms' ∧
    (r.read vms' none).map Operand.bare = .ok (.value (.int 4)) ∧
    (q.read vms' none).map Operand.bare = .ok (.value (.list none [.text "a"])) := by
  obtain ⟨w, r, hw, hr, hlaw⟩ :=
    Writer.write_lawful (s := line) (p := counts) (a := .item 1 .int) (l := 1) rfl rfl rfl rfl
  obtain ⟨hiff, hput⟩ := (hlaw (contexts (.list none [.text "a"])) none (.loose (.word 4))).2 rfl
  obtain ⟨vms', h⟩ := hiff.2 rfl
  obtain ⟨hself, hbeside⟩ := hput vms' h
  refine ⟨w, r, _, vms', hw, hr, rfl, h, hself, ?_⟩
  rw [hbeside notes _ rfl rfl]
  · rfl
  · rintro ⟨l, -, -, hmeets⟩
    revert hmeets
    decide

/-- Loose texts do not change. -/
theorem write_texts_unchanged : ∃ w r vms',
    Writer.compile (notes.access (.item 0 .string)).expr line = .ok (some w) ∧
    Reader.compile (notes.access (.item 0 .string)).expr line = .ok r ∧
    w.write (contexts (.loose (.texts ["a", "b"]))) none (.text "z") = .ok vms' ∧
    r.read vms' none = .ok (.value (.text "a")) :=
  ⟨_, _, _, rfl, rfl, rfl, rfl⟩

end Shopping

end Bindery
