import Bindery.Proofs.TypeNames
import Bindery.Server.Eval
import Mathlib.Data.List.Forall2

/-!
# Values of types

`Value.HasType` says which values a type has, and `Operand.HasType` extends it to functions: a
function of a function type takes values of the parameter types to a value of the result type, or
fails with an error that is not about null (`Fault.Benign`). Operators, conversions and predeclared
members keep to the types that the checks give them.
-/

namespace Bindery

/-! ## Failures -/

/-- The failure is that null has no members or elements. -/
def EvalCause.isNullUse : EvalCause → Bool
  | .accessOnNull _ | .callOnNull _ | .indexOfNull => true
  | _ => false

/-- An error that is not about a use of null, and was not brought about by one that is. -/
inductive Error.Benign : Error → Prop
  | plain (t : Text) : Benign (.plain t)
  | diagnosis (p : Problem) (src note : Text) : Benign (.diagnosis p src note none)
  | eval (t : Text) {c : EvalCause} (hnull : c.isNullUse = false) (hown : ∀ r, c ≠ .member r) :
    Benign (.eval t c)
  | member (t : Text) {e : Error} (h : Benign e) : Benign (.eval t (.member e.message))

/-- An error that is not about a use of null. A crash is not benign. -/
def Fault.Benign : Fault → Prop
  | .error e => e.Benign
  | .crash _ => False

/-- The outcome is a result that satisfies `P` or a benign failure. -/
def Gives {α : Type} (P : α → Prop) : Except Fault α → Prop
  | .ok a => P a
  | .error fault => fault.Benign

namespace Gives

variable {α β : Type} {P : α → Prop} {Q : β → Prop}

theorem bind {x : Except Fault α} {f : α → Except Fault β} (hx : Gives P x)
    (hf : ∀ a, P a → Gives Q (f a)) : Gives Q (x >>= f) := by
  cases x with
  | error fault => exact hx
  | ok a => exact hf a hx

theorem mono {x : Except Fault α} {P' : α → Prop} (hx : Gives P x) (h : ∀ a, P a → P' a) :
    Gives P' x := by
  cases x with
  | error fault => exact hx
  | ok a => exact h a hx

end Gives

/-! ## Values -/

/-- The types of the kind have no value but null, whether they admit null or not. -/
def Kind.isEmpty : Kind → Bool
  | .void | .static => true
  | _ => false

/-- The value is one of the type. Objects hold every field of their class that is stored, and lists
hold values of their element type. A stored function is of the type that it was stored with. -/
inductive Value.HasType (c : Catalog) : Ty → Value → Prop
  | null {t : Ty} : t.isNullable → HasType c t .null
  | empty {t : Ty} : t.kind.isEmpty → HasType c t .null
  | any (v : Value) : HasType c .any v
  | bool (b : Bool) : HasType c .bool (.bool b)
  | int (n : Int64) : HasType c .int (.int n)
  | float (x : Float) : HasType c .float (.float x)
  | text (t : Text) : HasType c .string (.text t)
  | nullable {t : Ty} {v : Value} : HasType c t v → HasType c (.nullable t) v
  | list {e p : Ty} {items : List Value} (ref : Option Ref) :
    (∀ v ∈ items, HasType c e v) → HasType c (.list e p) (.list ref items)
  | object {d : Declared} {fields : Record Value} (ref : Option Ref) :
    d.isStatic = false →
    (∀ f ∈ (c.find d).fields, f.get = none → (fields.get? f.name).isSome) →
    (∀ f ∈ (c.find d).fields, f.get = none →
      ∀ v, fields.get? f.name = some v → HasType c f.type v) →
    HasType c (.declared d) (.object ref fields)
  | function (ps : List Ty) (r : Ty) : HasType c (.func ps r) (.function none)
  | stored {n : Nat} {g : Stored} : c.functions n = some g →
    HasType c (.func g.params g.result) (.function (some n))

/-- The value, if it is not null, can belong to a type of the kind. -/
def Value.isOf : Kind → Value → Bool
  | .any, _ | .bool, .bool _ | .int, .int _ | .float, .float _ | .string, .text _
  | .object, .object .. | .list, .list .. | .func, .function _ => true
  | _, _ => false

namespace Value.HasType

variable {c : Catalog} {t : Ty} {v : Value}

theorem nullable_of_null (h : HasType c t .null) : t.isNullable ∨ t.kind.isEmpty := by
  cases h with
  | null h => exact .inl h
  | empty h => exact .inr h
  | any | nullable _ => exact .inl rfl

theorem shape (h : HasType c t v) : v = .null ∨ v.isOf t.kind := by
  induction h with
  | null _ | empty _ => exact .inl rfl
  | nullable _ ih => exact ih
  | object ref hd _ _ _ => exact .inr (by simp [Ty.kind, hd, isOf])
  | _ => exact .inr rfl

theorem ne_null (h : HasType c t v) (hn : t.isNullable = false) (he : t.kind.isEmpty = false) :
    v ≠ .null := by
  rintro rfl
  rcases h.nullable_of_null with h | h
  · rw [h] at hn; cases hn
  · rw [h] at he; cases he

theorem eq_bool (h : HasType c t v) (hk : t.kind = .bool) (hv : v ≠ .null) : ∃ b, v = .bool b := by
  have hs := h.shape.resolve_left hv
  rw [hk] at hs
  cases v <;> first | exact ⟨_, rfl⟩ | cases hs

theorem eq_int (h : HasType c t v) (hk : t.kind = .int) (hv : v ≠ .null) : ∃ n, v = .int n := by
  have hs := h.shape.resolve_left hv
  rw [hk] at hs
  cases v <;> first | exact ⟨_, rfl⟩ | cases hs

theorem eq_float (h : HasType c t v) (hk : t.kind = .float) (hv : v ≠ .null) :
    ∃ x, v = .float x := by
  have hs := h.shape.resolve_left hv
  rw [hk] at hs
  cases v <;> first | exact ⟨_, rfl⟩ | cases hs

theorem eq_text (h : HasType c t v) (hk : t.kind = .string) (hv : v ≠ .null) :
    ∃ s, v = .text s := by
  have hs := h.shape.resolve_left hv
  rw [hk] at hs
  cases v <;> first | exact ⟨_, rfl⟩ | cases hs

/-- A basic type and the types that admit null beside it have its values. -/
theorem of_kind {b : Basic} (hv : HasType c (.basic b) v) :
    (t : Ty) → t.kind = (Ty.basic b).kind → HasType c t v
  | .basic b', h => by cases b <;> cases b' <;> first | exact hv | cases h
  | .nullable t, h => .nullable (of_kind hv t h)
  | .declared d, h => by cases b <;> cases hd : d.isStatic <;> simp [Ty.kind, hd] at h
  | .list .., h | .func .., h => by cases b <;> cases h

/-! ### Forms of a value -/

theorem normalize_isNull (t : Ty) (v : Value) : (v.normalize t).isNull = v.isNull := by
  have hint n : (normalize.ofInt t n).isNull = false := by unfold normalize.ofInt; split <;> rfl
  have hfloat x : (normalize.ofFloat t x).isNull = false := by
    unfold normalize.ofFloat; split <;> rfl
  cases v with
  | int n => exact hint n
  | float x => exact hfloat x
  | loose l => cases l <;> first | exact hint _ | exact hfloat _ | rfl
  | _ => rfl

theorem normalize_nullable (t : Ty) (v : Value) : v.normalize (.nullable t) = v.normalize t := by
  cases v with
  | loose l => cases l <;> rfl
  | _ => rfl

theorem normalize (h : HasType c t v) : HasType c t (v.normalize t) := by
  induction h with
  | null h => exact .null h
  | empty h => exact .empty h
  | any v => exact .any _
  | nullable _ ih => rw [normalize_nullable]; exact .nullable ih
  | bool b => exact .bool b
  | int n => exact .int n
  | float x => exact .float x
  | text s => exact .text s
  | list ref h _ => exact .list ref h
  | object ref hd hs ht _ => exact .object ref hd hs ht
  | function ps r => exact .function ps r
  | stored h => exact .stored h

theorem default (c : Catalog) (t : Ty) : HasType c t t.default := by
  cases t with
  | basic b =>
    cases b with
    | any => exact .null rfl
    | bool => exact .bool false
    | int => exact .int 0
    | float => exact .float 0
    | string => exact .null rfl
    | void => exact .empty rfl
  | declared d =>
    cases hd : d.isStatic with
    | true =>
      have : (Ty.declared d).default = .null := by simp [Ty.default, Ty.isNullable, Ty.kind, hd]
      rw [this]
      exact .empty (by simp [Ty.kind, hd, Kind.isEmpty])
    | false =>
      have : (Ty.declared d).default = .null := by simp [Ty.default, Ty.isNullable, hd]
      rw [this]
      exact .null (by simp [Ty.isNullable, hd])
  | nullable t | list e p | func ps r => exact .null rfl

end Value.HasType

/-! ## Operands -/

/-- The operand is a value of the type, or a function that keeps to the type. -/
def Operand.HasType (c : Catalog) : Ty → Operand → Prop
  | t, .value v => v.HasType c t
  | .func ps r, .func f =>
    ∀ args, List.Forall₂ (Value.HasType c) ps args → Gives (HasType c r) (f args)
  | .basic .any, .func _ => True
  | _, .func _ => False

namespace Operand.HasType

variable {c : Catalog} {t : Ty} {x : Operand}

theorem any (c : Catalog) (x : Operand) : HasType c .any x := by
  cases x with
  | value v => exact Value.HasType.any v
  | func f => trivial

theorem toValue (h : HasType c t x) : x.toValue.HasType c t := by
  cases x with
  | value v => cases t <;> exact h
  | func f =>
    cases t with
    | basic b => cases b <;> first | exact .any _ | exact absurd h id
    | func ps r => exact .function ps r
    | _ => exact absurd h id

theorem of_value {v : Value} (h : v.HasType c t) : HasType c t v := by
  cases t <;> exact h

theorem eq_value (h : HasType c t x) (ha : t.kind ≠ .any) (hf : t.kind ≠ .func) :
    ∃ v, x = .value v ∧ v.HasType c t := by
  cases x with
  | value v => exact ⟨v, rfl, h.toValue⟩
  | func f =>
    cases t with
    | basic b => cases b <;> first | exact absurd rfl ha | exact absurd h id
    | func ps r => exact absurd rfl hf
    | _ => exact absurd h id

theorem underlying (h : HasType c t x) (hx : x.isNull = false) : HasType c t.underlying x := by
  cases t with
  | nullable t =>
    rw [Ty.underlying]
    split
    · cases x with
      | value v =>
        cases h.toValue with
        | null _ | empty _ => cases hx
        | nullable h => exact .of_value h
      | func f => exact absurd h id
    · exact h
  | _ => exact h

theorem of_underlying (h : HasType c t.underlying x) : HasType c t x := by
  cases t with
  | nullable t =>
    rw [Ty.underlying] at h
    split at h
    · rename_i hk
      have ha : t.kind ≠ .any := by rintro h0; rw [h0] at hk; cases hk
      have hf : t.kind ≠ .func := by rintro h0; rw [h0] at hk; cases hk
      obtain ⟨v, rfl, hv⟩ := h.eq_value ha hf
      exact .of_value (.nullable hv)
    · exact h
  | _ => exact h

theorem isNull_iff : x.isNull ↔ x = .value .null := by
  cases x with
  | value v => cases v <;> simp [isNull, Value.isNull]
  | func f => simp [isNull]

end Operand.HasType

/-! ## Operators -/

theorem Expr.failedIn_benign (e : Expr) {fault : Fault} (h : fault.Benign) :
    (e.failedIn fault).Benign := by
  cases fault with
  | error err => exact .member e.text h
  | crash _ => exact h

namespace Value

variable {c : Catalog} {op : BinaryOp} {s t ty : Ty} {a b : Value}

theorem arithmeticType_some (h : Expr.arithmeticType? s t = some ty) :
    s.kind.isNumeric ∧ t.kind.isNumeric ∧
      ty.kind = (if s.kind == .float || t.kind == .float then .float else .int) ∧
      ty.isNullable = (s.isNullable || t.isNullable) := by
  unfold Expr.arithmeticType? at h
  split at h
  · cases h
  · rename_i hn
    simp only [Bool.or_eq_true, Bool.not_eq_true', not_or, Bool.not_eq_false] at hn
    obtain rfl := Option.some.inj h
    refine ⟨hn.1, hn.2, ?_⟩
    cases s.isNullable || t.isNullable <;> cases s.kind == .float || t.kind == .float <;>
      exact ⟨rfl, rfl⟩

theorem not_empty_of_numeric {k : Kind} (h : k.isNumeric) : k.isEmpty = false := by
  cases k <;> first | rfl | cases h

theorem HasType.number_cases (h : HasType c t a) (hn : t.kind.isNumeric) :
    (a = .null ∧ t.isNullable) ∨ (t.kind = .int ∧ ∃ n, a = .int n) ∨
      (t.kind = .float ∧ ∃ x, a = .float x) := by
  by_cases ha : a = .null
  · subst ha
    refine .inl ⟨rfl, ?_⟩
    have he := not_empty_of_numeric hn
    rcases h.nullable_of_null with h | h
    · exact h
    · rw [h] at he; cases he
  · right
    cases hk : t.kind with
    | int => exact .inl ⟨rfl, h.eq_int hk ha⟩
    | float => exact .inr ⟨rfl, h.eq_float hk ha⟩
    | _ => rw [hk] at hn; cases hn

theorem applyInt_arithmetic (hop : op.isArithmetic) (x y : Int64) :
    Gives (fun v => ∃ n, v = .int n) (applyInt op x y) := by
  cases op with
  | add | sub | mul => exact ⟨_, rfl⟩
  | div | mod =>
    simp only [applyInt]
    split
    · exact .plain _
    · exact ⟨_, rfl⟩
  | _ => cases hop

theorem applyFloat_arithmetic (hop : op.isArithmetic) (x y : Float) :
    Gives (fun v => ∃ z, v = .float z) (applyFloat op x y) := by
  cases op with
  | add | sub | mul | div | mod => exact ⟨_, rfl⟩
  | _ => cases hop

def isEquality : BinaryOp → Bool
  | .equal | .notEqual => true
  | _ => false

/-- What an operator other than equality gives where an operand is null. -/
def nullOutcome (op : BinaryOp) : Value := if op.isComparison then .bool false else .null

section Strict

variable (hop : isEquality op = false)

include hop

theorem apply_null_left : apply op .null b = .ok (nullOutcome op) := by
  cases op <;> first | rfl | cases hop

theorem apply_null_right (ha : a ≠ .null) : apply op a .null = .ok (nullOutcome op) := by
  cases a with
  | null => exact absurd rfl ha
  | _ => cases op <;> first | rfl | cases hop

theorem apply_int (m n : Int64) : apply op (.int m) (.int n) = applyInt op m n := by
  cases op <;> first | rfl | cases hop

/-- Two numbers at least one of which is a float are compared and calculated with as floats. -/
theorem apply_float {x y : Float} (ha : a.toFloat? = some x)
    (hb : b.toFloat? = some y) (hf : (∃ z, a = .float z) ∨ ∃ z, b = .float z) :
    apply op a b = applyFloat op x y := by
  cases a <;> cases ha <;> cases b <;> cases hb
  · simp at hf
  all_goals cases op <;> first | rfl | cases hop

theorem apply_numbers (ha : HasType c s a) (hb : HasType c t b)
    (hs : s.kind.isNumeric) (ht : t.kind.isNumeric) :
    (apply op a b = .ok (nullOutcome op) ∧ (s.isNullable || t.isNullable)) ∨
      (s.kind = .int ∧ t.kind = .int ∧ ∃ m n, apply op a b = applyInt op m n) ∨
      ((s.kind == .float || t.kind == .float) ∧ ∃ x y, apply op a b = applyFloat op x y) := by
  rcases ha.number_cases hs with ⟨rfl, hn⟩ | ⟨hsk, m, rfl⟩ | ⟨hsk, x, rfl⟩
  · exact .inl ⟨apply_null_left hop, by simp [hn]⟩
  · rcases hb.number_cases ht with ⟨rfl, hn⟩ | ⟨htk, n, rfl⟩ | ⟨htk, y, rfl⟩
    · exact .inl ⟨apply_null_right hop (by simp), by simp [hn]⟩
    · exact .inr (.inl ⟨hsk, htk, m, n, apply_int hop m n⟩)
    · exact .inr (.inr ⟨by simp [htk], _, _, apply_float hop rfl rfl (.inr ⟨y, rfl⟩)⟩)
  · rcases hb.number_cases ht with ⟨rfl, hn⟩ | ⟨htk, n, rfl⟩ | ⟨htk, y, rfl⟩
    · exact .inl ⟨apply_null_right hop (by simp), by simp [hn]⟩
    · exact .inr (.inr ⟨by simp [hsk], _, _, apply_float hop rfl rfl (.inl ⟨x, rfl⟩)⟩)
    · exact .inr (.inr ⟨by simp [hsk], _, _, apply_float hop rfl rfl (.inl ⟨x, rfl⟩)⟩)

end Strict

/-- Arithmetic gives a number of the type that the checks say, or null where an operand is null. -/
theorem apply_arithmetic (hop : op.isArithmetic)
    (hty : Expr.arithmeticType? s t = some ty) (ha : HasType c s a) (hb : HasType c t b) :
    Gives (HasType c ty) (apply op a b) := by
  obtain ⟨hs, ht, hkind, hnull⟩ := arithmeticType_some hty
  have heq : isEquality op = false := by cases op <;> first | rfl | cases hop
  rcases apply_numbers heq ha hb hs ht with ⟨h, hn⟩ | ⟨hsk, htk, m, n, h⟩ | ⟨hf, x, y, h⟩ <;> rw [h]
  · have hout : nullOutcome op = .null := by cases op <;> first | rfl | cases hop
    rw [hout]
    exact .null (hnull.trans hn)
  · refine (applyInt_arithmetic hop m n).mono ?_
    rintro _ ⟨k, rfl⟩
    exact .of_kind (.int k) ty (by rw [hkind, hsk, htk]; rfl)
  · refine (applyFloat_arithmetic hop x y).mono ?_
    rintro _ ⟨z, rfl⟩
    exact .of_kind (.float z) ty (by rw [hkind, if_pos hf]; rfl)

theorem ordered_comparison (hop : op.isComparison) (o : Ordering) :
    Gives (HasType c .bool) (ordered op o) := by
  cases op <;> first | exact .bool _ | cases hop

theorem apply_comparison (hop : op.isComparison) (ha : HasType c s a) (hb : HasType c t b)
    (hst : (Expr.arithmeticType? s t).isSome ∨ s.kind = .string ∧ t.kind = .string) :
    Gives (HasType c .bool) (apply op a b) := by
  have heq : isEquality op = false := by cases op <;> first | rfl | cases hop
  have hnull : nullOutcome op = .bool false := by rw [nullOutcome, if_pos hop]
  rcases hst with hty | ⟨hs, ht⟩
  · obtain ⟨ty, hty⟩ := Option.isSome_iff_exists.1 hty
    obtain ⟨hs, ht, -, -⟩ := arithmeticType_some hty
    rcases apply_numbers heq ha hb hs ht with ⟨h, hn⟩ | ⟨hsk, htk, m, n, h⟩ | ⟨hf, x, y, h⟩ <;>
      rw [h]
    · rw [hnull]
      exact .bool false
    · have : applyInt op m n = ordered op (if m < n then .lt else if n < m then .gt else .eq) := by
        cases op <;> first | rfl | cases hop
      rw [this]
      exact ordered_comparison hop _
    · have : applyFloat op x y = if x < y then ordered op .lt else if y < x then ordered op .gt
          else if x == y then ordered op .eq else .ok (.bool false) := by
        cases op <;> first | rfl | cases hop
      rw [this]
      split
      · exact ordered_comparison hop _
      split
      · exact ordered_comparison hop _
      split
      · exact ordered_comparison hop _
      · exact .bool false
  · by_cases ha' : a = .null
    · rw [ha', apply_null_left heq, hnull]
      exact .bool false
    by_cases hb' : b = .null
    · rw [hb', apply_null_right heq ha', hnull]
      exact .bool false
    obtain ⟨x, rfl⟩ := ha.eq_text hs ha'
    obtain ⟨y, rfl⟩ := hb.eq_text ht hb'
    have : apply op (.text x) (.text y) = ordered op (x.compare y) := by
      cases op <;> first | rfl | cases hop
    rw [this]
    exact ordered_comparison hop _

end Value

namespace Expr

variable {c : Catalog} {t : Ty} {v : Operand}

theorem applyUnary_gives (e : Expr) {op : UnaryOp} (h : v.HasType c t) (hv : v.isNull = false)
    (hop : match op with
      | .not => t.kind = .bool
      | _ => t.kind.isNumeric) : Gives (Operand.HasType c t) (applyUnary e op v) := by
  have hne : v.toValue ≠ .null := by
    intro h0
    cases v with
    | value u => cases h0; cases hv
    | func f => cases h0
  cases op with
  | plus => exact h
  | not =>
    obtain ⟨u, rfl, hu⟩ := h.eq_value (by rw [hop]; simp) (by rw [hop]; simp)
    obtain ⟨b, rfl⟩ := hu.eq_bool hop hne
    exact .of_value (.of_kind (.bool _) t hop)
  | negate =>
    obtain ⟨u, rfl, hu⟩ := h.eq_value (by rintro hk; simp [hk, Kind.isNumeric] at hop)
      (by rintro hk; simp [hk, Kind.isNumeric] at hop)
    rcases hu.number_cases hop with ⟨rfl, -⟩ | ⟨hk, n, rfl⟩ | ⟨hk, x, rfl⟩
    · exact absurd rfl hne
    · exact .of_value (.of_kind (.int _) t hk)
    · exact .of_value (.of_kind (.float _) t hk)

theorem applyStrict_of_apply (e : Expr) {op : BinaryOp} {l r : Operand}
    (hop : (op == .add && t.kind == .string) = false)
    (h : Gives (Value.HasType c t) (Value.apply op l.toValue r.toValue)) :
    Gives (Operand.HasType c t) (applyStrict e op t l r) := by
  rw [applyStrict, hop, if_neg Bool.false_ne_true]
  cases hv : Value.apply op l.toValue r.toValue with
  | ok v => rw [hv] at h; exact .of_value h
  | error fault => rw [hv] at h; exact failedIn_benign e h

theorem applyStrict_gives (e : Expr) {op : BinaryOp} {x y : Expr} {l r : Operand}
    (hop : op ≠ .andAlso ∧ op ≠ .orElse ∧ op ≠ .coalesce) (ht : binaryType? op x y = some t)
    (hl : l.HasType c x.type) (hr : r.HasType c y.type) :
    Gives (Operand.HasType c t) (applyStrict e op t l r) := by
  have arithmetic (hop : op.isArithmetic) (hty : arithmeticType? x.type y.type = some t) :
      Gives (Operand.HasType c t) (applyStrict e op t l r) := by
    have hkind : (op == .add && t.kind == .string) = false := by
      rw [(Value.arithmeticType_some hty).2.2.1]
      split <;> simp
    exact applyStrict_of_apply e hkind (Value.apply_arithmetic hop hty hl.toValue hr.toValue)
  have comparison (hop : op.isComparison)
      (hty : (if (arithmeticType? x.type y.type).isSome ||
        x.type.kind == .string && y.type.kind == .string then some Ty.bool else none) = some t) :
      Gives (Operand.HasType c t) (applyStrict e op t l r) := by
    split at hty
    · rename_i hst
      obtain rfl := Option.some.inj hty
      have hadd : (op == .add) = false := by cases op <;> first | rfl | cases hop
      refine applyStrict_of_apply e (by rw [hadd, Bool.false_and])
        (Value.apply_comparison hop hl.toValue hr.toValue ?_)
      simpa using hst
    · cases hty
  cases op with
  | add =>
    simp only [binaryType?] at ht
    split at ht
    · obtain rfl := Option.some.inj ht
      exact .of_value (.text _)
    · exact arithmetic rfl ht
  | sub | mul | div | mod => exact arithmetic rfl ht
  | equal | notEqual =>
    obtain rfl := Option.some.inj ht
    exact .of_value (.bool _)
  | less | lessEqual | greater | greaterEqual => exact comparison rfl ht
  | andAlso => exact absurd rfl hop.1
  | orElse => exact absurd rfl hop.2.1
  | coalesce => exact absurd rfl hop.2.2

/-- A binary operation gives a value of the type that the checks say. -/
theorem applyBinary_gives {u : Universe} (hu : u.WellNamed) (e : Expr) {op : BinaryOp} {x y : Expr}
    {l : Operand} {right : Unit → Except Fault Operand} (hx : x.type.Formed u)
    (hy : y.type.Formed u) (ht : binaryType? op x y = some t)
    (hl : l.HasType c x.type)
    (hr : Gives (fun r => r.HasType c y.type ∧ (y.isNullConst → r = .value .null))
      (right ())) :
    Gives (Operand.HasType c t) (applyBinary e op t l right) := by
  have truth {ty : Ty} (hb : ty.kind = .bool) :
      Gives (Operand.HasType c ty) (do return Value.bool (← right ()).isTrue) :=
    hr.bind fun r _ => .of_value (.of_kind (.bool _) ty hb)
  have boolean (hty : (if x.type.kind == .bool && y.type.kind == .bool then
      some (if x.type.isNullable || y.type.isNullable then Ty.nullable .bool else .bool)
      else none) = some t) : t.kind = .bool := by
    split at hty
    · obtain rfl := Option.some.inj hty
      split <;> rfl
    · cases hty
  cases op with
  | andAlso =>
    rw [applyBinary]
    split
    · exact truth (boolean ht)
    · exact .of_value (.of_kind (.bool _) t (boolean ht))
  | orElse =>
    rw [applyBinary]
    split
    · exact .of_value (.of_kind (.bool _) t (boolean ht))
    · exact truth (boolean ht)
  | coalesce =>
    simp only [binaryType?] at ht
    split at ht
    · cases ht
    rename_i hnull
    simp only [Bool.not_eq_true', Bool.not_eq_false] at hnull
    rw [applyBinary]
    split at ht
    · -- The right operand is the null literal.
      rename_i hconst
      obtain rfl := Option.some.inj ht
      split
      · exact hr.mono fun r h => by rw [h.2 hconst]; exact .of_value (.null hnull)
      · exact hl
    split at ht
    · rename_i hid
      obtain rfl := Option.some.inj ht
      split
      · exact hr.mono fun r h => h.1
      · rename_i hl0
        simp only [Bool.or_eq_true] at hid
        rcases hid with hid | hid
        · rw [← hx.underlying.eq_of_identical hu hy hid]
          exact hl.underlying (by simpa using hl0)
        · rw [← hx.eq_of_identical hu hy hid]
          exact hl
    split at ht
    · rename_i hany
      obtain rfl := Option.some.inj ht
      rw [hx.eq_any (by simpa using hany)]
      split
      · exact hr.mono fun r _ => .any c r
      · exact .any c l
    · cases ht
  | _ =>
    refine hr.bind fun r h => ?_
    exact applyStrict_gives e ⟨by simp, by simp, by simp⟩ ht hl h.1

/-! ### Conversions -/

theorem applyConversion_lift (h : v.HasType c t.underlying) :
    (applyConversion .lift t v).HasType c t := h.of_underlying

theorem applyConversion_numeric {s : Ty} (h : v.HasType c s) (hs : s.kind = .int)
    (ht : t.kind = .float) (hn : (t.isNullable || !s.isNullable)) :
    (applyConversion .numeric t v).HasType c t := by
  obtain ⟨u, rfl, hu⟩ := h.eq_value (by rw [hs]; simp) (by rw [hs]; simp)
  rcases hu.number_cases (by rw [hs]; rfl) with ⟨rfl, hnull⟩ | ⟨-, n, rfl⟩ | ⟨hk, x, rfl⟩
  · refine .of_value (.null ?_)
    simpa [hnull] using hn
  · simp only [applyConversion, ht, beq_self_eq_true, if_true]
    exact .of_value (.of_kind (.float _) t ht)
  · rw [hs] at hk
    cases hk

theorem applyConversion_box_list {s p : Ty} (h : v.HasType c s) (hs : s.kind = .list) :
    (applyConversion .box (.list .any p) v).HasType c (.list .any p) := by
  obtain ⟨u, rfl, hu⟩ := h.eq_value (by rw [hs]; simp) (by rw [hs]; simp)
  by_cases hnull : u = .null
  · subst hnull
    exact .of_value (.null rfl)
  have hshape := hu.shape.resolve_left hnull
  rw [hs] at hshape
  cases u with
  | list ref items => exact .of_value (.list ref fun v _ => .any v)
  | _ => cases hshape

end Expr

end Bindery
