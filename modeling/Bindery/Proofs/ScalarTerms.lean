import Bindery.Proofs.FinishedScripts

/-!
# Scalar terms

A term (`Expr.IsTerm`) combines fields and constants with signs, arithmetic on integers,
concatenation, `ToString` and casts to texts. `Expr.value false` is what a term comes to on the
server, and `Expr.value true` what its script comes to with null checks. Each operator of a term
keeps the correspondence `Expr.Evaluates`, so every term has it (`IsTerm.evaluates`).

The two values differ in three places. Scripts take null after a sign for zero, write Booleans in
lower case, and call `ToString` on the default of a value that a null is in the way of, where the
server does not call it. `Expr.arithmetic_agrees` and `Expr.texts_agree` say that they are the same
elsewhere.
-/

namespace Bindery

open Client

/-! ## What terms come to -/

namespace Value

def scalarTypes : List Ty := [.bool, .nullable .bool, .int, .nullable .int, .string]

/-- A value after a sign. Scripts take null for zero there. -/
def signed (client : Bool) (op : UnaryOp) : Value → Value
  | .int n => .int (if op = .negate then -n else n)
  | v => if client then .int 0 else v

def combined : BinaryOp → Value → Value → Value
  | .add, .int a, .int b => .int (a + b)
  | .sub, .int a, .int b => .int (a - b)
  | .mul, .int a, .int b => .int (a * b)
  | _, _, _ => .null

/-- The text of a value, which scripts write as it stands. Null has the empty text. -/
def shown (client : Bool) : Value → Text
  | .null => ∅
  | v => if client then v.display else v.format

def rendered (client : Bool) (v : Value) : Value :=
  if v.isNull then .null else .text (v.shown client)

/-- The value has one form on both sides: integers that are floats, and texts of characters. -/
def IsExact : Value → Prop
  | .null | .bool _ => True
  | .int n => n.toInt.natAbs ≤ Number.limit
  | .text t => Text.ofChars t.chars = t
  | _ => False

instance : DecidablePred IsExact
  | .null | .bool _ => .isTrue trivial
  | .int n => inferInstanceAs (Decidable (n.toInt.natAbs ≤ Number.limit))
  | .text t => inferInstanceAs (Decidable (Text.ofChars t.chars = t))
  | .float _ | .list .. | .object .. | .loose _ | .function _ => .isFalse id

end Value

/-- The outcome of an operator before it is fitted into 64 bits. -/
def BinaryOp.onInts : BinaryOp → Int → Int → Int
  | .sub, a, b => a - b
  | .mul, a, b => a * b
  | _, a, b => a + b

namespace Expr

/-- What a term comes to on the server or in a script, unless a null stops it. Only the server has
its texts stopped. -/
def reading (client : Bool) (s : Scope) (vms : List Value) : Expr → Option Value
  | .const v _ => some v
  | .unary op x => some (((x.reading client s vms).getD x.type.default).signed client op)
  | .binary op x y t =>
    let v := (x.reading client s vms).getD x.type.default
    let w := (y.reading client s vms).getD y.type.default
    some (if t.kind == .string then .text (v.shown client ++ w.shown client) else .combined op v w)
  | .call x _ _ =>
    if client then some (((x.reading client s vms).getD x.type.default).rendered client)
    else (x.reading client s vms).bind fun v => if v.isNull then none else some (v.rendered client)
  | .convert _ x _ => some (((x.reading client s vms).getD x.type.default).rendered client)
  | e => e.follow s vms

def value (client : Bool) (s : Scope) (vms : List Value) (e : Expr) : Value :=
  (e.reading client s vms).getD e.type.default

/-- The numbers and texts in a term, and the numbers that it comes to in a script on the way, have
one form on both sides. -/
def Fits (s : Scope) (vms : List Value) : Expr → Prop
  | .const v _ => v.IsExact
  | .unary _ x => x.Fits s vms
  | .binary op x y t => x.Fits s vms ∧ y.Fits s vms ∧ (t.kind ≠ .string → ∀ a b,
      x.value true s vms = .int a → y.value true s vms = .int b →
        (op.onInts a.toInt b.toInt).natAbs ≤ Number.limit)
  | .call x _ _ => x.Fits s vms
  | .convert _ x _ => x.Fits s vms
  | e => ∀ v ∈ e.follow s vms, v.IsExact

/-- The fields in a term of integers, those under signs included or not. -/
def leaves (signs : Bool) : Expr → List Expr
  | .const .. => []
  | .unary _ x => if signs then x.leaves signs else []
  | .binary _ x y _ => x.leaves signs ++ y.leaves signs
  | e => [e]

/-- No sign stands before null in the term, no Boolean becomes a text, and `ToString` is not called
where a null stops the way to a value that cannot be null. -/
def Faithful (s : Scope) (vms : List Value) : Expr → Prop
  | .unary _ x => x.Faithful s vms ∧ x.value false s vms ≠ .null
  | .binary _ x y t => x.Faithful s vms ∧ y.Faithful s vms ∧ (t.kind = .string →
      (∀ b, x.value false s vms ≠ .bool b) ∧ ∀ b, y.value false s vms ≠ .bool b)
  | .call x _ _ => x.Faithful s vms ∧ (∀ b, x.value false s vms ≠ .bool b) ∧
      (x.reading false s vms = none → x.type.isNullable)
  | .convert _ x _ => x.Faithful s vms ∧ ∀ b, x.value false s vms ≠ .bool b
  | _ => True

/-- Fields and constants under signs, arithmetic and concatenation, as they are or as texts. -/
inductive IsTerm (c : Catalog) (s : Scope) : Expr → Prop
  | path {e : Expr} (he : e.IsPath c Registry.standard s)
    (ht : e.type ∈ Value.scalarTypes) : IsTerm c s e
  | int (n : Int64) : IsTerm c s (.const (.int n) .int)
  | text (t : Text) : IsTerm c s (.const (.text t) .string)
  | sign {op : UnaryOp} {x : Expr} (hop : op ≠ .not) (hx : IsTerm c s x) (hk : x.type.kind = .int) :
    IsTerm c s (.unary op x)
  | arith {op : BinaryOp} {x y : Expr} {t : Ty} (hop : op = .add ∨ op = .sub ∨ op = .mul)
    (hx : IsTerm c s x) (hy : IsTerm c s y) (hkx : x.type.kind = .int) (hky : y.type.kind = .int)
    (ht : arithmeticType? x.type y.type = some t) : IsTerm c s (.binary op x y t)
  | concat {x y : Expr} (hx : IsTerm c s x) (hy : IsTerm c s y)
    (hk : x.type.kind = .string ∨ y.type.kind = .string) : IsTerm c s (.binary .add x y .string)
  | toText {x : Expr} (hx : IsTerm c s x) : IsTerm c s (.call x Method.anyMethods[0] [])
  | cast {x : Expr} (hx : IsTerm c s x) : IsTerm c s (.convert .toText x .string)

variable {c : Catalog} {s : Scope} {e : Expr}

/-- The ways to make a text of `e`: its `ToString`, its cast to a text, and to put it before or
after the text `y`. -/
inductive IsRendering (e y : Expr) : Expr → Prop
  | toText : IsRendering e y (.call e Method.anyMethods[0] [])
  | cast {r : Expr} (h : e.convertTo .string true = .ok r) : IsRendering e y r
  | before : IsRendering e y (.binary .add e y .string)
  | after : IsRendering e y (.binary .add y e .string)

theorem IsTerm.checked (he : e.IsTerm c s) : e.checked s = .ok () := by
  induction he with
  | path he => exact he.checked
  | int | text => rfl
  | sign _ _ _ ih => exact ih
  | arith _ _ _ _ _ _ ihx ihy | concat _ _ _ ihx ihy => rw [Expr.checked, ihx, ok_bind]; exact ihy
  | toText _ ih => rw [Expr.checked, ih]; rfl
  | cast _ ih => exact ih

end Expr

/-! ## Client forms -/

namespace Client

/-- The client form of a value, where zero has a sign. -/
inductive Appears : Bindery.Value → Value → Prop
  | null : Appears .null .null
  | bool (b : Bool) : Appears (.bool b) (.bool b)
  | int {n : Int64} {x : Number} (h : x.toInt? = some n.toInt) : Appears (.int n) (.number x)
  | text (t : Text) : Appears (.text t) (.text t)

theorem appears_ofScalar {v : Bindery.Value} (hv : v.IsExact) : Appears v (ofScalar v) := by
  cases v with
  | null => exact .null
  | bool b => exact .bool b
  | int n =>
    refine .int ?_
    rw [Number.ofInt, if_pos (show n.toInt.natAbs ≤ Number.limit from hv)]
    rfl
  | text t =>
    have ht : ofScalar (.text t) = .text t := congrArg Value.text hv
    exact ht ▸ .text t
  | _ => cases hv

namespace Appears

variable {v : Bindery.Value} {u : Value}

theorem isNullish (h : Appears v u) : u.isNullish = v.isNull := by cases h <;> rfl

theorem reveal (h : Appears v u) : u.isPrimitive ∧ Client.reveal u = ([], v) := by
  cases h with
  | @int n x h =>
    refine ⟨rfl, congrArg (Prod.mk []) ?_⟩
    cases x with
    | int k => rw [Option.some.inj h, revealNumber, Int64.ofInt_toInt]
    | negZero => rw [revealNumber, ← Int64.ofInt_toInt n, ← Option.some.inj h]; rfl
    | float => cases h
  | _ => exact ⟨rfl, rfl⟩

theorem primitive (h : Appears v u) (c : Caller) (b : Bool) : Client.primitive c b u = pure u := by
  cases h <;> simp [Client.primitive]

theorem toText (h : Appears v u) (hv : v.isNull = false) : u.toText = v.shown true := by
  cases h with
  | null => cases hv
  | @int n x h =>
    cases x with
    | int k => exact congrArg Text.ofInt (Option.some.inj h)
    | negZero =>
      have hn : n.toInt = 0 := (Option.some.inj h).symm
      change _ = Text.ofInt n.toInt
      rw [hn]
      rfl
    | float => cases h
  | _ => rfl

theorem toNumber (h : Appears v u) (depth : Nat) :
    (hostWithin depth).toNumber u = pure u.toNumber := by
  refine Eq.trans (congrArg (· >>= _) (h.primitive _ false)) ?_
  rfl

end Appears

namespace Number

variable {x y : Number} {a b : Int}

theorem toInt?_neg (hx : x.toInt? = some a) : x.neg.toInt? = some (-a) := by
  cases x with
  | int n =>
    obtain rfl := Option.some.inj hx
    rw [neg]
    split
    · simp_all [toInt?]
    · rfl
  | negZero => obtain rfl := Option.some.inj hx; rfl
  | float => cases hx

theorem toInt?_ofInt (ha : a.natAbs ≤ limit) : (ofInt a).toInt? = some a := by
  rw [ofInt, if_pos ha]
  rfl

variable (hx : x.toInt? = some a) (hy : y.toInt? = some b)

include hx hy

theorem toInt?_add (hab : (a + b).natAbs ≤ limit) :
    (x.add y).toInt? = some (a + b) := by
  cases x <;> cases y <;> cases hx <;> cases hy
  · exact toInt?_ofInt hab
  all_goals simp [add, toInt?]

theorem toInt?_sub (hab : (a - b).natAbs ≤ limit) :
    (x.sub y).toInt? = some (a - b) := by
  cases x <;> cases y <;> cases hx <;> cases hy
  · exact toInt?_ofInt hab
  · simp [sub, toInt?]
  · rw [sub]
    split <;> simp_all [toInt?]
  · rfl

theorem toInt?_mul (hab : (a * b).natAbs ≤ limit) :
    (x.mul y).toInt? = some (a * b) := by
  cases x <;> cases y <;> cases hx <;> cases hy
  · rw [mul]
    split
    · simp_all [toInt?]
    · exact toInt?_ofInt hab
  · rw [mul]
    split <;> simp [toInt?]
  · rw [mul]
    split <;> simp [toInt?]
  · rfl

end Number

theorem binary_numbers {op : BinaryOp} (hop : op = .add ∨ op = .sub ∨ op = .mul)
    {x y : Number} {a b : Int}
    (hx : x.toInt? = some a) (hy : y.toInt? = some b) (hab : (op.onInts a b).natAbs ≤ Number.limit)
    (depth : Nat) : ∃ z, (hostWithin depth).binary (Expr.lowerBinaryOp op) (.number x) (.number y) =
      pure (.number z) ∧ z.toInt? = some (op.onInts a b) := by
  rcases hop with rfl | rfl | rfl
  · exact ⟨_, rfl, Number.toInt?_add hx hy hab⟩
  · exact ⟨_, rfl, Number.toInt?_sub hx hy hab⟩
  · exact ⟨_, rfl, Number.toInt?_mul hx hy hab⟩

end Client

namespace Value

variable {c : Catalog} {t : Ty} {v w : Value} {op : BinaryOp}

theorem mem_scalarTypes : t ∈ scalarTypes ↔
    t = .bool ∨ t = .nullable .bool ∨ t = .int ∨ t = .nullable .int ∨ t = .string := by
  simp [scalarTypes]

theorem string_mem : Ty.string ∈ scalarTypes := by simp [mem_scalarTypes]

theorem HasType.isNullable (h : v.HasType c t) (ht : t ∈ scalarTypes) (hv : v = .null) :
    t.isNullable := by
  subst hv
  have hempty : ∀ t ∈ scalarTypes, t.kind.isEmpty = false := by decide
  rcases h.nullable_of_null with h | h
  · exact h
  · cases (hempty t ht).symm.trans h

theorem HasType.int_or_null (h : v.HasType c t) (ht : t ∈ scalarTypes) (hk : t.kind = .int) :
    (v = .null ∧ t.isNullable) ∨ ∃ n, v = .int n := by
  by_cases hv : v = .null
  · exact .inl ⟨hv, h.isNullable ht hv⟩
  · exact .inr (h.eq_int hk hv)

theorem default_hasType (ht : t ∈ scalarTypes) : t.default.HasType c t := by
  rcases mem_scalarTypes.1 ht with rfl | rfl | rfl | rfl | rfl
  · exact .bool _
  · exact .null rfl
  · exact .int _
  · exact .null rfl
  · exact .null rfl

theorem default_isExact (ht : t ∈ scalarTypes) : t.default.IsExact := by
  revert t
  decide

@[simp]
theorem combined_null_left (op : BinaryOp) (w : Value) : combined op .null w = .null := by
  cases op <;> cases w <;> rfl

@[simp]
theorem combined_null_right (op : BinaryOp) (v : Value) : combined op v .null = .null := by
  cases op <;> cases v <;> rfl

theorem int_hasType (ht : t ∈ scalarTypes) (hk : t.kind = .int) (n : Int64) :
    (Value.int n).HasType c t := by
  rcases mem_scalarTypes.1 ht with rfl | rfl | rfl | rfl | rfl
  · cases hk
  · cases hk
  · exact .int n
  · exact .nullable (.int n)
  · cases hk

theorem shown_false (v : Value) : v.shown false = v.format := by cases v <;> rfl

theorem rendered_hasType (v : Value) (client : Bool) : (v.rendered client).HasType c .string := by
  rw [rendered]
  split
  · exact .null rfl
  · exact .text _

theorem rendered_eq_null {client : Bool} : v.rendered client = .null ↔ v = .null := by
  cases v <;> simp [rendered, isNull]

theorem rendered_ne_int (v : Value) (client : Bool) (n : Int64) : v.rendered client ≠ .int n := by
  rw [rendered]
  split <;> exact nofun

theorem signed_int {k : Int64} (hk : k.toInt.natAbs ≤ Number.limit) (client : Bool) (op : UnaryOp) :
    ∃ n : Int64, signed client op (.int k) = .int n ∧
      n.toInt = if op = .negate then -k.toInt else k.toInt := by
  refine ⟨_, rfl, ?_⟩
  split
  · rw [Int64.toInt_neg]
    refine Int.bmod_eq_of_le ?_ ?_ <;> simp only [Number.limit] at hk ⊢ <;> omega
  · rfl

theorem signed_ne_null (op : UnaryOp) (v : Value) : v.signed true op ≠ .null := by
  cases v <;> exact nofun

theorem signed_eq_null_iff {op : UnaryOp} (hv : v = .null ∨ ∃ n, v = .int n) :
    v.signed false op = .null ↔ v = .null := by
  rcases hv with rfl | ⟨n, rfl⟩ <;> simp [signed]

variable (hop : op = .add ∨ op = .sub ∨ op = .mul)

include hop

theorem combined_eq_null_iff (hv : v = .null ∨ ∃ n, v = .int n) (hw : w = .null ∨ ∃ n, w = .int n) :
    combined op v w = .null ↔ v = .null ∨ w = .null := by
  rcases hv with rfl | ⟨a, rfl⟩ <;> rcases hw with rfl | ⟨b, rfl⟩ <;>
    rcases hop with rfl | rfl | rfl <;>
    simp [combined]

theorem combined_int (a b : Int64) (h : (op.onInts a.toInt b.toInt).natAbs ≤ Number.limit) :
    ∃ n : Int64, combined op (.int a) (.int b) = .int n ∧ n.toInt = op.onInts a.toInt b.toInt := by
  rcases hop with rfl | rfl | rfl <;> refine ⟨_, rfl, ?_⟩ <;>
    simp only [Int64.toInt_add, Int64.toInt_sub, Int64.toInt_mul] <;>
    refine Int.bmod_eq_of_le ?_ ?_ <;> simp only [BinaryOp.onInts, Number.limit] at h ⊢ <;> omega

theorem apply_eq_combined (hv : v = .null ∨ ∃ n, v = .int n) (hw : w = .null ∨ ∃ n, w = .int n) :
    apply op v w = .ok (combined op v w) := by
  rcases hop with rfl | rfl | rfl <;> rcases hv with rfl | ⟨a, rfl⟩ <;>
    rcases hw with rfl | ⟨b, rfl⟩ <;> rfl

end Value

namespace Expr

open Value (scalarTypes)

/-- A term comes to its value on the server, and to its value in scripts where the script is made
from `tree`. -/
structure Evaluates (c : Catalog) (s : Scope) (fr : Frame) (depth : Nat) (e : Expr)
    (tree : Script) : Prop where
  type_mem : e.type ∈ scalarTypes
  typed (client : Bool) : (e.value client s fr.vms).HasType c e.type
  chain (base n : Nat) : e.chain s base fr n = .ok (.of (e.reading false s fr.vms))
  known : e.value false s fr.vms = .null → e.knownNonNull = false
  lower : e.lower Registry.standard s = .ok tree
  written : tree.Everywhere Script.IsWritten
  type : tree.type? = some e.type
  notNull : tree.marks.notNull → e.value true s fr.vms ≠ .null
  small : ∀ n, e.value true s fr.vms = .int n → n.toInt.natAbs ≤ Number.limit
  yields : ∀ ρ, Surrounds ρ fr.vms → ∃ u, Appears (e.value true s fr.vms) u ∧
    Yields (hostWithin depth) ρ tree.value.checkNulls u

variable {c : Catalog} {s : Scope} {fr : Frame} {depth : Nat} {e x y : Expr} {tree tree' : Script}

theorem value_binary {t : Ty} (ht : (t.kind == .string) = false) (client : Bool) (s : Scope)
    (vms : List Value) (op : BinaryOp) (x y : Expr) : value client s vms (.binary op x y t) =
      .combined op (x.value client s vms) (y.value client s vms) := by
  rw [value, reading, ht]
  rfl

section

variable {r t u : Ty} (hr : r.kind = .int) (ht : t.kind = .int) (h : arithmeticType? r t = some u)

include hr ht h

theorem arithmeticType?_int :
    u = if r.isNullable || t.isNullable then .nullable .int else .int := by
  rw [arithmeticType?, hr, ht] at h
  exact (Option.some.inj h).symm

theorem arithmeticType?_mem : u ∈ scalarTypes := by
  rw [arithmeticType?_int hr ht h]
  split <;> simp [Value.mem_scalarTypes]

theorem kind_of_arithmeticType? : u.kind = .int := by
  rw [arithmeticType?_int hr ht h]
  split <;> rfl

end

section Arithmetic

variable {op : BinaryOp} (hop : op = .add ∨ op = .sub ∨ op = .mul)

include hop

theorem combined_hasType {r t u : Ty} {v w : Value} (hr : r.kind = .int) (ht : t.kind = .int)
    (hu : arithmeticType? r t = some u) (hv : (v = .null ∧ r.isNullable) ∨ ∃ n, v = .int n)
    (hw : (w = .null ∧ t.isNullable) ∨ ∃ n, w = .int n) : (Value.combined op v w).HasType c u := by
  have hmem := arithmeticType?_mem hr ht hu
  have hnull (h : r.isNullable ∨ t.isNullable) : u.isNullable := by
    rw [arithmeticType?_int hr ht hu, if_pos (by simpa using h)]
    rfl
  rcases hv with ⟨rfl, hn⟩ | ⟨a, rfl⟩
  · rw [Value.combined_null_left]
    exact .null (hnull (.inl hn))
  rcases hw with ⟨rfl, hn⟩ | ⟨b, rfl⟩
  · rw [Value.combined_null_right]
    exact .null (hnull (.inr hn))
  have hkind := kind_of_arithmeticType? hr ht hu
  rcases hop with rfl | rfl | rfl <;> exact Value.int_hasType hmem hkind _

theorem applyBinary_eq_combined {t : Ty} (ht : (t.kind == .string) = false) {v w : Value}
    (hv : v = .null ∨ ∃ n, v = .int n) (hw : w = .null ∨ ∃ n, w = .int n) (e : Expr) :
    applyBinary e op t (.value v) (fun _ => .ok (.value w)) = .ok (.value (.combined op v w)) := by
  have hstrict : applyBinary e op t (.value v) (fun _ => .ok (.value w)) =
      applyStrict e op t (.value v) (.value w) := by
    rcases hop with rfl | rfl | rfl <;> rfl
  rw [hstrict, applyStrict, ht, Bool.and_false, if_neg Bool.false_ne_true]
  simp only [Operand.toValue]
  rw [Value.apply_eq_combined hop hv hw]

theorem lowerBinary_arith {t : Ty} (ht : (t.kind == .string) = false) (r u : Ty) (z z' : Script) :
    lowerBinary op t r u z z' =
      nullIfNull t z (nullIfNull t z' ((Script.bin (lowerBinaryOp op) z z').typed t)) := by
  rw [lowerBinary, ht]
  rcases hop with rfl | rfl | rfl <;> rfl

end Arithmetic

theorem marks_nullIfNull (t : Ty) (z body : Script) (h : body.marks = { type := some t }) :
    (nullIfNull t z body).marks = { type := some t } := by
  rw [nullIfNull]
  split
  · rfl
  · exact h

section Written

open Script (IsWritten isWritten_kept)

variable {z z' : Script} (hz : z.Everywhere IsWritten)

include hz

theorem bin_written {op : BinOp} (hop : op ≠ .assign) (t : Ty) (hz' : z'.Everywhere IsWritten) :
    ((Script.bin op z z').typed t).Everywhere IsWritten :=
  .mk ⟨⟨rfl, hop⟩, trivial⟩ (List.forall_mem_cons.2 ⟨hz, List.forall_mem_singleton.2 hz'⟩)

theorem ifNull_written (m : Marks) (hm : m.temp = false) (hz' : z'.Everywhere IsWritten) :
    (Script.cond m (Script.bin .looseEq z Script.null) Script.null z').Everywhere IsWritten := by
  have hnull : Script.null.Everywhere IsWritten := .mk ⟨⟨rfl, trivial⟩, trivial⟩ nofun
  have htest : (Script.bin .looseEq z Script.null).Everywhere IsWritten :=
    .mk ⟨⟨rfl, nofun⟩, trivial⟩ (List.forall_mem_cons.2 ⟨hz, List.forall_mem_singleton.2 hnull⟩)
  exact .mk ⟨⟨hm, trivial⟩, trivial⟩ (List.forall_mem_cons.2
    ⟨htest, List.forall_mem_cons.2 ⟨hnull, List.forall_mem_singleton.2 hz'⟩⟩)

theorem nullIfNull_written (t : Ty) (hz' : z'.Everywhere IsWritten) :
    (nullIfNull t z z').Everywhere IsWritten := by
  unfold nullIfNull
  split
  · exact ifNull_written hz _ rfl hz'
  · exact hz'

theorem concatOperand_written (t : Ty) : (concatOperand z t).Everywhere IsWritten := by
  unfold concatOperand
  split
  · exact hz
  · exact .mk ⟨⟨rfl, nofun⟩, trivial⟩ (List.forall_mem_cons.2
      ⟨hz, List.forall_mem_singleton.2 (.mk ⟨⟨rfl, trivial⟩, trivial⟩ nofun)⟩)

theorem toText_written : (z.toText.typed .string).Everywhere IsWritten := by
  have hstring : (Script.id "String").notNull.Everywhere IsWritten :=
    .mk ⟨⟨rfl, rfl⟩, trivial⟩ nofun
  refine ifNull_written hz _ rfl (.mk ⟨⟨rfl, trivial⟩, trivial⟩ ?_)
  exact List.forall_mem_cons.2 ⟨hstring, List.forall_mem_singleton.2 hz⟩

end Written

theorem Link.getD_of (o : Option Value) (t : Ty) :
    (Link.of o).getD t = .value (o.getD t.default) := by
  cases o <;> rfl

theorem evaluates_path (he : e.IsPath c Registry.standard s) (ht : e.type ∈ scalarTypes)
    (hvms : Models c s fr.vms) (hρ : ∃ ρ, Surrounds ρ fr.vms) (hfits : e.Fits s fr.vms) :
    ∃ tree, Evaluates c s fr depth e tree := by
  have hreading (client : Bool) : e.reading client s fr.vms = e.follow s fr.vms := by
    cases he <;> rfl
  have hvalue (client : Bool) :
      e.value client s fr.vms = (e.follow s fr.vms).getD e.type.default := by
    rw [value, hreading]
  have hexact : ∀ v ∈ e.follow s fr.vms, v.IsExact := by cases he <;> exact hfits
  have hexact' : ((e.follow s fr.vms).getD e.type.default).IsExact := by
    cases hv : e.follow s fr.vms with
    | none => exact Value.default_isExact ht
    | some v => exact hexact v hv
  obtain ⟨y, hy, hreads⟩ := he.reads fr depth hvms
  obtain ⟨ρ, hρ⟩ := hρ
  obtain ⟨o, hx⟩ := hreads ρ hρ
  refine ⟨y.typed e.type, ht, fun client => ?_, fun base n => ?_, fun h => ?_, hy,
    he.typed_written hy e.type, ?_, fun h => ?_, fun n h => ?_, fun ρ hρ => ?_⟩
  · rw [hvalue]
    cases hv : e.follow s fr.vms with
    | none => exact Value.default_hasType ht
    | some v => exact hx.typed v hv
  · rw [hreading]
    exact hx.chain base n
  · refine hx.known ?_
    rw [hvalue] at h
    cases hv : e.follow s fr.vms with
    | none => rfl
    | some v => rw [hv] at h; exact h
  · exact congrArg Marks.type (Script.marks_setMarks _ y)
  · rw [Script.typed, Script.mark, Script.marks_setMarks] at h
    obtain ⟨v, hv, hne⟩ := hx.notNull (by simpa [Marks.merge] using h)
    rw [hvalue, hv]
    exact hne
  · rw [hvalue] at h
    rw [h] at hexact'
    exact hexact'
  · obtain ⟨o, hx⟩ := hreads ρ hρ
    rw [hvalue]
    refine ⟨_, appears_ofScalar hexact', hx.yields (fun v hv => ?_) e.type⟩
    have := hexact v hv
    cases v <;> first | rfl | cases this

theorem evaluates_const {v : Value} {l : Literal} {t : Ty} (hv : v.IsExact)
    (hl : Literal.ofValue? v = some l)
    (hnull : v.isNull = false) (ht : t ∈ scalarTypes) (htyped : v.HasType c t) :
    ∃ tree, Evaluates c s fr depth (.const v t) tree := by
  have hne : v ≠ .null := by rintro rfl; cases hnull
  refine ⟨((Script.lit l).typed t).notNull, ht, fun _ => htyped, fun _ _ => rfl,
    fun h => absurd h hne, ?_, .mk ⟨⟨rfl, trivial⟩, trivial⟩ nofun, rfl, fun _ => hne,
    fun n h => ?_,
    fun ρ _ => ?_⟩
  · rw [lower, lowerValue, hl, hnull]
    rfl
  · obtain rfl : v = .int n := h
    exact hv
  · have happears := appears_ofScalar hv
    rw [ofScalar, hl] at happears
    exact ⟨_, happears, .literal l⟩

namespace Evaluates

variable (hx : Evaluates c s fr depth x tree)

include hx

theorem chain_getD (base n : Nat) : ∃ l,
    x.chain s base fr n = .ok l ∧ l.getD x.type = .value (x.value false s fr.vms) :=
  ⟨_, hx.chain base n, Link.getD_of _ _⟩

theorem int_or_null (hk : x.type.kind = .int) (client : Bool) :
    (x.value client s fr.vms = .null ∧ x.type.isNullable) ∨
      ∃ n, x.value client s fr.vms = .int n :=
  (hx.typed client).int_or_null hx.type_mem hk

theorem sign (hk : x.type.kind = .int) {op : UnaryOp}
    (hop : op ≠ .not) : ∃ tree, Evaluates c s fr depth (.unary op x) tree := by
  have hvalue (client : Bool) : value client s fr.vms (.unary op x) =
      (x.value client s fr.vms).signed client op := rfl
  refine ⟨(Script.unary {} (lowerUnaryOp op) tree).typed x.type, hx.type_mem, fun client => ?_,
    fun base n => ?_, fun _ => rfl, ?_, .mk ⟨⟨rfl, trivial⟩, trivial⟩
      (List.forall_mem_singleton.2 hx.written), rfl, nofun, fun n h => ?_, fun ρ hρ => ?_⟩
  · rw [hvalue]
    rcases hx.int_or_null hk client with ⟨h, -⟩ | ⟨k, h⟩
    · cases client with
      | false => exact h ▸ (h ▸ hx.typed false : Value.HasType c x.type .null)
      | true => rw [h]; exact Value.int_hasType hx.type_mem hk 0
    · rw [h]
      exact Value.int_hasType hx.type_mem hk _
  · obtain ⟨l, hl, hv⟩ := hx.chain_getD base n
    rw [Expr.chain, hl, ok_bind]
    simp only [hv]
    change _ = Except.ok (Link.reached (.value ((x.value false s fr.vms).signed false op)))
    rcases hx.int_or_null hk false with ⟨h, -⟩ | ⟨k, h⟩ <;> rw [h]
    · rfl
    · cases op with
      | not => exact absurd rfl hop
      | _ => rfl
  · rw [Expr.lower, hx.lower]
    rfl
  · rw [hvalue] at h
    rcases hx.int_or_null hk true with ⟨hv, -⟩ | ⟨k, hv⟩ <;> rw [hv] at h
    · cases h
      exact Nat.zero_le _
    · have hk := hx.small k hv
      obtain ⟨m, hm, hmk⟩ := Value.signed_int hk true op
      obtain rfl := Value.int.inj (hm.symm.trans h)
      rw [hmk]
      split <;> simpa using hk
  · obtain ⟨u, happears, hu⟩ := hx.yields ρ hρ
    obtain ⟨k, hnumber, m, hm, hmk⟩ : ∃ k, u.toNumber.toInt? = some k ∧ ∃ m : Int64,
        (x.value true s fr.vms).signed true op = .int m ∧
        m.toInt = if op = .negate then -k else k := by
      rcases hx.int_or_null hk true with ⟨hv, -⟩ | ⟨k, hv⟩ <;> rw [hv] at happears ⊢ <;>
        cases happears
      · exact ⟨0, rfl, 0, rfl, by split <;> rfl⟩
      · exact ⟨_, ‹_›, Value.signed_int (hx.small k hv) true op⟩
    rw [hvalue, hm, Script.checkNulls_value rfl rfl]
    have hnum := happears.toNumber depth
    cases op with
    | not => exact absurd rfl hop
    | negate =>
      refine ⟨.number u.toNumber.neg,
        .int ((Number.toInt?_neg hnumber).trans (congrArg some hmk.symm)), hu.unary ?_⟩
      simp only [lowerUnaryOp, Host.unary, hnum, pure_bind]
      exact .pure rfl
    | plus =>
      refine ⟨.number u.toNumber, .int (hnumber.trans (congrArg some hmk.symm)), hu.unary ?_⟩
      simp only [lowerUnaryOp, Host.unary, hnum, pure_bind]
      exact .pure rfl

theorem nullIfNull {ρ : Env} (hρ : Surrounds ρ fr.vms) (t : Ty)
    {body : Script} {v : Value} (hnull : x.value true s fr.vms = .null → v = .null)
    (hbody : x.value true s fr.vms ≠ .null → ∃ w, Appears v w ∧
      Yields (hostWithin depth) ρ body.value.checkNulls w) :
    ∃ w, Appears v w ∧
      Yields (hostWithin depth) ρ (Expr.nullIfNull t tree body).value.checkNulls w := by
  obtain ⟨u, happears, hu⟩ := hx.yields ρ hρ
  by_cases hv : x.value true s fr.vms = .null
  · have hnullable := (hx.typed true).isNullable hx.type_mem hv
    have hmark : tree.marks.notNull = false := Bool.eq_false_iff.2 fun h => hx.notNull h hv
    rw [Expr.nullIfNull, hx.type, hmark, Option.map_some, hnullable]
    refine ⟨.null, hnull hv ▸ .null, hu.checkedCond rfl ?_⟩
    rw [happears.isNullish, hv]
    exact .literal _
  · obtain ⟨w, hw, hyields⟩ := hbody hv
    refine ⟨w, hw, ?_⟩
    unfold Expr.nullIfNull
    split
    · refine hu.checkedCond rfl ?_
      rw [happears.isNullish, isNull_value_of_ne hv]
      exact hyields
    · exact hyields

theorem arith (hy : Evaluates c s fr depth y tree')
    (hkx : x.type.kind = .int) (hky : y.type.kind = .int) {op : BinaryOp}
    (hop : op = .add ∨ op = .sub ∨ op = .mul) {t : Ty} (ht : arithmeticType? x.type y.type = some t)
    (hsmall : ∀ a b, x.value true s fr.vms = .int a → y.value true s fr.vms = .int b →
      (op.onInts a.toInt b.toInt).natAbs ≤ Number.limit) :
    ∃ tree, Evaluates c s fr depth (.binary op x y t) tree := by
  have hkind := kind_of_arithmeticType? hkx hky ht
  have hstring : (t.kind == .string) = false := by rw [hkind]; rfl
  have hvalue (client : Bool) := value_binary hstring client s fr.vms op x y
  have hx' (client : Bool) := hx.int_or_null hkx client
  have hy' (client : Bool) := hy.int_or_null hky client
  have hmarks := marks_nullIfNull t tree _
    (marks_nullIfNull t tree' ((Script.bin (lowerBinaryOp op) tree tree').typed t) rfl)
  have hassign : lowerBinaryOp op ≠ .assign := by
    rcases hop with rfl | rfl | rfl <;> simp [lowerBinaryOp]
  have hwritten := nullIfNull_written hx.written t
    (nullIfNull_written hy.written t (bin_written hx.written hassign t hy.written))
  refine ⟨_, arithmeticType?_mem hkx hky ht, fun client => ?_, fun base n => ?_, fun _ => rfl, ?_,
    hwritten, congrArg Marks.type hmarks, fun h => ?_, fun n h => ?_, fun ρ hρ => ?_⟩
  · rw [hvalue]
    exact combined_hasType hop hkx hky ht (hx' client) (hy' client)
  · obtain ⟨l, hl, hv⟩ := hx.chain_getD base n
    obtain ⟨l', hl', hw⟩ := hy.chain_getD base (after base n x)
    rw [Expr.chain, hl, ok_bind]
    simp only [hv, hl', ok_bind, hw]
    refine (congrArg (· >>= _) (applyBinary_eq_combined hop hstring ((hx' false).imp_left And.left)
      ((hy' false).imp_left And.left) _)).trans ?_
    rw [← hvalue, value, reading]
    rfl
  · rw [Expr.lower, hx.lower, hy.lower, ← lowerBinary_arith hop hstring]
    rfl
  · rw [hmarks] at h
    cases h
  · rw [hvalue] at h
    rcases hx' true with ⟨hv, -⟩ | ⟨a, hv⟩ <;> rcases hy' true with ⟨hw, -⟩ | ⟨b, hw⟩ <;>
      simp only [hv, hw, Value.combined_null_left, Value.combined_null_right, reduceCtorEq] at h
    · obtain ⟨m, hm, hmab⟩ := Value.combined_int hop a b (hsmall a b hv hw)
      obtain rfl := Value.int.inj (hm.symm.trans h)
      rw [hmab]
      exact hsmall a b hv hw
  · -- The two tests come first, so that the operator meets numbers only.
    rw [hvalue]
    refine hx.nullIfNull hρ t (fun h => ?_) fun hne => hy.nullIfNull hρ t
      (fun h => ?_) fun hne' => ?_
    · rw [h, Value.combined_null_left]
    · rw [h, Value.combined_null_right]
    · obtain ⟨a, hv⟩ := (hx' true).resolve_left fun h => hne h.1
      obtain ⟨b, hw⟩ := (hy' true).resolve_left fun h => hne' h.1
      obtain ⟨u, hu, hyields⟩ := hx.yields ρ hρ
      obtain ⟨u', hu', hyields'⟩ := hy.yields ρ hρ
      rw [hv] at hu
      rw [hw] at hu'
      obtain ⟨m, hm, hmab⟩ := Value.combined_int hop a b (hsmall a b hv hw)
      cases hu with
      | int hu =>
        cases hu' with
        | int hu' =>
          obtain ⟨z, hz, hzab⟩ := binary_numbers hop hu hu' (hsmall a b hv hw) depth
          rw [hv, hw, hm, Script.checkNulls_value rfl rfl]
          refine ⟨.number z, .int (hzab.trans (congrArg some hmab.symm)),
            hyields.binary hyields' hassign ?_⟩
          rw [if_pos (by rcases hop with rfl | rfl | rfl <;> rfl), hz]
          exact .pure rfl

theorem concatOperand {ρ : Env} (hρ : Surrounds ρ fr.vms) :
    ∃ u, Yields (hostWithin depth) ρ (Expr.concatOperand tree x.type).value.checkNulls u ∧
      (∀ c b, Client.primitive c b u = pure u) ∧ u.toText = (x.value true s fr.vms).shown true ∧
      (x.type.kind = .string → ∃ t, u = .text t) := by
  obtain ⟨u, hu, hyields⟩ := hx.yields ρ hρ
  have htext (hk : x.type.kind = .string) (hv : x.value true s fr.vms ≠ .null) :
      ∃ t, u = .text t := by
    obtain ⟨t, ht⟩ := (hx.typed true).eq_text hk hv
    rw [ht] at hu
    cases hu
    exact ⟨t, rfl⟩
  by_cases hv : x.value true s fr.vms = .null
  · have hnullable := (hx.typed true).isNullable hx.type_mem hv
    have hmark : tree.marks.notNull = false := Bool.eq_false_iff.2 fun h => hx.notNull h hv
    have hnullish : u.isNullish := by rw [hu.isNullish, hv]; rfl
    rw [Expr.concatOperand, hnullable, hmark, hv, if_neg (by decide),
      Script.checkNulls_value rfl rfl]
    refine ⟨.text ∅, hyields.binary (.literal (.text "")) nofun ?_, fun _ _ => rfl,
      rfl, fun _ => ⟨∅, rfl⟩⟩
    rw [needsRight, hnullish, if_pos rfl, Host.binary, hnullish]
    exact .pure rfl
  · have hisNull := isNull_value_of_ne hv
    have hnullish : u.isNullish = false := hu.isNullish.trans hisNull
    refine ⟨u, ?_, hu.primitive, hu.toText hisNull, fun hk => htext hk hv⟩
    unfold Expr.concatOperand
    split
    · exact hyields
    · rw [Script.checkNulls_value rfl rfl]
      refine hyields.binary (.literal (.text "")) nofun ?_
      rw [needsRight, hnullish, if_neg Bool.false_ne_true]

theorem concat (hy : Evaluates c s fr depth y tree')
    (hk : x.type.kind = .string ∨ y.type.kind = .string) :
    ∃ tree, Evaluates c s fr depth (.binary .add x y .string) tree := by
  refine ⟨lowerBinary .add .string x.type y.type tree tree', Value.string_mem, fun _ => .text _,
    fun base n => ?_, by rintro ⟨⟩, ?_, bin_written (concatOperand_written hx.written _)
      (by simp) .string
      (concatOperand_written hy.written _), rfl, by rintro _ ⟨⟩, by rintro _ ⟨⟩, fun ρ hρ => ?_⟩
  · obtain ⟨l, hl, hv⟩ := hx.chain_getD base n
    obtain ⟨l', hl', hw⟩ := hy.chain_getD base (after base n x)
    rw [Expr.chain, hl, ok_bind]
    simp only [hv, applyBinary, hl', ok_bind, pure_bind, hw]
    rw [reading]
    change _ = Except.ok (Link.reached (.value (.text ((x.value false s fr.vms).shown false ++
      (y.value false s fr.vms).shown false))))
    rw [Value.shown_false, Value.shown_false]
    rfl
  · rw [Expr.lower, hx.lower, hy.lower]
    rfl
  · obtain ⟨u, hu, hprimitive, htext, hstring⟩ := hx.concatOperand hρ
    obtain ⟨u', hu', hprimitive', htext', hstring'⟩ := hy.concatOperand hρ
    refine ⟨_, .text _, ?_⟩
    have hadd : (hostWithin depth).add u u' = pure (.text (u.toText ++ u'.toText)) := by
      rw [Host.add, show (hostWithin depth).primitive = Client.primitive _ from rfl, hprimitive,
        pure_bind, hprimitive', pure_bind]
      rcases hk with hk | hk
      · obtain ⟨t, rfl⟩ := hstring hk
        rfl
      · obtain ⟨t, rfl⟩ := hstring' hk
        cases u <;> rfl
    rw [show lowerBinary .add .string x.type y.type tree tree' = (Script.bin .add
      (Expr.concatOperand tree x.type) (Expr.concatOperand tree' y.type)).typed .string from rfl,
      Script.checkNulls_value rfl rfl]
    refine hu.binary hu' (by simp) ?_
    rw [if_pos (show needsRight .add u = true from rfl), Host.binary, hadd, htext, htext']
    exact .pure rfl

theorem rendered {ρ : Env} (hρ : Surrounds ρ fr.vms) :
    ∃ u, Appears ((x.value true s fr.vms).rendered true) u ∧
      Yields (hostWithin depth) ρ (tree.toText.typed .string).value.checkNulls u := by
  obtain ⟨u, hu, hyields⟩ := hx.yields ρ hρ
  have hcall (r : Client.Value) : (hostWithin depth).call (.native .string) r [u] =
      pure (.text u.toText) := by
    change (do return Client.Value.text (← (do return (← Client.primitive _ true u).toText))) = _
    rw [hu.primitive]
    rfl
  have hname : (hostWithin depth).name ρ "String" = pure (.native .string) := by
    rw [Host.name, hρ.string]
    rfl
  have hstring : Yields (hostWithin depth) ρ (Script.id "String").notNull (.native .string) := by
    change Run.Gives _ (do return (Client.Value.undefined, ← (hostWithin depth).name ρ "String"))
    rw [hname]
    exact .pure rfl
  have hinvoke : Yields (hostWithin depth) ρ
      (Script.invoke (Script.id "String").notNull [tree]).value.checkNulls (.text u.toText) := by
    rw [Script.value_eq (by simp [Script.invoke])]
    change Yields _ ρ (Script.call {} (Script.id "String").notNull [tree.value]).checked.toScript _
    rw [Script.checked_call]
    exact hstring.call rfl (.cons hyields .nil) fun r => by rw [hcall]; exact .pure rfl
  have hnullish := hu.isNullish
  rw [Value.rendered]
  cases hv : (x.value true s fr.vms).isNull with
  | true =>
    refine ⟨.null, .null, hyields.checkedCond rfl ?_⟩
    rw [hnullish, hv]
    exact .literal .null
  | false =>
    refine ⟨.text u.toText, ?_, hyields.checkedCond rfl ?_⟩
    · rw [hu.toText hv]
      exact .text _
    · rw [hnullish, hv]
      exact hinvoke

theorem toText : ∃ tree, Evaluates c s fr depth (.call x Method.anyMethods[0] []) tree := by
  refine ⟨tree.toText.typed .string, Value.string_mem, fun client => ?_,
    fun base n => ?_, fun _ => rfl,
    ?_, toText_written hx.written, rfl, nofun, fun n h => absurd h (Value.rendered_ne_int _ _ n),
    fun ρ hρ => hx.rendered hρ⟩
  · cases client with
    | true => exact Value.rendered_hasType _ _
    | false =>
      rw [value, reading]
      cases x.reading false s fr.vms with
      | none => exact .null rfl
      | some v =>
        cases hv : v.isNull with
        | true => simp only [Option.bind_some, hv]; exact .null rfl
        | false => simp only [Option.bind_some, hv]; exact Value.rendered_hasType v false
  · rw [Expr.chain, hx.chain, ok_bind, reading]
    cases hr : x.reading false s fr.vms with
    | none => rfl
    | some v =>
      have hvalue : x.value false s fr.vms = v := by rw [value, hr]; rfl
      cases hv : v.isNull with
      | true =>
        obtain rfl : v = .null := by cases v <;> first | rfl | cases hv
        have hstops : x.stopsAt (.value .null) := by
          rw [stopsAt, (hx.typed false).isNullable hx.type_mem hvalue, hx.known hvalue]
          rfl
        simp only [Link.of, Link.access, hstops, if_true]
        rfl
      | false =>
        have hoperand : (Operand.value v).isNull = false := by cases v <;> first | rfl | cases hv
        have hstops : x.stopsAt (.value v) = false := by
          rw [stopsAt, hoperand]
          rfl
        simp only [Link.of, Link.access, hstops, hoperand, Option.bind_some, hv, Value.rendered,
          Value.shown_false]
        rfl
  · rw [Expr.lower, hx.lower]
    rfl

theorem cast : ∃ tree, Evaluates c s fr depth (.convert .toText x .string) tree := by
  refine ⟨tree.toText.typed .string, Value.string_mem, fun client => Value.rendered_hasType _ _,
    fun base n => ?_, fun h => ?_, ?_, toText_written hx.written, rfl, nofun,
    fun n h => absurd h (Value.rendered_ne_int _ _ n), fun ρ hρ => hx.rendered hρ⟩
  · obtain ⟨l, hl, hv⟩ := hx.chain_getD base n
    rw [Expr.chain, hl, ok_bind, hv]
    change _ = Except.ok (Link.reached (.value ((x.value false s fr.vms).rendered false)))
    cases x.value false s fr.vms <;> rfl
  · have hv := Value.rendered_eq_null.1 (h : (x.value false s fr.vms).rendered false = .null)
    rw [knownNonNull, hx.known hv, (hx.typed false).isNullable hx.type_mem hv]
    rfl
  · rw [Expr.lower, hx.lower]
    rfl

end Evaluates

/-- Terms come to their values. -/
theorem IsTerm.evaluates (he : e.IsTerm c s) (fr : Frame) (depth : Nat) (hvms : Models c s fr.vms)
    (hρ : ∃ ρ, Surrounds ρ fr.vms) (hfits : e.Fits s fr.vms) :
    ∃ tree, Evaluates c s fr depth e tree := by
  induction he with
  | path he ht => exact evaluates_path he ht hvms hρ hfits
  | int n => exact evaluates_const hfits rfl rfl (by simp [Value.mem_scalarTypes]) (.int n)
  | text t => exact evaluates_const hfits rfl rfl Value.string_mem (.text t)
  | sign hop _ hk ih =>
    obtain ⟨_, hx⟩ := ih hfits
    exact hx.sign hk hop
  | arith hop _ _ hkx hky ht ihx ihy =>
    obtain ⟨hfx, hfy, hsmall⟩ := hfits
    obtain ⟨_, hx⟩ := ihx hfx
    obtain ⟨_, hy⟩ := ihy hfy
    exact hx.arith hy hkx hky hop ht
      (hsmall (by rw [kind_of_arithmeticType? hkx hky ht]; exact nofun))
  | concat _ _ hk ihx ihy =>
    obtain ⟨_, hx⟩ := ihx hfits.1
    obtain ⟨_, hy⟩ := ihy hfits.2.1
    exact hx.concat hy hk
  | toText _ ih =>
    obtain ⟨_, hx⟩ := ih hfits
    exact hx.toText
  | cast _ ih =>
    obtain ⟨_, hx⟩ := ih hfits
    exact hx.cast

section Results

variable {vms : List Value} (hvms : Models c s vms) {indexes : List Int64} {element : Value}
  (hbuild : ∃ u σ, (Context.build { models := vms, indexes, element }).run.run {} = (.ok u, σ))

include hvms hbuild

section

variable (he : e.IsTerm c s) (hfits : e.Fits s vms)

include he hfits

/-- A term is read on the server, and its script run, as the values of the term say. -/
theorem IsTerm.outcomes (control : Option Control) (depth : Nat) :
    ∃ reader tree, Reader.compile e s = .ok reader ∧
      e.lower Registry.standard s = .ok tree ∧
      reader.read vms control = .ok (.value (e.value false s vms)) ∧
      outcome (depth + 1) (({ nullChecks := true } : Options).finish tree.value)
        { models := vms, indexes, element } = .ok ⟨false, e.value true s vms⟩ := by
  obtain ⟨tree, hx⟩ := he.evaluates { vms, control } depth hvms (exists_surrounds hbuild) hfits
  obtain ⟨reader, hreader, hread⟩ := Reader.read_of_chain control he.checked hx.chain_getD
  have hwritten := Script.isWritten_kept.variant
    (Script.isWritten_kept.resolveCells hx.written) false
  refine ⟨reader, tree, hreader, hx.lower, hread, outcome_of_yields hwritten hbuild fun ρ hρ => ?_⟩
  obtain ⟨u, hu, hyields⟩ := hx.yields ρ hρ
  exact ⟨u, hyields, hu.reveal⟩

theorem IsTerm.int_or_null (hk : e.type.kind = .int)
    (client : Bool) : e.value client s vms = .null ∨ ∃ n, e.value client s vms = .int n := by
  obtain ⟨_, hx⟩ := he.evaluates { vms } 0 hvms (exists_surrounds hbuild) hfits
  exact (hx.int_or_null hk client).imp_left And.left

/-! ## Null in arithmetic -/

/-- Arithmetic is null where a field is. In scripts, fields under a sign do not count. -/
theorem IsTerm.value_eq_null_iff (hk : e.type.kind = .int) (client : Bool) :
    e.value client s vms = .null ↔ ∃ x ∈ e.leaves !client, x.value client s vms = .null := by
  induction he with
  | @path e he =>
    have hleaves (b : Bool) : e.leaves b = [e] := by cases he <;> rfl
    simp [hleaves]
  | int n => exact iff_of_false nofun (by simp [leaves])
  | sign _ hx hkx ih =>
    -- A sign hides the fields before it from the script only.
    have hv := hx.int_or_null hvms hbuild hfits hkx client
    cases client with
    | true => exact iff_of_false (Value.signed_ne_null _ _) (by simp [leaves])
    | false => exact (Value.signed_eq_null_iff hv).trans (ih hfits hkx)
  | arith hop hx hy hkx hky ht ihx ihy =>
    have hstring := kind_of_arithmeticType? hkx hky ht
    rw [value_binary (by rw [hstring]; rfl), Value.combined_eq_null_iff hop
      (hx.int_or_null hvms hbuild hfits.1 hkx client)
        (hy.int_or_null hvms hbuild hfits.2.1 hky client),
      ihx hfits.1 hkx, ihy hfits.2.1 hky]
    simp [leaves, or_and_right, exists_or]
  | text | concat | toText | cast => cases hk

theorem IsTerm.faithful (hk : e.type.kind = .int)
    (hne : ∀ x ∈ e.leaves true, x.value false s vms ≠ .null) : e.Faithful s vms := by
  induction he with
  | path he => cases he <;> trivial
  | int n => trivial
  | sign _ hx hkx ih =>
    have hnull := mt (hx.value_eq_null_iff hvms hbuild hfits hkx false).1
      fun ⟨y, hy, hv⟩ => hne y hy hv
    exact ⟨ih hfits hkx hne, hnull⟩
  | arith _ _ _ hkx hky ht ihx ihy =>
    rw [leaves, List.forall_mem_append] at hne
    exact ⟨ihx hfits.1 hkx hne.1, ihy hfits.2.1 hky hne.2,
      fun h => nomatch (kind_of_arithmeticType? hkx hky ht).symm.trans h⟩
  | text | concat | toText | cast => cases hk

/-- Both sides come to the same value where no sign stands before null, no Boolean becomes a text,
and no text is asked of a path that a null stops before a value that cannot be null. -/
theorem IsTerm.value_eq_of_faithful (h : e.Faithful s vms) :
    e.value true s vms = e.value false s vms := by
  have hshown {v : Value} (hv : ∀ b, v ≠ .bool b) : v.shown true = v.shown false := by
    cases v <;> first | rfl | exact absurd rfl (hv _)
  induction he with
  | path he => cases he <;> rfl
  | int | text => rfl
  | @sign op x _ hx hkx ih =>
    obtain ⟨n, hn⟩ := (hx.int_or_null hvms hbuild hfits hkx false).resolve_left h.2
    change (x.value true s vms).signed true op = (x.value false s vms).signed false op
    rw [ih hfits h.1, hn]
    rfl
  | arith hop hx hy hkx hky ht ihx ihy =>
    have hstring := kind_of_arithmeticType? hkx hky ht
    rw [value_binary (by rw [hstring]; rfl), value_binary (by rw [hstring]; rfl),
      ihx hfits.1 h.1, ihy hfits.2.1 h.2.1]
  | @concat x y _ _ _ ihx ihy =>
    obtain ⟨hx, hy, hbool⟩ := h
    change Value.text ((x.value true s vms).shown true ++ (y.value true s vms).shown true) =
      .text ((x.value false s vms).shown false ++ (y.value false s vms).shown false)
    rw [ihx hfits.1 hx, ihy hfits.2.1 hy, hshown (hbool rfl).1, hshown (hbool rfl).2]
  | @toText x _ ih =>
    obtain ⟨hx, hbool, hstops⟩ := h
    change (x.value true s vms).rendered true =
      ((x.reading false s vms).bind fun v =>
        if v.isNull then none else some (v.rendered false)).getD .null
    rw [ih hfits hx]
    -- The server skips the call where nothing is reached, and the script where the value is null.
    cases hr : x.reading false s vms with
    | none =>
      have hnull : x.value false s vms = .null := by
        rw [value, hr, Option.getD_none, Ty.default, if_pos (hstops hr)]
      rw [hnull]
      rfl
    | some v =>
      obtain rfl : x.value false s vms = v := by rw [value, hr]; rfl
      rw [Option.bind_some, Value.rendered, hshown hbool, Value.rendered]
      split <;> rfl
  | @cast x _ ih =>
    change (x.value true s vms).rendered true = (x.value false s vms).rendered false
    rw [ih hfits h.1, Value.rendered, Value.rendered, hshown h.2]

/-- Signs and arithmetic over integers come to the same on both sides where no field is null. On the
server they are null where any field is. In a script a sign makes a number of null, so only a field
that no sign stands before makes it null. -/
theorem arithmetic_agrees (hk : e.type.kind = .int) (control : Option Control) (depth : Nat) :
    ∃ reader tree, Reader.compile e s = .ok reader ∧ e.lower Registry.standard s = .ok tree ∧
      reader.read vms control = .ok (.value (e.value false s vms)) ∧
      outcome (depth + 1) (({ nullChecks := true } : Options).finish tree.value)
        { models := vms, indexes, element } = .ok ⟨false, e.value true s vms⟩ ∧
      (e.value false s vms = .null ↔ ∃ x ∈ e.leaves true, x.value false s vms = .null) ∧
      (e.value true s vms = .null ↔ ∃ x ∈ e.leaves false, x.value true s vms = .null) ∧
      ((∀ x ∈ e.leaves true, x.value false s vms ≠ .null) →
        e.value true s vms = e.value false s vms) := by
  obtain ⟨reader, tree, hreader, htree, hread, hrun⟩ := he.outcomes hvms hbuild hfits control depth
  exact ⟨reader, tree, hreader, htree, hread, hrun, he.value_eq_null_iff hvms hbuild hfits hk false,
    he.value_eq_null_iff hvms hbuild hfits hk true,
    fun hne => he.value_eq_of_faithful hvms hbuild hfits (he.faithful hvms hbuild hfits hk hne)⟩

end

/-! ## Texts -/

omit hvms hbuild in
theorem convertTo_string (ht : e.type ∈ scalarTypes) (he : e.isNullConst = false) :
    ∃ r, e.convertTo .string true = .ok r ∧ (r = e ∨ r = .convert .toText e .string) := by
  unfold convertTo implicit?
  rw [he]
  rcases Value.mem_scalarTypes.1 ht with ht | ht | ht | ht | ht <;> rw [ht]
  iterate 4 exact ⟨_, rfl, .inr rfl⟩
  exact ⟨_, rfl, .inl rfl⟩

omit hvms hbuild in
theorem IsTerm.isNullConst (he : e.IsTerm c s) : e.isNullConst = false := by
  cases he with
  | path he => cases he <;> rfl
  | _ => rfl

omit hvms hbuild in
theorem IsRendering.isTerm {r : Expr} (hr : IsRendering e y r) (he : e.IsTerm c s)
    (ht : e.type ∈ scalarTypes) (hy : y.IsTerm c s) (hk : y.type.kind = .string)
    (hfits : e.Fits s vms) (hfits' : y.Fits s vms) : r.IsTerm c s ∧ r.Fits s vms := by
  cases hr with
  | toText => exact ⟨.toText he, hfits⟩
  | cast h =>
    obtain ⟨r, hr, rfl | rfl⟩ := convertTo_string ht he.isNullConst <;> cases h.symm.trans hr
    · exact ⟨he, hfits⟩
    · exact ⟨.cast he, hfits⟩
  | before => exact ⟨.concat he hy (.inr hk), hfits, hfits', fun h => absurd rfl h⟩
  | after => exact ⟨.concat hy he (.inl hk), hfits', hfits, fun h => absurd rfl h⟩

/-- The texts of a term are read on the server and computed by scripts as its values say, and both
sides have the same text where it is faithful. -/
theorem texts_agree (he : e.IsTerm c s) (hy : y.IsTerm c s) (hk : y.type.kind = .string)
    (hfits : e.Fits s vms) (hfits' : y.Fits s vms) (control : Option Control) (depth : Nat) :
    (∃ r, e.convertTo .string true = .ok r) ∧ ∀ r, IsRendering e y r →
      ∃ reader tree, Reader.compile r s = .ok reader ∧ r.lower Registry.standard s = .ok tree ∧
        reader.read vms control = .ok (.value (r.value false s vms)) ∧
        outcome (depth + 1) (({ nullChecks := true } : Options).finish tree.value)
          { models := vms, indexes, element } = .ok ⟨false, r.value true s vms⟩ ∧
        (r.Faithful s vms → r.value true s vms = r.value false s vms) := by
  obtain ⟨_, hx⟩ := he.evaluates { vms } 0 hvms (exists_surrounds hbuild) hfits
  obtain ⟨r, hcast, -⟩ := convertTo_string hx.type_mem he.isNullConst
  refine ⟨⟨r, hcast⟩, fun r hr => ?_⟩
  obtain ⟨hterm, hr⟩ := hr.isTerm he hx.type_mem hy hk hfits hfits'
  obtain ⟨reader, tree, hreader, htree, hread, hrun⟩ := hterm.outcomes hvms hbuild hr control depth
  exact ⟨reader, tree, hreader, htree, hread, hrun, hterm.value_eq_of_faithful hvms hbuild hr⟩

end Results

end Expr

namespace Team

open Bindery.Expr

def scored (score : Value) : Value := newTeam (newPerson 41 score (.text "Ada"))

theorem scored_models {score : Value} (h : score.HasType catalog (.nullable .int)) :
    Models catalog scope [scored score] :=
  newTeam_models (newPerson_hasType h (.text _))

theorem ofLead_isTerm {f : Field} (hf : f ∈ [age, score, name, retired]) :
    (ofLead f).IsTerm catalog scope := by
  refine .path (ofLead_isPath hf) ?_
  revert f
  simp [Value.mem_scalarTypes, ofLead, Expr.type, age, score, name, retired]

/-- `-Lead.Age * 2 + Lead.Score`. -/
def balance : Expr :=
  .binary .add (.binary .mul (.unary .negate (ofLead age)) (.const (.int 2) .int) .int)
    (ofLead score) (.nullable .int)

theorem balance_isTerm : balance.IsTerm catalog scope :=
  .arith (.inl rfl) (.arith (.inr (.inr rfl)) (.sign nofun (ofLead_isTerm (by simp)) rfl)
    (.int 2) rfl rfl rfl) (ofLead_isTerm (by simp)) rfl rfl rfl

theorem balance_fits : balance.Fits scope [scored (.int 7)] := by
  have hage : (ofLead age).Fits scope [scored (.int 7)] := by rintro _ ⟨⟩; decide
  have hscore : (ofLead score).Fits scope [scored (.int 7)] := by rintro _ ⟨⟩; decide
  have htwo : (Value.int 2).IsExact := by decide
  refine ⟨⟨hage, htwo, ?_⟩, hscore, ?_⟩ <;> rintro _ _ _ ⟨⟩ ⟨⟩ <;> decide

theorem arithmetic_agrees_balance : ∃ reader tree, Reader.compile balance scope = .ok reader ∧
    balance.lower Registry.standard scope = .ok tree ∧
    reader.read [scored (.int 7)] none = .ok (.value (.int (-75))) ∧
    outcome 1 (({ nullChecks := true } : Options).finish tree.value)
      { models := [scored (.int 7)] } = .ok ⟨false, .int (-75)⟩ := by
  have hbuild := exists_build (c := { models := [scored (.int 7)] }) (by decide +kernel)
  obtain ⟨reader, tree, hreader, htree, hread, hrun, -⟩ := arithmetic_agrees
    (scored_models (.nullable (.int 7))) hbuild balance_isTerm balance_fits rfl none 0
  exact ⟨reader, tree, hreader, htree, hread, hrun⟩

/-- Without a score, `-Lead.Score` is null on the server and zero in its script. -/
theorem sign_of_null_disagrees : ∃ reader tree,
    Reader.compile (.unary .negate (ofLead score)) scope = .ok reader ∧
    (Expr.unary .negate (ofLead score)).lower Registry.standard scope = .ok tree ∧
    reader.read [scored .null] none = .ok (.value .null) ∧
    outcome 1 (({ nullChecks := true } : Options).finish tree.value) { models := [scored .null] } =
      .ok ⟨false, .int 0⟩ := by
  have hterm : (Expr.unary .negate (ofLead score)).IsTerm catalog scope :=
    .sign nofun (ofLead_isTerm (by simp)) rfl
  exact hterm.outcomes (scored_models (.null rfl)) (exists_build (by decide +kernel))
    (by rintro _ ⟨⟩; trivial) none 0

theorem texts_agree_balance : ∃ reader tree,
    Reader.compile (.binary .add (ofLead name) balance .string) scope = .ok reader ∧
    (Expr.binary .add (ofLead name) balance .string).lower Registry.standard scope = .ok tree ∧
    reader.read [scored (.int 7)] none = .ok (.value (.text "Ada-75")) ∧
    outcome 1 (({ nullChecks := true } : Options).finish tree.value)
      { models := [scored (.int 7)] } = .ok ⟨false, .text "Ada-75"⟩ := by
  have hname : (ofLead name).Fits scope [scored (.int 7)] := by rintro _ ⟨⟩; decide
  have hbuild := exists_build (c := { models := [scored (.int 7)] }) (by decide +kernel)
  obtain ⟨-, htexts⟩ := texts_agree (scored_models (.nullable (.int 7))) hbuild balance_isTerm
    (ofLead_isTerm (by simp)) rfl balance_fits hname none 0
  obtain ⟨reader, tree, hreader, htree, hread, hrun, -⟩ := htexts _ .after
  exact ⟨reader, tree, hreader, htree, hread, hrun⟩

/-- `Lead.Retired.ToString()` is `False` on the server and `false` in its script. -/
theorem toText_of_bool_disagrees : ∃ reader tree,
    Reader.compile (.call (ofLead retired) Method.anyMethods[0] []) scope = .ok reader ∧
    (Expr.call (ofLead retired) Method.anyMethods[0] []).lower Registry.standard scope = .ok tree ∧
    reader.read [scored .null] none = .ok (.value (.text "False")) ∧
    outcome 1 (({ nullChecks := true } : Options).finish tree.value) { models := [scored .null] } =
      .ok ⟨false, .text "false"⟩ := by
  have hterm : (Expr.call (ofLead retired) Method.anyMethods[0] []).IsTerm catalog scope :=
    .toText (ofLead_isTerm (by simp))
  exact hterm.outcomes (scored_models (.null rfl)) (exists_build (by decide +kernel))
    (by rintro _ ⟨⟩; trivial) none 0

end Team

end Bindery
