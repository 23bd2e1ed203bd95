import Bindery.Value
import Bindery.Proofs.ShortestDecimal
import Bindery.Proofs.TextForms

/-!
# Texts of floats

Two floats have different texts (`Decimal.render_inj`). A decimal is written as digits, a fraction
and an exponent (`Decimal.decimalChars`), which say what number it is (`Decimal.Writes.unique`).
-/

namespace Bindery

namespace Decimal

open Bindery.Rounding Float.Model Float.Model.UnpackedFloat

variable {x y : Float} {q e e' : Int} {tail tail' cs cs' : Chars} {ds f f' w w' : List Nat}
  {d m width : Nat} {v v' : ℚ} {s : Sign} {u u' : UnpackedFloat} {c : Char}

/-! ## Digits -/

theorem digitChar_facts : ∀ d : Fin 10, (digitChar d).isDigit ∧
    (digitChar d).toNat - '0'.toNat = d.val := by
  decide

theorem isDigit_of_mem (h : ∀ d ∈ ds, d < 10) (hc : c ∈ ds.map digitChar) : c.isDigit := by
  obtain ⟨d, hd, rfl⟩ := List.mem_map.1 hc
  exact (digitChar_facts ⟨d, h d hd⟩).1

theorem map_toNat_digitChar (h : ∀ d ∈ ds, d < 10) :
    (ds.map digitChar).map (fun c => c.toNat - '0'.toNat) = ds := by
  rw [List.map_map]
  conv_rhs => rw [← List.map_id ds]
  exact List.map_congr_left fun d hd => (digitChar_facts ⟨d, h d hd⟩).2

theorem digits_append_inj {es : List Nat} (hds : ∀ d ∈ ds, d < 10) (hes : ∀ d ∈ es, d < 10)
    (hcs : ∀ c ∈ cs.head?, c.isDigit = false) (hcs' : ∀ c ∈ cs'.head?, c.isDigit = false)
    (h : ds.map digitChar ++ cs = es.map digitChar ++ cs') : ds = es ∧ cs = cs' := by
  obtain ⟨hdigits, hrest⟩ := Text.append_stop_inj (p := fun c => c.isDigit = false)
    (fun c hc => by simp [isDigit_of_mem hds hc]) (fun c hc => by simp [isDigit_of_mem hes hc])
    hcs hcs' h
  refine ⟨?_, hrest⟩
  rw [← map_toNat_digitChar hds, hdigits, map_toNat_digitChar hes]

theorem map_digitChar_digitsOf (n : Nat) : (digitsOf n).map digitChar = Nat.toDigits 10 n := by
  rw [digitsOf, List.map_map]
  conv_rhs => rw [← List.map_id (Nat.toDigits 10 n)]
  apply List.map_congr_left
  intro c hc
  have hdigit := Nat.isDigit_of_mem_toDigits (by decide) (by decide) hc
  simp only [Char.isDigit, Bool.and_eq_true, decide_eq_true_eq, UInt32.le_iff_toNat_le] at hdigit
  have hlow : 48 ≤ c.toNat := hdigit.1
  show Char.ofNat (48 + (c.toNat - 48)) = c
  rw [Nat.add_sub_cancel' hlow, Char.ofNat_toNat]

/-- Digits with a fraction, if there is one, and what follows. -/
def decimalChars (w f : List Nat) (tail : Chars) : Chars :=
  w.map digitChar ++ ((if f.isEmpty then [] else '.' :: f.map digitChar) ++ tail)

/-- The exponent of a written decimal: a sign and at least `width` digits. -/
def exponentChars (width : Nat) (e : Int) : Chars :=
  'e' :: (if e < 0 then '-' else '+') ::
    (List.replicate (width - (Nat.toDigits 10 e.natAbs).length) 0 ++
      digitsOf e.natAbs).map digitChar

theorem exponentDigits_lt (k n : Nat) : ∀ d ∈ List.replicate k 0 ++ digitsOf n, d < 10 := by
  intro d hd
  rcases List.mem_append.1 hd with hd | hd
  · rw [List.eq_of_mem_replicate hd]
    decide
  · exact digitsOf_lt hd

theorem exponentChars_inj (h : exponentChars width e = exponentChars width e') : e = e' := by
  obtain ⟨hsign, hdigits⟩ := List.cons.inj (List.cons.inj h).2
  have hwhole (e : Int) : whole (List.replicate (width - (Nat.toDigits 10 e.natAbs).length) 0 ++
      digitsOf e.natAbs) = e.natAbs := by
    rw [whole_append, whole_replicate_zero, whole_digitsOf]
    simp
  have hsize : e.natAbs = e'.natAbs := by
    rw [← hwhole e, ← map_toNat_digitChar (exponentDigits_lt _ e.natAbs), hdigits,
      map_toNat_digitChar (exponentDigits_lt _ e'.natAbs), hwhole]
  by_cases he : e < 0 <;> by_cases he' : e' < 0 <;> simp [he, he'] at hsign <;> omega

/-- What may follow the digits, and the exponent that it stands for. -/
inductive IsTail (width : Nat) : Chars → Int → Prop
  | nil : IsTail width [] 0
  | exponent (e : Int) : IsTail width (exponentChars width e) e

theorem IsTail.head (h : IsTail width tail e) : ∀ c ∈ tail.head?, c = 'e' := by
  cases h with
  | nil => nofun
  | exponent e => exact fun c hc => (Option.some.inj hc).symm

theorem IsTail.unique (h : IsTail width tail e) (h' : IsTail width tail' e') (heq : tail = tail') :
    e = e' := by
  cases h with
  | nil =>
    cases h' with
    | nil => rfl
    | exponent e => cases heq
  | exponent e =>
    cases h' with
    | nil => cases heq
    | exponent e' => exact exponentChars_inj heq

/-- Whole digits, of which there is one at least, and a fraction. -/
structure Parts (w f : List Nat) : Prop where
  whole_lt : ∀ d ∈ w, d < 10
  fraction_lt : ∀ d ∈ f, d < 10
  ne_nil : w ≠ []

theorem decimalChars_inj (h : Parts w f) (h' : Parts w' f') (htail : IsTail width tail e)
    (htail' : IsTail width tail' e') (heq : decimalChars w f tail = decimalChars w' f' tail') :
    w = w' ∧ f = f' ∧ tail = tail' := by
  have hend {tail : Chars} {e : Int} (htail : IsTail width tail e) :
      ∀ c ∈ tail.head?, c.isDigit = false := fun c hc => by rw [htail.head c hc]; rfl
  have hstop {f : List Nat} {tail : Chars} {e : Int} (htail : IsTail width tail e) :
      ∀ c ∈ ((if f.isEmpty then [] else '.' :: f.map digitChar) ++ tail).head?,
        c.isDigit = false := by
    cases f with
    | nil => exact hend htail
    | cons d f =>
      intro c hc
      rw [← Option.some.inj hc]
      rfl
  obtain ⟨rfl, hrest⟩ :=
    digits_append_inj h.whole_lt h'.whole_lt (hstop htail) (hstop htail') heq
  refine ⟨rfl, ?_⟩
  cases f with
  | nil =>
    cases f' with
    | nil => exact ⟨rfl, hrest⟩
    | cons d f' =>
      have hpoint : tail = '.' :: _ := hrest
      exact absurd (htail.head '.' (by rw [hpoint]; rfl)) (by decide)
  | cons d f =>
    cases f' with
    | nil =>
      have hpoint : _ = tail' := hrest
      exact absurd (htail'.head '.' (by rw [← hpoint]; rfl)) (by decide)
    | cons d' f' =>
      exact digits_append_inj h.fraction_lt h'.fraction_lt (hend htail) (hend htail')
        (List.cons.inj hrest).2

/-- The characters stand for the number. -/
inductive Writes (width : Nat) : Chars → ℚ → Prop
  | mk {w f : List Nat} {tail : Chars} {e : Int} (hparts : Parts w f)
    (htail : IsTail width tail e) :
    Writes width (decimalChars w f tail) (whole (w ++ f) * 10 ^ (e - f.length))

theorem Writes.unique (h : Writes width cs v) (h' : Writes width cs' v') (heq : cs = cs') :
    v = v' := by
  obtain ⟨hparts, htail⟩ := h
  obtain ⟨hparts', htail'⟩ := h'
  obtain ⟨rfl, rfl, hsame⟩ := decimalChars_inj hparts hparts' htail htail' heq
  rw [htail.unique htail' hsame]

def isNumeric (c : Char) : Bool := c.isDigit || c == '.' || c == 'e' || c == '+' || c == '-'

theorem Writes.isNumeric (h : Writes width cs v) (hc : c ∈ cs) : Decimal.isNumeric c := by
  have hdigit {ds : List Nat} (hds : ∀ d ∈ ds, d < 10) {c : Char} (hc : c ∈ ds.map digitChar) :
      Decimal.isNumeric c := by simp [Decimal.isNumeric, isDigit_of_mem hds hc]
  obtain ⟨hparts, htail⟩ := h
  rcases List.mem_append.1 hc with hc | hc
  · exact hdigit hparts.whole_lt hc
  rcases List.mem_append.1 hc with hc | hc
  · split at hc
    next => cases hc
    next =>
      rcases List.mem_cons.1 hc with rfl | hc
      · decide
      · exact hdigit hparts.fraction_lt hc
  cases htail with
  | nil => cases hc
  | exponent e =>
    simp only [exponentChars, List.mem_cons] at hc
    rcases hc with rfl | rfl | hc
    · decide
    · split <;> decide
    · exact hdigit (exponentDigits_lt _ _) hc

theorem Writes.digit (h : Writes width cs v) : ∃ c cs', cs = c :: cs' ∧ c.isDigit := by
  obtain ⟨hparts, htail⟩ := h
  rename_i w f tail e
  cases w with
  | nil => exact absurd rfl hparts.ne_nil
  | cons d w => exact ⟨_, _, rfl, isDigit_of_mem hparts.whole_lt List.mem_cons_self⟩

/-! ## Written decimals -/

theorem digitText_eq (ds : List Nat) : digitText ds = Text.ofChars (ds.map digitChar) := rfl

theorem replicate_zero_eq (n : Nat) :
    Text.replicate n '0' = Text.ofChars ((List.replicate n 0).map digitChar) := by
  rw [Text.replicate_eq_ofChars n (by decide), List.map_replicate]
  rfl

theorem decimalChars_point (w : List Nat) (hf : f ≠ []) (tail : Chars) :
    Text.ofChars (decimalChars w f tail) = Text.ofChars (w.map digitChar) ++ Text.ofChars ['.'] ++
      Text.ofChars (f.map digitChar) ++ Text.ofChars tail := by
  have hempty : f.isEmpty = false := by simpa using hf
  rw [decimalChars, hempty, ← Text.ofChars_append, ← Text.ofChars_append, ← Text.ofChars_append]
  simp

theorem decimalChars_whole (w : List Nat) (tail : Chars) :
    Text.ofChars (decimalChars w [] tail) = Text.ofChars (w.map digitChar) ++
    Text.ofChars tail := by
  rw [← Text.ofChars_append]
  rfl

theorem append_ofChars_nil (t : Text) : t ++ Text.ofChars [] = t := Text.ext (List.append_nil _)

theorem writes_positional (width : Nat) {d : Decimal} (hd : Written d.digits) :
    ∃ cs, d.positional = Text.ofChars cs ∧ Writes width cs d.value := by
  obtain ⟨ds, e⟩ := d
  have hlt := hd.lt
  have hzeros : ∀ n, ∀ x ∈ List.replicate n 0, x < 10 := by
    intro n x hx
    rw [List.eq_of_mem_replicate hx]
    decide
  have hmem {p : Nat → Prop} {ds es : List Nat} (hds : ∀ d ∈ ds, p d) (hes : ∀ d ∈ es, p d) :
      ∀ d ∈ ds ++ es, p d := fun d hd => (List.mem_append.1 hd).elim (hds d) (hes d)
  obtain ⟨c, cs, rfl⟩ := List.exists_cons_of_ne_nil hd.ne_nil
  simp only [positional, value] at hlt ⊢
  split
  next hneg =>
    have hparts : Parts [0] (List.replicate ((-e).toNat - 1) 0 ++ c :: cs) :=
      ⟨by simp, hmem (hzeros _) hlt, by simp⟩
    refine ⟨_, ?_, cast (congrArg _ ?_) (Writes.mk hparts .nil)⟩
    · rw [decimalChars_point _ (by simp), append_ofChars_nil, replicate_zero_eq, digitText_eq,
        List.map_append, Text.ofChars_append, ← Text.append_assoc]
      rfl
    · rw [List.singleton_append, whole_cons, whole_append, whole_replicate_zero]
      simp only [List.length_append, List.length_replicate, Nat.zero_mul, Nat.zero_add]
      congr 2
      omega
  next hnonneg =>
    split
    next hlong =>
      have hparts : Parts (c :: cs ++ List.replicate (e.toNat + 1 - (c :: cs).length) 0) [] :=
        ⟨hmem hlt (hzeros _), by simp, by simp⟩
      refine ⟨_, ?_, cast (congrArg _ ?_) (Writes.mk hparts .nil)⟩
      · rw [decimalChars_whole, append_ofChars_nil, List.map_append, Text.ofChars_append,
          replicate_zero_eq, digitText_eq]
      · rw [List.append_nil, whole_append, whole_replicate_zero,
          List.length_replicate, Nat.add_zero]
        push_cast
        rw [mul_assoc, ← zpow_natCast, ← zpow_add₀ (by norm_num)]
        congr 2
        simp only [List.length_nil]
        omega
    next hshort =>
      have hdrop : (c :: cs).drop (e.toNat + 1) ≠ [] := by
        rw [ne_eq, List.drop_eq_nil_iff]
        omega
      have hparts : Parts ((c :: cs).take (e.toNat + 1)) ((c :: cs).drop (e.toNat + 1)) :=
        ⟨fun x hx => hlt x (List.mem_of_mem_take hx), fun x hx => hlt x (List.mem_of_mem_drop hx),
          by simp⟩
      refine ⟨_, ?_, cast (congrArg _ ?_) (Writes.mk hparts .nil)⟩
      · rw [decimalChars_point _ hdrop, append_ofChars_nil]
        rfl
      · rw [List.take_append_drop]
        congr 2
        simp only [List.length_drop]
        omega

theorem writes_scientific (width : Nat) {d : Decimal} (hd : Written d.digits) :
    ∃ cs, d.scientific width = Text.ofChars cs ∧ Writes width cs d.value := by
  obtain ⟨ds, e⟩ := d
  have hlt := hd.lt
  obtain ⟨c, cs, rfl⟩ := List.exists_cons_of_ne_nil hd.ne_nil
  have hparts : Parts [c] cs :=
    ⟨fun x hx => hlt x (by simp_all), fun x hx => hlt x (List.mem_cons_of_mem _ hx), by simp⟩
  refine ⟨_, ?_, cast (congrArg _ ?_) (Writes.mk hparts (.exponent e))⟩
  · have hsign : (if e < 0 then ("-" : Text) else "+") =
        Text.ofChars [if e < 0 then '-' else '+'] := by
      split <;> rfl
    have hexponent : Text.ofChars (exponentChars width e) = Text.ofChars ['e'] ++
        Text.ofChars [if e < 0 then '-' else '+'] ++
        Text.replicate (width - (Text.ofNat e.natAbs).length) '0' ++ Text.ofNat e.natAbs := by
      rw [Text.length_ofNat, replicate_zero_eq, Text.ofNat, ← map_digitChar_digitsOf,
        ← Text.ofChars_append,
        ← Text.ofChars_append, ← Text.ofChars_append, List.append_assoc, ← List.map_append,
        exponentChars]
      simp [digitsOf]
    simp only [scientific, hsign]
    cases cs with
    | nil =>
      rw [decimalChars_whole, hexponent]
      ext1
      simp [digitText, Text.ofString, show (Text.ofChars []).bytes = [] from rfl]
    | cons c' cs =>
      rw [decimalChars_point _ (by simp), hexponent]
      ext1
      simp [digitText, Text.ofString]
  · simp only [value, List.singleton_append]
    congr 2
    simp only [List.length_cons]
    omega

theorem writes_write (l : Layout) {d : Decimal} (hd : Written d.digits) :
    ∃ cs, l.write d = Text.ofChars cs ∧ Writes l.exponentWidth cs d.value := by
  unfold Layout.write
  split
  · exact writes_positional _ hd
  · exact writes_scientific _ hd

/-! ## Floats -/

theorem toNat_unpackExponent (b : UInt64) :
    (@unpackExponent Format.binary64 b.toBitVec).toNat = exponentField b := by
  rw [exponentField, UInt64.toNat_and, UInt64.toNat_shiftRight]
  show (BitVec.cast _ (BitVec.extractLsb 62 52 b.toBitVec)).toNat = b.toNat >>> 52 &&& (2 ^ 11 - 1)
  rw [Nat.and_two_pow_sub_one_eq_mod, BitVec.toNat_cast, BitVec.extractLsb_toNat]
  rfl

theorem toNat_unpackMantissa (b : UInt64) :
    (@unpackMantissa Format.binary64 b.toBitVec).toNat = fractionField b := by
  rw [fractionField, UInt64.toNat_and]
  show (BitVec.cast _ (BitVec.extractLsb 51 0 b.toBitVec)).toNat = b.toNat &&& (2 ^ 52 - 1)
  rw [Nat.and_two_pow_sub_one_eq_mod, BitVec.toNat_cast, BitVec.extractLsb_toNat]
  rfl

def isNegative (s : Sign) : Bool := s == .negative

theorem signBit_eq (b : UInt64) :
    (b >>> 63 == 1) = isNegative (Sign.ofBitVec (@unpackSign Format.binary64 b.toBitVec)) := by
  have hnat : (@unpackSign Format.binary64 b.toBitVec).toNat = (b >>> 63).toNat := by
    rw [UInt64.toNat_shiftRight]
    show (BitVec.cast _ (BitVec.extractLsb 63 63 b.toBitVec)).toNat = b.toNat >>> 63
    rw [BitVec.toNat_cast, BitVec.extractLsb_toNat]
    show b.toNat >>> 63 % 2 = b.toNat >>> 63
    have := b.toNat_lt
    rw [Nat.shiftRight_eq_div_pow]
    omega
  generalize @unpackSign Format.binary64 b.toBitVec = s at hnat
  have hbit : ∀ s : BitVec 1, isNegative (Sign.ofBitVec s) = (s.toNat == 1) := by decide
  rw [hbit, hnat, Bool.eq_iff_iff, beq_iff_eq, beq_iff_eq, ← UInt64.toNat_inj]
  rfl

theorem ofFloat_eq {hpos : 0 < m} (hx : x.toModel.unpack = .finite s m q hpos) :
    ofFloat x = shortest m q (decide (m = 2 ^ 52 ∧ -1074 < q)) ∧
      (x.toBits >>> 63 == 1) = isNegative s := by
  obtain ⟨hsign, hfields⟩ := fields_of_unpack hx
  rw [toNat_unpackExponent, toNat_unpackMantissa] at hfields
  change (exponentField x.toBits = 0 ∧ m = fractionField x.toBits ∧ _) ∨
    (exponentField x.toBits ≠ 0 ∧ _ ∧ m = 2 ^ 52 + fractionField x.toBits ∧
      q = exponentField x.toBits - 1075) at hfields
  have hlt : fractionField x.toBits < 2 ^ 52 := by
    rw [← toNat_unpackMantissa]
    exact BitVec.isLt _
  refine ⟨?_, by rw [signBit_eq, hsign]; rfl⟩
  simp only [ofFloat]
  generalize exponentField x.toBits = e at hfields ⊢
  generalize fractionField x.toBits = f at hfields hlt ⊢
  rcases hfields with ⟨rfl, rfl, rfl⟩ | ⟨hfirst, _, rfl, rfl⟩
  · have hnarrow : decide (m = 2 ^ 52 ∧ -1074 < (-1074 : Int)) = false := by simp
    rw [hnarrow]
    rfl
  · have hnarrow : decide (2 ^ 52 + f = 2 ^ 52 ∧ -1074 < (e : Int) - 1075) =
        (f == 0 && decide (1 < e)) := by
      rw [Bool.eq_iff_iff]
      simp only [decide_eq_true_eq, Bool.and_eq_true, beq_iff_eq]
      omega
    rw [hnarrow, Nat.add_comm (2 ^ 52) f, if_neg (by simpa using hfirst)]
    rfl

theorem float_ext (h : x.toModel.unpack = y.toModel.unpack) : x = y :=
  Float.toBits_inj.1 (UInt64.toBitVec_inj.1
    ((UnpackedFloat.unpack_inj_of_valid x.toModel.valid y.toModel.valid).1 h))

theorem unpack_zero : (0 : Float).toModel.unpack = .zero .positive := by
  show (Float.ofNat 0).toModel.unpack = _
  unfold Float.ofNat
  rfl

theorem render_eq (l : Layout) (x : Float) : l.render x = match x.toModel.unpack with
      | .notANumber => l.nan
      | .infinity s => if isNegative s then l.negInfinity else l.infinity
      | .zero s => if isNegative s && l.signedZero then "-0" else "0"
      | .finite s .. =>
        if isNegative s then "-" ++ l.write (ofFloat x) else l.write (ofFloat x) := by
  have hnan : x.isNaN = x.toModel.unpack.isNaN := rfl
  have hinf : x.isInf = x.toModel.unpack.isInf := rfl
  have hzero : (x == 0) = x.toModel.unpack.beq (.zero .positive) := by
    rw [← unpack_zero]
    rfl
  simp only [Layout.render, hnan, hinf, hzero]
  cases hx : x.toModel.unpack with
  | notANumber => rfl
  | infinity s =>
    have hsign : (x.toBits >>> 63 == 1) = isNegative s := by
      rw [signBit_eq, sign_of_unpack (.inr hx)]
      rfl
    simp only [hsign]
    rfl
  | zero s =>
    have hsign : (x.toBits >>> 63 == 1) = isNegative s := by
      rw [signBit_eq, sign_of_unpack (.inl hx)]
      rfl
    simp only [hsign]
    rfl
  | finite s m q hpos =>
    simp only [(ofFloat_eq hx).2]
    cases s <;> rfl

/-- The float has the sign, and it is the one to which the number rounds. -/
inductive Stands : UnpackedFloat → Sign → ℚ → Prop
  | zero (s : Sign) : Stands (.zero s) s 0
  | finite {m : Nat} {q : Int} {v : ℚ} (s : Sign) (hm : Canonical m q) (hv : Rounds m q v) :
    Stands (.finite s m q hm.pos) s v

theorem Stands.unique (h : Stands u s v) (h' : Stands u' s v) : u = u' := by
  have hpos {m : Nat} {q : Int} (hm : Canonical m q) : ¬ Rounds m q 0 := by
    intro h
    have hone : (1 : ℚ) ≤ m := by exact_mod_cast hm.pos
    have hge := h.nearest.ge
    rw [zero_div] at hge
    linarith
  cases h with
  | zero =>
    cases h' with
    | zero => rfl
    | finite _ hm hv => exact absurd hv (hpos hm)
  | finite _ hm hv =>
    cases h' with
    | zero => exact absurd hv (hpos hm)
    | finite _ hm' hv' =>
      obtain ⟨rfl, rfl⟩ := hv.unique hm hm' hv'
      rfl

/-- The characters with which a float is written. -/
inductive Rendered : UnpackedFloat → Chars → Prop
  | nan : Rendered .notANumber ['N', 'a', 'N']
  | infinity (s : Sign) : Rendered (.infinity s) [if isNegative s then '-' else '+', 'I', 'n', 'f']
  | number {u : UnpackedFloat} {s : Sign} {v : ℚ} {cs : Chars} (hu : Stands u s v)
    (hcs : Writes Value.floatLayout.exponentWidth cs v) :
    Rendered u ((if isNegative s then ['-'] else []) ++ cs)

theorem isNumeric_number (hcs : Writes width cs v)
    (hc : c ∈ (if isNegative s then ['-'] else []) ++ cs) : isNumeric c := by
  rcases List.mem_append.1 hc with hc | hc
  · split at hc
    · obtain rfl := List.mem_singleton.1 hc
      decide
    · cases hc
  · exact hcs.isNumeric hc

theorem rendered (x : Float) :
    ∃ cs, Value.floatLayout.render x = Text.ofChars cs ∧ Rendered x.toModel.unpack cs := by
  rw [render_eq]
  cases hx : x.toModel.unpack with
  | notANumber => exact ⟨_, rfl, .nan⟩
  | infinity s => exact ⟨_, by cases s <;> rfl, .infinity s⟩
  | zero s =>
    have hparts : Parts [0] [] := ⟨by simp, by simp, by simp⟩
    have hzero : Writes Value.floatLayout.exponentWidth ['0'] 0 :=
      cast (congrArg _ (by simp [whole])) (Writes.mk hparts .nil)
    exact ⟨_, by cases s <;> rfl, .number (.zero s) hzero⟩
  | finite s m q hpos =>
    obtain ⟨hm, -⟩ := canonical_of_unpack hx
    obtain ⟨hrounds, hwritten⟩ := rounds_shortest hm
    rw [← (ofFloat_eq hx).1] at hrounds hwritten
    obtain ⟨cs, htext, hcs⟩ := writes_write Value.floatLayout hwritten
    refine ⟨_, ?_, .number (.finite s hm hrounds) hcs⟩
    rw [Text.ofChars_append, ← htext]
    cases s <;> rfl

theorem Rendered.unique (h : Rendered u cs) (h' : Rendered u' cs') (heq : cs = cs') : u = u' := by
  have hI (s : Sign) : 'I' ∈ [if isNegative s then '-' else '+', 'I', 'n', 'f'] := by simp
  cases h with
  | nan =>
    cases h' with
    | nan => rfl
    | infinity s => cases s <;> cases heq
    | number _ hcs => exact absurd (isNumeric_number hcs (heq ▸ List.mem_cons_self)) (by decide)
  | infinity s =>
    cases h' with
    | nan => cases s <;> cases heq
    | infinity s' => cases s <;> cases s' <;> first | rfl | cases heq
    | number _ hcs => exact absurd (isNumeric_number hcs (heq ▸ hI s)) (by decide)
  | number hu hcs =>
    cases h' with
    | nan => exact absurd (isNumeric_number hcs (heq ▸ List.mem_cons_self)) (by decide)
    | infinity s => exact absurd (isNumeric_number hcs (heq ▸ hI s)) (by decide)
    | number hu' hcs' =>
      rename_i s v cs s' v' cs'
      obtain ⟨c, _, rfl, hc⟩ := hcs.digit
      obtain ⟨c', _, rfl, hc'⟩ := hcs'.digit
      have hne {c : Char} (hc : c.isDigit) : '-' ≠ c := by
        rintro rfl
        cases hc
      cases s <;> cases s'
      · exact hu.unique (hcs.unique hcs' (List.cons.inj heq).2 ▸ hu')
      · exact absurd (List.cons.inj heq).1 (hne hc')
      · exact absurd (List.cons.inj heq).1.symm (hne hc)
      · exact hu.unique (hcs.unique hcs' heq ▸ hu')

/-- Two floats have different texts. -/
theorem render_inj (h : Value.floatLayout.render x = Value.floatLayout.render y) : x = y := by
  obtain ⟨cs, hx, hcs⟩ := rendered x
  obtain ⟨cs', hy, hcs'⟩ := rendered y
  exact float_ext (hcs.unique hcs' (Text.ofChars_inj (hx.symm.trans (h.trans hy))))

end Decimal

end Bindery
