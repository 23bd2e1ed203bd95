import Bindery.Proofs.FloatRounding
import Bindery.Server.Operator

/-!
# Equality and order of integers

Integers are ordered and looked up in lists as they are, but equality compares the floats next to
them: two integers are equal if they are the same when rounded to 53 binary places
(`Value.equals_int`). `Value.int_relations` says how the relations go together, and for which
integers exactly one of less, equal and greater holds.
-/

namespace Bindery

namespace Rounding

open Float.Model Float.Model.UnpackedFloat

variable {n : Nat} {x y : Int}

/-- How many units the number has, rounded to the nearest, to the even one on a tie. -/
def nearestCount (n unit : Nat) : Nat :=
  if 2 * (n % unit) < unit ∨ 2 * (n % unit) = unit ∧ n / unit % 2 = 0 then n / unit
  else n / unit + 1

def toPlaces (n : Nat) : Nat := nearestCount n (2 ^ (n.log2 - 52)) * 2 ^ (n.log2 - 52)

def rounded (x : Int) : Int := x.sign * toPlaces x.natAbs

theorem nearest_nearestCount (n : Nat) {unit : Nat} (hunit : 0 < unit) :
    Nearest (nearestCount n unit) (n / unit : ℚ) := by
  obtain ⟨f, hf⟩ : ∃ f : ℚ, f = (n % unit : Nat) / unit := ⟨_, rfl⟩
  have hq : (0 : ℚ) < unit := by exact_mod_cast hunit
  have hx : (n : ℚ) / unit = (n / unit : Nat) + f := by
    have hsum : ((unit * (n / unit) + n % unit : Nat) : ℚ) = n := by rw [Nat.div_add_mod]
    push_cast at hsum
    rw [hf, ← hsum]
    field_simp
  have hpos : 0 ≤ f := hf ▸ div_nonneg (Nat.cast_nonneg _) hq.le
  have hone : f < 1 := by
    rw [hf, div_lt_iff₀ hq, one_mul]
    exact_mod_cast Nat.mod_lt n hunit
  have hless : 2 * (n % unit) < unit ↔ f < 1 / 2 := by
    rw [hf, div_lt_iff₀ hq, ← Nat.cast_lt (α := ℚ)]
    push_cast
    constructor <;> intro h <;> linarith
  have htie : 2 * (n % unit) = unit ↔ f = 1 / 2 := by
    rw [hf, div_eq_iff hq.ne', ← Nat.cast_inj (R := ℚ)]
    push_cast
    constructor <;> intro h <;> linarith
  simp only [hx, nearestCount, hless, htie]
  split
  next hdown =>
    refine ⟨by linarith, ?_, fun hodd => ⟨by linarith, ?_⟩⟩
    · rcases hdown with h | h <;> linarith
    · rcases hdown with h | ⟨-, heven⟩
      · linarith
      · omega
  next hup =>
    obtain ⟨hnear, hodd⟩ := not_or.1 hup
    have hhalf : 1 / 2 ≤ f := not_lt.1 hnear
    have hnext : ((n / unit + 1 : Nat) : ℚ) = (n / unit : Nat) + 1 := Nat.cast_succ _
    refine ⟨by linarith, by linarith, fun hsucc => ⟨?_, by linarith⟩⟩
    have hne : f ≠ 1 / 2 := fun h => hodd ⟨h, by omega⟩
    have := lt_of_le_of_ne hhalf hne.symm
    linarith

theorem toPlaces_of_lt (hn : n < 2 ^ 53) : toPlaces n = n := by
  have hlog : n.log2 - 52 = 0 := by
    by_cases hzero : n = 0
    · simp [hzero]
    · have := (Nat.log2_lt hzero).2 hn
      omega
  simp [toPlaces, nearestCount, hlog, Nat.mod_one]

theorem nearestCount_bounds (hn : 2 ^ 53 ≤ n) :
    2 ^ 52 ≤ n / 2 ^ (n.log2 - 52) ∧ 2 ^ 52 ≤ nearestCount n (2 ^ (n.log2 - 52)) ∧
      nearestCount n (2 ^ (n.log2 - 52)) ≤ 2 ^ 53 := by
  have hne : n ≠ 0 := by omega
  have hlog : 53 ≤ n.log2 := (Nat.le_log2 hne).2 hn
  obtain ⟨k, hk⟩ : ∃ k, n.log2 = 52 + k := ⟨n.log2 - 52, by omega⟩
  have hself := Nat.log2_self_le hne
  have habove : n < 2 ^ (n.log2 + 1) := Nat.lt_log2_self
  rw [hk] at hself habove
  have hsub : n.log2 - 52 = k := by omega
  rw [hsub]
  have hfloor : 2 ^ 52 ≤ n / 2 ^ k := by
    rw [Nat.le_div_iff_mul_le (by positivity), ← pow_add]
    exact hself
  have hquot : n / 2 ^ k < 2 ^ 53 := by
    rw [Nat.div_lt_iff_lt_mul (by positivity), ← pow_add]
    rwa [show 53 + k = 52 + k + 1 by omega]
  unfold nearestCount
  split <;> omega

theorem shiftLeft_ne_zero (hn : n ≠ 0) (k : Nat) : n <<< k ≠ 0 := by
  rw [Nat.shiftLeft_eq]
  exact Nat.mul_ne_zero hn (by positivity)

theorem log2_shiftLeft (hn : n ≠ 0) (k : Nat) : (n <<< k).log2 = n.log2 + k := by
  have hlow := Nat.log2_self_le hn
  have hhigh : n < 2 ^ (n.log2 + 1) := Nat.lt_log2_self
  rw [Nat.log2_eq_iff (shiftLeft_ne_zero hn k), Nat.shiftLeft_eq]
  constructor
  · rw [pow_add]
    exact Nat.mul_le_mul_right _ hlow
  · rw [Nat.add_right_comm, pow_add]
    exact Nat.mul_lt_mul_of_pos_right hhigh (by positivity)

theorem shiftLeft_bounds {k : Nat} (hn : n ≠ 0) (hk : n.log2 + k = 52) :
    2 ^ 52 ≤ n <<< k ∧ n <<< k < 2 ^ 53 := by
  have hlog := log2_shiftLeft hn k
  rw [hk, Nat.log2_eq_iff (shiftLeft_ne_zero hn k)] at hlog
  exact hlog

/-- The number in units of its first 53 places. -/
theorem exists_nearest (hpos : 0 < n) : ∃ c, 2 ^ 52 ≤ c ∧ c ≤ 2 ^ 53 ∧
    Nearest c (n / 2 ^ (n.log2 - 52 : Int)) ∧ (toPlaces n : ℚ) = c * 2 ^ (n.log2 - 52 : Int) := by
  by_cases hsmall : n < 2 ^ 53
  · have hlog := (Nat.log2_lt hpos.ne').2 hsmall
    obtain ⟨k, hk⟩ : ∃ k, n.log2 + k = 52 := ⟨52 - n.log2, by omega⟩
    obtain ⟨hlow, hhigh⟩ := shiftLeft_bounds hpos.ne' hk
    have hvalue : (n : ℚ) / 2 ^ (n.log2 - 52 : Int) = (n <<< k : Nat) := by
      rw [show (n.log2 - 52 : Int) = -k by omega, zpow_neg, div_inv_eq_mul, zpow_natCast,
        Nat.shiftLeft_eq]
      push_cast
      rfl
    refine ⟨n <<< k, hlow, hhigh.le, ?_, ?_⟩
    · rw [hvalue]
      exact ⟨by linarith, by linarith, fun _ => ⟨by linarith, by linarith⟩⟩
    · rw [toPlaces_of_lt hsmall, ← hvalue]
      field_simp
  · obtain ⟨-, hlow, hhigh⟩ := nearestCount_bounds (not_lt.1 hsmall)
    have hlog : 53 ≤ n.log2 := (Nat.le_log2 hpos.ne').2 (not_lt.1 hsmall)
    have hnear := nearest_nearestCount n (Nat.two_pow_pos (n.log2 - 52))
    have hunit : (2 : ℚ) ^ (n.log2 - 52 : Int) = (2 ^ (n.log2 - 52) : Nat) := by
      rw [show (n.log2 - 52 : Int) = (n.log2 - 52 : Nat) by omega, zpow_natCast]
      push_cast
      rfl
    rw [hunit]
    refine ⟨_, hlow, hhigh, hnear, ?_⟩
    rw [toPlaces]
    push_cast
    rfl

theorem roundWithAccuracy_shiftLeft {k : Nat} (hpos : 0 < n) (hk : 52 ≤ n.log2 + k) (s : Sign) :
    ∃ m q, ∃ hm : Canonical m q, q ≤ n.log2 ∧ (toPlaces n : ℚ) = m * 2 ^ q ∧
      roundWithAccuracy Format.binary64 s (n <<< k) (-k) .exact = .finite s m q hm.pos := by
  have htarget : target (n <<< k) (-k) = n.log2 - 52 := by
    rw [target_eq, log2_shiftLeft hpos.ne']
    omega
  have hvalue : ((n <<< k : Nat) : ℚ) * 2 ^ (-k : Int) = n := by
    rw [Nat.shiftLeft_eq, zpow_neg, zpow_natCast]
    push_cast
    field_simp
  obtain ⟨c, hlow, hhigh, hnear, hplaces⟩ := exists_nearest hpos
  rw [← htarget] at hnear hplaces
  rw [← hvalue] at hnear
  obtain ⟨m, q, hm, hq, hsame, hround⟩ :=
    roundWithAccuracy_of_nearest (by omega) hnear hlow hhigh s
  exact ⟨m, q, hm, by omega, hplaces.trans hsame, hround⟩

theorem unpack_toFloat (hpos : 0 < n) (hlt : n < 2 ^ 53) : ∃ k h, n.log2 + k = 52 ∧
      n.toUInt64.toFloat.toModel.unpack = .finite .positive (n <<< k) (-k) h := by
  have hlog := (Nat.log2_lt hpos.ne').2 hlt
  obtain ⟨k, hk⟩ : ∃ k, n.log2 + k = 52 := ⟨52 - n.log2, by omega⟩
  obtain ⟨hmin, hmax⟩ := shiftLeft_bounds hpos.ne' hk
  have hcanonical : Canonical (n <<< k) (-k) := ⟨by omega, hmax, by omega, .inl hmin⟩
  have htarget : target n 0 = -k := by
    rw [target_eq]
    omega
  have hround : UnpackedFloat.round Format.binary64 .positive n 0 =
      .finite .positive (n <<< k) (-k) hcanonical.pos := by
    have hdecrease : decreaseExponent n 0 (target n 0) = (n <<< k, -(k : Int)) := by
      simp only [decreaseExponent, htarget]
      congr 1 <;> simp
    show roundWithAccuracy Format.binary64 .positive (decreaseExponent n 0 (target n 0)).1
      (decreaseExponent n 0 (target n 0)).2 .exact = _
    rw [hdecrease]
    have hshift := shiftToTargetExponent_of_lt hmax hcanonical.ge
    exact roundWithAccuracy_of_shifts hshift hshift hcanonical.pos .positive
  have hnat : n.toUInt64.toNat = n := by
    simp
    omega
  have hmodel : n.toUInt64.toFloat.toModel =
      Float.Model.pack (.finite .positive (n <<< k) (-k) hcanonical.pos) := by
    show Float.Model.pack (normalize Format.binary64 (n.toUInt64.toNat : Int) 0 .positive) = _
    have hgt : compare (n : Int) 0 = .gt := by
      rw [Int.compare_eq_gt]; omega
    rw [hnat, UnpackedFloat.normalize, hgt]
    simp only [Int.toNat_natCast]
    rw [hround]
  exact ⟨k, hcanonical.pos, hk, by rw [hmodel, unpack_pack hcanonical (by omega)]⟩

/-- The float next to a positive integer has the sign and size of the rounded integer. -/
theorem ofNat_eq (hpos : 0 < n) (hlt : n < 2 ^ 64) :
    ∃ m q, ∃ hm : Canonical m q, q ≤ 971 ∧ (toPlaces n : ℚ) = m * 2 ^ q ∧
      Float.ofNat n = .ofModel (Float.Model.pack (.finite .positive m q hm.pos)) := by
  have hlog := (Nat.log2_lt hpos.ne').2 hlt
  show ∃ m q, ∃ hm : Canonical m q, _ ∧ _ ∧ Float.ofScientific n false 0 = _
  unfold Float.ofScientific
  by_cases hfast : n < 2 ^ 53 ∧ 0 ≤ 22
  · -- The number is a float, which is multiplied by one.
    obtain ⟨k, h, hk, hunpack⟩ := unpack_toFloat hpos hfast.1
    obtain ⟨m, q, hm, hq, hvalue, hround⟩ :=
      roundWithAccuracy_shiftLeft (k := k + 52) hpos (by omega) .positive
    have hone : Float.exactlyRepresentablePowersOfTen[0].toModel.unpack =
        .finite .positive (2 ^ 52) (-52) (by norm_num) := by
      rfl
    refine ⟨m, q, hm, by omega, hvalue, ?_⟩
    rw [dif_pos hfast]
    show Float.ofModel (Float.Model.pack (UnpackedFloat.mul Format.binary64 _ _)) = _
    rw [hunpack, hone]
    show Float.ofModel (Float.Model.pack (roundWithAccuracy Format.binary64 .positive
      (n <<< k * 2 ^ 52) (-k + -52) .exact)) = _
    rw [← Nat.shiftLeft_eq, ← Nat.shiftLeft_add, show (-k + -52 : Int) = -(k + 52 : Nat) by omega,
      hround]
  · obtain ⟨m, q, hm, hq, hvalue, hround⟩ :=
      roundWithAccuracy_shiftLeft (k := 53) hpos (by omega) .positive
    have hlarge : ¬ (0 : Int) > 2 ^ 11 := by norm_num
    have hsmall : ¬ (0 : Int) < -((2 ^ 11 : Int) + n.log2) := by omega
    refine ⟨m, q, hm, by omega, hvalue, ?_⟩
    rw [dif_neg hfast]
    show Float.ofModel (Float.Model.pack (UnpackedFloat.ofScientific Format.binary64 n 0)) = _
    unfold UnpackedFloat.ofScientific
    rw [dif_neg hpos.ne', if_neg hlarge, if_neg hsmall, if_pos le_rfl]
    show Float.ofModel (Float.Model.pack (roundWithAccuracy Format.binary64 .positive
      (n <<< 53 * 1) (-53 + 0) .exact)) = _
    rw [Nat.mul_one]
    exact congrArg (fun u => Float.ofModel (Float.Model.pack u)) hround

/-- The parts of a float next to an integer. -/
inductive NextTo : Int → UnpackedFloat → Prop
  | zero : NextTo 0 (.zero .positive)
  | positive {x : Int} {m : Nat} {q : Int} (hx : 0 < x) (hm : Canonical m q)
    (hvalue : (rounded x : ℚ) = m * 2 ^ q) : NextTo x (.finite .positive m q hm.pos)
  | negative {x : Int} {m : Nat} {q : Int} (hx : x < 0) (hm : Canonical m q)
    (hvalue : (rounded x : ℚ) = -(m * 2 ^ q)) : NextTo x (.finite .negative m q hm.pos)

theorem nextTo_ofInt (hx : x.natAbs < 2 ^ 64) : NextTo x (Float.ofInt x).toModel.unpack := by
  cases x with
  | ofNat n =>
    cases n with
    | zero => exact .zero
    | succ n =>
      obtain ⟨m, q, hm, hq, hvalue, heq⟩ := ofNat_eq (Nat.succ_pos n) hx
      show NextTo _ (Float.ofNat (n + 1)).toModel.unpack
      rw [heq, unpack_pack hm hq]
      have hplaces : rounded (n + 1 : Nat) = toPlaces (n + 1) := one_mul _
      refine .positive (Int.natCast_pos.2 (Nat.succ_pos n)) hm ?_
      rw [hplaces, ← hvalue]
      rfl
  | negSucc n =>
    obtain ⟨m, q, hm, hq, hvalue, heq⟩ := ofNat_eq (Nat.succ_pos n) hx
    show NextTo _ (Float.Model.pack (Float.ofNat (n + 1)).toModel.unpack.neg).unpack
    rw [heq, unpack_pack hm hq]
    show NextTo _ (Float.Model.pack (.finite .negative m q hm.pos)).unpack
    rw [unpack_pack hm hq]
    have hplaces : rounded (Int.negSucc n) = -toPlaces (n + 1) := neg_one_mul _
    refine .negative (Int.negSucc_lt_zero n) hm ?_
    rw [hplaces, ← hvalue]
    push_cast
    rfl

theorem NextTo.beq_eq {x y : Int} {a b : UnpackedFloat} (ha : NextTo x a) (hb : NextTo y b) :
    a.beq b = decide (rounded x = rounded y) := by
  have hzero : (rounded 0 : ℚ) = 0 := by rw [show rounded 0 = 0 from zero_mul _, Int.cast_zero]
  have hpos {m : Nat} {q : Int} (hm : Canonical m q) : (0 : ℚ) < m * 2 ^ q :=
    mul_pos (by exact_mod_cast hm.pos) (by positivity)
  have hcast : rounded x = rounded y ↔ (rounded x : ℚ) = rounded y := Int.cast_inj.symm
  have hparts {m m' : Nat} {q q' : Int} (hm : Canonical m q) (hm' : Canonical m' q') :
      (compare q q').then (compare m m') = .eq ↔ (m : ℚ) * 2 ^ q = m' * 2 ^ q' := by
    rw [Ordering.then_eq_eq, Int.compare_eq_eq, Nat.compare_eq_eq]
    constructor
    · rintro ⟨rfl, rfl⟩
      rfl
    · intro h
      exact (Rounds.unique hm hm' (.self m q) (h ▸ .self m' q')).symm
  rw [decide_eq_decide.2 hcast]
  cases ha with
  | zero =>
    cases hb with
    | zero => rfl
    | positive _ hm hvalue => rw [hvalue, hzero, decide_eq_false (hpos hm).ne]; rfl
    | negative _ hm hvalue =>
      rw [hvalue, hzero, decide_eq_false (neg_neg_of_pos (hpos hm)).ne']; rfl
  | positive _ hm hvalue =>
    cases hb with
    | zero => rw [hvalue, hzero, decide_eq_false (hpos hm).ne']; rfl
    | positive _ hm' hvalue' =>
      rw [hvalue, hvalue', UnpackedFloat.beq, UnpackedFloat.compare, Bool.eq_iff_iff, beq_iff_eq,
        Option.some_inj, decide_eq_true_iff, hparts hm hm']
    | negative _ hm' hvalue' =>
      have hlt := (neg_neg_of_pos (hpos hm')).trans (hpos hm)
      rw [hvalue, hvalue', decide_eq_false hlt.ne']
      rfl
  | negative _ hm hvalue =>
    cases hb with
    | zero => rw [hvalue, hzero, decide_eq_false (neg_neg_of_pos (hpos hm)).ne]; rfl
    | positive _ hm' hvalue' =>
      have hlt := (neg_neg_of_pos (hpos hm)).trans (hpos hm')
      rw [hvalue, hvalue', decide_eq_false hlt.ne]
      rfl
    | negative _ hm' hvalue' =>
      rw [hvalue, hvalue', UnpackedFloat.beq, UnpackedFloat.compare, Bool.eq_iff_iff, beq_iff_eq,
        Option.some_inj, decide_eq_true_iff, Ordering.swap_eq_eq, hparts hm hm', neg_inj]

theorem beq_ofInt (hx : x.natAbs < 2 ^ 64) (hy : y.natAbs < 2 ^ 64) :
    (Float.ofInt x == Float.ofInt y) = decide (rounded x = rounded y) :=
  (nextTo_ofInt hx).beq_eq (nextTo_ofInt hy)

theorem rounded_of_lt (hx : x.natAbs < 2 ^ 53) : rounded x = x := by
  rw [rounded, toPlaces_of_lt hx, Int.sign_mul_natAbs]

/-- Integers of at most 53 places are not rounded to, or from, any other. -/
theorem rounded_inj (hx : x.natAbs < 2 ^ 53) : rounded x = rounded y ↔ x = y := by
  refine ⟨fun h => ?_, fun h => h ▸ rfl⟩
  by_cases hy : y.natAbs < 2 ^ 53
  · rwa [rounded_of_lt hx, rounded_of_lt hy] at h
  · exfalso
    have hlarge : 2 ^ 53 ≤ toPlaces y.natAbs := by
      obtain ⟨-, hcount, -⟩ := nearestCount_bounds (not_lt.1 hy)
      have hlog : 53 ≤ y.natAbs.log2 := (Nat.le_log2 (by omega)).2 (not_lt.1 hy)
      calc 2 ^ 53 = 2 ^ 52 * 2 ^ 1 := by norm_num
        _ ≤ toPlaces y.natAbs :=
          Nat.mul_le_mul hcount (Nat.pow_le_pow_right (by norm_num) (by omega))
    have habs : (rounded y).natAbs = toPlaces y.natAbs := by
      rw [rounded, Int.natAbs_mul, Int.natAbs_sign_of_ne_zero (by omega), one_mul,
        Int.natAbs_natCast]
    rw [← h, rounded_of_lt hx] at habs
    omega

end Rounding

namespace Value

open Rounding (rounded)

structure Compares (x y : Int64) (lt eq gt : Bool) : Prop where
  less : apply .less (.int x) (.int y) = .ok (.bool lt)
  greater : apply .greater (.int x) (.int y) = .ok (.bool gt)
  lessEqual : apply .lessEqual (.int x) (.int y) = .ok (.bool !gt)
  greaterEqual : apply .greaterEqual (.int x) (.int y) = .ok (.bool !lt)
  equal : apply .equal (.int x) (.int y) = .ok (.bool eq)
  notEqual : apply .notEqual (.int x) (.int y) = .ok (.bool !eq)

theorem natAbs_toInt_lt (x : Int64) : x.toInt.natAbs < 2 ^ 64 := by
  have hlow := x.le_toInt
  have hhigh := x.toInt_lt
  omega

theorem equals_int (x y : Int64) :
    equals (.int x) (.int y) = decide (rounded x.toInt = rounded y.toInt) :=
  Rounding.beq_ofInt (natAbs_toInt_lt x) (natAbs_toInt_lt y)

theorem compares (x y : Int64) : Compares x y (decide (x < y))
    (decide (rounded x.toInt = rounded y.toInt)) (decide (y < x)) := by
  have hordered (op : BinaryOp) (hop : op.isComparison) : apply op (.int x) (.int y) =
      ordered op (if x < y then .lt else if y < x then .gt else .eq) := by
    cases op <;> first | rfl | cases hop
  have hasymm : x < y → ¬ y < x := fun h => Int64.not_lt.2 (Int64.le_of_lt h)
  constructor
  case equal | notEqual => rw [apply, equals_int]
  all_goals
    rw [hordered _ rfl]
    by_cases hlt : x < y
    · simp [hlt, hasymm hlt, ordered]
    · by_cases hgt : y < x <;> simp [hlt, hgt, ordered]

/-- A list of integers is searched for the integer itself. -/
theorem hasElement_int (ref : Option Ref) (items : List Int64) (x : Int64) :
    Method.hasElement (Value.list ref (items.map .int)) [Value.int x] =
      .ok (Value.bool (decide (x ∈ items))) := by
  have hany : (items.map Value.int).any (fun v => v.sameScalar (.int x)) = decide (x ∈ items) := by
    rw [List.any_map, Bool.eq_iff_iff, List.any_eq_true, decide_eq_true_iff]
    constructor
    · rintro ⟨y, hy, heq⟩
      obtain rfl : y = x := eq_of_beq heq
      exact hy
    · intro hx
      exact ⟨x, hx, beq_self_eq_true x⟩
  exact congrArg (fun b => Except.ok (Operand.value (.bool b))) hany

/-- How the relations between integers go together. The order is that of the integers, and at most
and at least are the opposites of greater and less. Equality is that of the rounded integers, so
exactly one of less, equal and greater holds unless two different integers are rounded to one; with
an integer of at most 53 binary places that does not happen. A list is searched for the integer
itself, which for such an integer is to search for an equal one. -/
theorem int_relations (x y : Int64) (ref : Option Ref) (items : List Int64) :
    ∃ lt eq gt, Compares x y lt eq gt ∧ (lt ↔ x < y) ∧ (gt ↔ y < x) ∧
      (eq ↔ rounded x.toInt = rounded y.toInt) ∧
      ([lt, eq, gt].count true = 1 ↔ x = y ∨ rounded x.toInt ≠ rounded y.toInt) ∧
      (x.toInt.natAbs < 2 ^ 53 ∨ y.toInt.natAbs < 2 ^ 53 → (eq ↔ x = y)) ∧
      Method.hasElement (Value.list ref (items.map .int)) [Value.int x] =
        .ok (Value.bool (decide (x ∈ items))) ∧
      (x.toInt.natAbs < 2 ^ 53 → (x ∈ items ↔
        ∃ z ∈ items, apply .equal (.int z) (.int x) = .ok (.bool true))) := by
  have hinj {x y : Int64} (hx : x.toInt.natAbs < 2 ^ 53) :
      rounded x.toInt = rounded y.toInt ↔ x = y :=
    (Rounding.rounded_inj hx).trans Int64.toInt_inj
  refine ⟨_, _, _, compares x y, decide_eq_true_iff, decide_eq_true_iff, decide_eq_true_iff, ?_, ?_,
    hasElement_int ref items x, ?_⟩
  · simp only [Int64.lt_iff_toInt_lt, ← Int64.toInt_inj]
    rcases Int.lt_trichotomy x.toInt y.toInt with h | h | h
    · by_cases hround : rounded x.toInt = rounded y.toInt <;> simp [h, h.ne, h.not_gt, hround]
    · simp [h]
    · by_cases hround : rounded x.toInt = rounded y.toInt <;> simp [h, h.ne', h.not_gt, hround]
  · rintro (hx | hy)
    · rw [decide_eq_true_iff, hinj hx]
    · rw [decide_eq_true_iff, eq_comm, hinj hy, eq_comm]
  · intro hx
    have hequal (z : Int64) : apply .equal (.int z) (.int x) = .ok (.bool true) ↔ z = x := by
      rw [(compares z x).equal, eq_comm (a := z), ← hinj hx, eq_comm (a := rounded x.toInt)]
      simp
    constructor
    · intro hmem
      exact ⟨x, hmem, (hequal x).2 rfl⟩
    · rintro ⟨z, hz, heq⟩
      exact (hequal z).1 heq ▸ hz

/-- Above 53 binary places, an integer equals the next one, is less than it and is not found in its
place. -/
theorem integers_beyond_places :
    apply .less (.int 9007199254740992) (.int 9007199254740993) = .ok (.bool true) ∧
      apply .equal (.int 9007199254740992) (.int 9007199254740993) = .ok (.bool true) ∧
      Method.hasElement (Value.list none [.int 9007199254740993]) [Value.int 9007199254740992] =
        .ok (Value.bool false) :=
  ⟨rfl, rfl, rfl⟩

end Value

end Bindery
