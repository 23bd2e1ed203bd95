import Mathlib

/-!
# Rounding to floats

A finite float other than zero has a magnitude `m * 2 ^ q` in one form (`Canonical m q`). The
numbers that round to it are those of an interval around it, `Rounds m q`: half a unit to each side,
only a quarter below where the unit changes, with the ends if `m` is even.

No number rounds to two floats (`Rounds.unique`). A rounding counts the units of the last place that
are nearest to the number (`roundWithAccuracy_of_nearest`). The lemmas on the bits of floats come
with the library as a whole, not with a module of it.
-/

namespace Bindery.Rounding

open Float.Model Float.Model.UnpackedFloat

/-- The mantissa and exponent of a finite float that is not zero. -/
structure Canonical (m : Nat) (q : Int) : Prop where
  pos : 0 < m
  lt : m < 2 ^ 53
  ge : -1074 ≤ q
  normal : 2 ^ 52 ≤ m ∨ q = -1074

/-- `n` is the nearest integer to `x`, the even one on a tie. -/
structure Nearest (n : Nat) (x : ℚ) : Prop where
  ge : (n : ℚ) - 1 / 2 ≤ x
  le : x ≤ n + 1 / 2
  odd : n % 2 = 1 → (n : ℚ) - 1 / 2 < x ∧ x < n + 1 / 2

/-- The numbers that round to `m * 2 ^ q`. -/
structure Rounds (m : Nat) (q : Int) (v : ℚ) : Prop where
  nearest : Nearest m (v / 2 ^ q)
  narrow : m = 2 ^ 52 → -1074 < q → (m : ℚ) - 1 / 4 ≤ v / 2 ^ q

variable {a : Accuracy} {em : ExtendedMantissa} {e q : Int} {k m n : Nat} {s : Sign} {x : ℚ}

theorem Nearest.unique (hn : Nearest n x) (hk : Nearest k x) : n = k := by
  -- Two different ones are neighbours with `x` in the middle, and one of them is odd.
  by_contra hne
  have hsym : ∀ {n k : Nat}, Nearest n x → Nearest k x → n < k → False := by
    intro n k hn hk hlt
    have hcast : (n : ℚ) + 1 ≤ k := by exact_mod_cast hlt
    have hmid := hn.le
    have hmid' := hk.ge
    have heq : (k : ℚ) = n + 1 := by linarith
    have hkn : k = n + 1 := by exact_mod_cast heq
    rcases Nat.mod_two_eq_zero_or_one n with heven | hodd
    · have := (hk.odd (by omega)).1
      linarith
    · have := (hn.odd hodd).2
      linarith
  rcases Nat.lt_or_gt_of_ne hne with hlt | hgt
  · exact hsym hn hk hlt
  · exact hsym hk hn hgt

theorem Rounds.self (m : Nat) (q : Int) : Rounds m q (m * 2 ^ q) := by
  have hdiv : (m : ℚ) * 2 ^ q / 2 ^ q = m := by field_simp
  constructor
  · rw [hdiv]
    exact ⟨by linarith, by linarith, fun _ => ⟨by linarith, by linarith⟩⟩
  · intro _ _
    rw [hdiv]
    linarith

theorem Rounds.unique {m' : Nat} {q' : Int} {v : ℚ} (hm : Canonical m q) (hm' : Canonical m' q')
    (hv : Rounds m q v) (hv' : Rounds m' q' v) : m = m' ∧ q = q' := by
  have hle : ∀ {m m' : Nat} {q q' : Int}, Canonical m q → Canonical m' q' → Rounds m q v →
      Rounds m' q' v → q' ≤ q := by
    intro m m' q q' hm hm' hv hv'
    by_contra hlt
    -- What rounds to the second float is at least `2 ^ 53 - 1 / 2` units of the first.
    have hmin := hm.ge
    have hnormal : 2 ^ 52 ≤ m' := hm'.normal.resolve_right (by omega)
    have hquarter : (2 : ℚ) ^ 52 - 1 / 4 ≤ v / 2 ^ q' := by
      rcases hnormal.eq_or_lt with rfl | hless
      · exact_mod_cast hv'.narrow rfl (by omega)
      · have hcast : (2 : ℚ) ^ 52 + 1 ≤ m' := by exact_mod_cast hless
        linarith [hv'.nearest.ge]
    have hunits : v / 2 ^ q = v / 2 ^ q' * 2 ^ (q' - q) := by
      rw [zpow_sub₀ (by norm_num)]
      field_simp
    have htwo : (2 : ℚ) ^ (1 : Int) ≤ 2 ^ (q' - q) := zpow_le_zpow_right₀ (by norm_num) (by omega)
    have hscaled : (2 ^ 52 - 1 / 4) * 2 ^ (1 : Int) ≤ v / 2 ^ q :=
      hunits ▸ mul_le_mul hquarter htwo (by positivity) (by linarith)
    have hupper := hv.nearest.le
    have hlast := hm.lt
    rcases Nat.mod_two_eq_zero_or_one m with heven | hodd
    · have hcast : (m : ℚ) + 2 ≤ 2 ^ 53 := by exact_mod_cast (show m + 2 ≤ 2 ^ 53 by omega)
      norm_num at hscaled hcast
      linarith
    · have hcast : (m : ℚ) + 1 ≤ 2 ^ 53 := by exact_mod_cast hlast
      have hstrict := (hv.nearest.odd hodd).2
      norm_num at hscaled hcast
      linarith
  obtain rfl : q = q' := le_antisymm (hle hm' hm hv' hv) (hle hm hm' hv hv')
  exact ⟨hv.nearest.unique hv'.nearest, rfl⟩

/-! ## Mantissas with residual bits -/

/-- What is known of `x` from its whole part and the accuracy of that. -/
def Approx (m : Nat) (x : ℚ) : Accuracy → Prop
  | .exact => x = m
  | .inexact .lt => m < x ∧ x < m + 1 / 2
  | .inexact .eq => x = m + 1 / 2
  | .inexact .gt => m + 1 / 2 < x ∧ x < m + 1

theorem Approx.bounds (h : Approx m x a) : m ≤ x ∧ x < m + 1 := by
  rcases a with _ | o
  · rw [show x = m from h]
    constructor <;> linarith
  · cases o with
    | lt => exact ⟨h.1.le, by linarith [h.2]⟩
    | eq =>
      rw [show x = m + 1 / 2 from h]
      constructor <;> linarith
    | gt => exact ⟨by linarith [h.1], h.2⟩

theorem Approx.nearest (h : Approx m x a) : Nearest (a.roundToNearestEven m) x := by
  rcases a with _ | o
  · have hx : x = m := h
    exact ⟨by simp [Accuracy.roundToNearestEven, hx], by simp [Accuracy.roundToNearestEven, hx],
      fun _ => by simp [Accuracy.roundToNearestEven, hx]⟩
  · cases o with
    | lt =>
      have hlow : (m : ℚ) < x := h.1
      have hhigh : x < m + 1 / 2 := h.2
      exact ⟨by simp only [Accuracy.roundToNearestEven]; linarith, hhigh.le,
        fun _ => ⟨by simp only [Accuracy.roundToNearestEven]; linarith, hhigh⟩⟩
    | eq =>
      have hx : x = m + 1 / 2 := h
      rcases Nat.mod_two_eq_zero_or_one m with heven | hodd
      · rw [Accuracy.roundToNearestEven, heven]
        exact ⟨by simp [hx]; linarith, by simp [hx], fun hodd => by omega⟩
      · rw [Accuracy.roundToNearestEven, hodd]
        exact ⟨by push_cast; linarith, by push_cast; linarith, fun heven => by omega⟩
    | gt =>
      have hlow : (m : ℚ) + 1 / 2 < x := h.1
      have hhigh : x < m + 1 := h.2
      simp only [Accuracy.roundToNearestEven]
      exact ⟨by push_cast; linarith, by push_cast; linarith,
        fun _ => ⟨by push_cast; linarith, by push_cast; linarith⟩⟩

theorem approx_shiftRightOne (h : Approx em.mantissa x em.accuracy) :
    Approx em.shiftRightOne.mantissa (x / 2) em.shiftRightOne.accuracy := by
  obtain ⟨m, r, s⟩ := em
  have hsplit : (m : ℚ) = 2 * (m / 2 : Nat) + (m % 2 : Nat) := by
    exact_mod_cast (Nat.div_add_mod m 2).symm
  have hbounds := h.bounds
  rcases Nat.mod_two_eq_zero_or_one m with hbit | hbit
  all_goals
    rw [hbit] at hsplit
    push_cast at hsplit
    cases r <;> cases s
    · have hx : x = m := h
      simp only [ExtendedMantissa.shiftRightOne, ExtendedMantissa.accuracy, hbit]
      show x / 2 = _
      linarith
    all_goals
      simp only [ExtendedMantissa.shiftRightOne, ExtendedMantissa.accuracy, hbit]
      simp only [Approx, ExtendedMantissa.accuracy] at h hbounds
      show _ < x / 2 ∧ x / 2 < _
      constructor <;> linarith

theorem approx_shiftRight (h : Approx em.mantissa x em.accuracy) (k : Nat) :
    Approx (em >>> k).mantissa (x / 2 ^ k) (em >>> k).accuracy := by
  induction k with
  | zero => simpa [HShiftRight.hShiftRight, Nat.repeat] using h
  | succ k ih =>
    have hstep := approx_shiftRightOne ih
    rw [div_div, ← pow_succ] at hstep
    exact hstep

/-! ## Rounding -/

def target (m : Nat) (e : Int) : Int := Format.binary64.targetExponent (totalExponent m e)

theorem target_eq (m : Nat) (e : Int) : target m e = max (m.log2 + e - 52) (-1074) := by
  simp only [target, Format.targetExponent, totalExponent, Format.mantissaBits, Format.minExponent]
  norm_num
  omega

theorem shiftToTargetExponent_eq (m : Nat) (e : Int) (a : Accuracy) :
    shiftToTargetExponent Format.binary64 m e a =
      (ExtendedMantissa.ofMantissaAndAccuracy m a >>> (target m e - e).toNat,
        e + (target m e - e).toNat) := rfl

theorem shiftToTargetExponent_of_lt (hm : m < 2 ^ 53) (he : -1074 ≤ e) :
    shiftToTargetExponent Format.binary64 m e .exact = (⟨m, false, false⟩, e) := by
  have hlog : m.log2 ≤ 52 := by
    by_cases hzero : m = 0
    · simp [hzero]
    · have := (Nat.log2_lt hzero).2 hm
      omega
  have hshift : (target m e - e).toNat = 0 := by
    rw [target_eq]
    omega
  rw [shiftToTargetExponent_eq, hshift]
  simp [HShiftRight.hShiftRight, Nat.repeat, ExtendedMantissa.ofMantissaAndAccuracy]

theorem shiftToTargetExponent_two_pow (he : -1074 ≤ e) :
    shiftToTargetExponent Format.binary64 (2 ^ 53) e .exact = (⟨2 ^ 52, false, false⟩, e + 1) := by
  have hshift : (target (2 ^ 53) e - e).toNat = 1 := by
    rw [target_eq, Nat.log2_two_pow]
    omega
  rw [shiftToTargetExponent_eq, hshift]
  simp [HShiftRight.hShiftRight, Nat.repeat, ExtendedMantissa.ofMantissaAndAccuracy,
    ExtendedMantissa.shiftRightOne]

theorem roundWithAccuracy_of_shifts {t : Int}
    (hfirst : shiftToTargetExponent Format.binary64 k e a = (em, t))
    (hsecond : shiftToTargetExponent Format.binary64 em.roundedMantissa t .exact =
      (⟨m, false, false⟩, q)) (hpos : 0 < m) (s : Sign) :
    roundWithAccuracy Format.binary64 s k e a = .finite s m q hpos := by
  simp only [roundWithAccuracy, hfirst, hsecond]
  exact dif_neg (Nat.pos_iff_ne_zero.1 hpos)

/-- A number that is rounded in units of its first 53 places gives the float of that many units. -/
theorem roundWithAccuracy_of_nearest (he : e ≤ target k e)
    (hn : Nearest n (k * 2 ^ e / 2 ^ target k e)) (hlow : 2 ^ 52 ≤ n)
    (hhigh : n ≤ 2 ^ 53) (s : Sign) :
    ∃ m q, ∃ hm : Canonical m q, q ≤ target k e + 1 ∧ (n : ℚ) * 2 ^ target k e = m * 2 ^ q ∧
      roundWithAccuracy Format.binary64 s k e .exact = .finite s m q hm.pos := by
  have hleast : -1074 ≤ target k e := by
    rw [target_eq]
    omega
  have hfirst := shiftToTargetExponent_eq k e .exact
  rw [show e + (target k e - e).toNat = target k e by omega] at hfirst
  have hexact : Approx (ExtendedMantissa.ofMantissaAndAccuracy k .exact).mantissa k
      (ExtendedMantissa.ofMantissaAndAccuracy k .exact).accuracy := rfl
  have hnear := (approx_shiftRight hexact (target k e - e).toNat).nearest
  have hscaled : (k : ℚ) / 2 ^ (target k e - e).toNat = k * 2 ^ e / 2 ^ target k e := by
    rw [← zpow_natCast, Int.toNat_of_nonneg (by omega), zpow_sub₀ (by norm_num)]
    field_simp
  rw [hscaled] at hnear
  have hrounded := hnear.unique hn
  rcases Nat.lt_or_eq_of_le hhigh with hlt | rfl
  · refine ⟨n, target k e, ⟨by omega, hlt, hleast, .inl hlow⟩, by omega, rfl, ?_⟩
    refine roundWithAccuracy_of_shifts hfirst ?_ _ s
    rw [ExtendedMantissa.roundedMantissa, hrounded]
    exact shiftToTargetExponent_of_lt hlt hleast
  · -- The mantissa has one place too many, so the unit doubles.
    refine ⟨2 ^ 52, target k e + 1, ⟨by norm_num, by norm_num, by omega, .inl le_rfl⟩,
      le_rfl, ?_, ?_⟩
    · rw [zpow_add₀ (by norm_num)]
      push_cast
      ring
    · refine roundWithAccuracy_of_shifts hfirst ?_ _ s
      rw [ExtendedMantissa.roundedMantissa, hrounded]
      exact shiftToTargetExponent_two_pow hleast

/-! ## Floats and their bits -/

theorem unpack_normal (s : Sign) {e : BitVec 11} (f : BitVec 52) (hzero : e ≠ 0#11)
    (hones : e ≠ -1#11) :
    ∃ h, UnpackedFloat.unpack Format.binary64 (packComponents Format.binary64 s e f) =
      .finite s (2 ^ 52 + f.toNat) (e.toNat - 1075) h := by
  have hvalue : (1#1 ++ f).toNat = 2 ^ 52 + f.toNat := by
    rw [BitVec.toNat_append, ← Nat.shiftLeft_add_eq_or_of_lt f.isLt]
    rfl
  refine ⟨by positivity, ?_⟩
  simp only [UnpackedFloat.unpack, unpackExponent_packComponents, unpackMantissa_packComponents,
    unpackSign_packComponents, Sign.ofBitVec_toBitVec]
  rw [if_neg hones, if_neg hzero]
  simp only [hvalue]
  rfl

theorem unpack_subnormal (s : Sign) {f : BitVec 52} (hf : f ≠ 0#52) :
    ∃ h, UnpackedFloat.unpack Format.binary64 (packComponents Format.binary64 s 0#11 f) =
      .finite s f.toNat (-1074) h := by
  refine ⟨by simpa [BitVec.toNat_pos, BitVec.pos_iff_ne_zero], ?_⟩
  simp only [UnpackedFloat.unpack, unpackExponent_packComponents, unpackMantissa_packComponents,
    unpackSign_packComponents, Sign.ofBitVec_toBitVec]
  rw [if_neg (by decide), if_pos True.intro, dif_neg hf]
  rfl

theorem pack_finite (s : Sign) (hpos : 0 < m) (hlt : m < 2 ^ 53) (hlow : -1074 ≤ q)
    (hhigh : q ≤ 971) :
    UnpackedFloat.pack Format.binary64 (.finite s m q hpos) = packComponents Format.binary64 s
      (if 2 ^ 52 ≤ m then BitVec.ofNat 11 (q + 1075).toNat else 0#11) (BitVec.ofNat 52 m) := by
  have hlog : m.log2 + 1 = 53 ↔ 2 ^ 52 ≤ m := by
    have hbelow := (Nat.log2_lt hpos.ne').2 hlt
    rw [← Nat.le_log2 hpos.ne']
    omega
  have hfinite : ¬ 2 ^ 11 ≤ (q + 1023 + 52).toNat + 1 := by omega
  have hbias : q + 1023 + 52 = q + 1075 := by ring
  show (if 2 ^ 11 ≤ (q + 1023 + 52).toNat + 1 then _ else if m.log2 + 1 = 53 then
      packComponents Format.binary64 s (BitVec.ofNat 11 (q + 1023 + 52).toNat) (BitVec.ofNat 52 m)
    else packComponents Format.binary64 s 0#11 (BitVec.ofNat 52 m)) = _
  rw [if_neg hfinite, hbias]
  by_cases hnormal : 2 ^ 52 ≤ m
  · rw [if_pos (hlog.2 hnormal), if_pos hnormal]
  · rw [if_neg (mt hlog.1 hnormal), if_neg hnormal]

theorem unpack_pack (hm : Canonical m q) (hq : q ≤ 971) (s : Sign) :
    (Float.Model.pack (.finite s m q hm.pos)).unpack = .finite s m q hm.pos := by
  have hlow := hm.ge
  have hlt := hm.lt
  have hpos := hm.pos
  show UnpackedFloat.unpack Format.binary64
    (UnpackedFloat.pack Format.binary64 (.finite s m q hm.pos)) = _
  rw [pack_finite s hm.pos hm.lt hlow hq]
  by_cases hnormal : 2 ^ 52 ≤ m
  · have hfield : (BitVec.ofNat 11 (q + 1075).toNat).toNat = (q + 1075).toNat := by
      rw [BitVec.toNat_ofNat, Nat.mod_eq_of_lt (by omega)]
    have hmantissa : 2 ^ 52 + (BitVec.ofNat 52 m).toNat = m := by
      rw [BitVec.toNat_ofNat]
      omega
    have hzero : BitVec.ofNat 11 (q + 1075).toNat ≠ 0#11 := by
      rw [ne_eq, ← BitVec.toNat_inj, hfield]
      simp only [BitVec.toNat_ofNat]
      omega
    have hones : BitVec.ofNat 11 (q + 1075).toNat ≠ -1#11 := by
      rw [ne_eq, ← BitVec.toNat_inj, hfield]
      simp only [BitVec.toNat_neg, BitVec.toNat_ofNat]
      omega
    obtain ⟨_, hunpack⟩ := unpack_normal s (BitVec.ofNat 52 m) hzero hones
    rw [if_pos hnormal]
    simp only [hunpack, hmantissa, hfield]
    congr 1
    omega
  · have hmantissa : (BitVec.ofNat 52 m).toNat = m := by
      rw [BitVec.toNat_ofNat, Nat.mod_eq_of_lt (by omega)]
    have hzero : BitVec.ofNat 52 m ≠ 0#52 := by
      rw [ne_eq, ← BitVec.toNat_inj, hmantissa]
      simp only [BitVec.toNat_ofNat]
      omega
    obtain ⟨_, hunpack⟩ := unpack_subnormal s hzero
    rw [if_neg hnormal, hunpack]
    simp only [hmantissa, hm.normal.resolve_left hnormal]

theorem sign_of_unpack {b : BitVec 64} (hb : UnpackedFloat.unpack Format.binary64 b = .zero s ∨
    UnpackedFloat.unpack Format.binary64 b = .infinity s) :
    s = Sign.ofBitVec (@unpackSign Format.binary64 b) := by
  unfold UnpackedFloat.unpack at hb
  simp only [] at hb
  split at hb
  · split at hb <;> rcases hb with hb | hb <;> cases hb
    rfl
  · split at hb
    · split at hb <;> rcases hb with hb | hb <;> cases hb
      rfl
    · rcases hb with hb | hb <;> cases hb

theorem fields_of_unpack {b : BitVec 64} {hpos : 0 < m}
    (hb : UnpackedFloat.unpack Format.binary64 b = .finite s m q hpos) :
    s = Sign.ofBitVec (@unpackSign Format.binary64 b) ∧
      (((@unpackExponent Format.binary64 b).toNat = 0 ∧
          m = (@unpackMantissa Format.binary64 b).toNat ∧ q = -1074) ∨
        ((@unpackExponent Format.binary64 b).toNat ≠ 0 ∧
          (@unpackExponent Format.binary64 b).toNat < 2 ^ 11 - 1 ∧
          m = 2 ^ 52 + (@unpackMantissa Format.binary64 b).toNat ∧
          q = (@unpackExponent Format.binary64 b).toNat - 1075)) := by
  have hparts := @packComponents_unpackSign_unpackExponent_unpackMantissa Format.binary64 b
  generalize Sign.ofBitVec (@unpackSign Format.binary64 b) = s' at hparts ⊢
  generalize @unpackExponent Format.binary64 b = e at hparts ⊢
  generalize @unpackMantissa Format.binary64 b = f at hparts ⊢
  rw [← hparts] at hb
  by_cases hones : e = -1#11
  · subst hones
    by_cases hzero : f = 0#52
    · subst hzero
      cases s' <;> cases hb
    · simp [UnpackedFloat.unpack, hzero] at hb
  · by_cases hsub : e = 0#11
    · subst hsub
      by_cases hzero : f = 0#52
      · subst hzero
        cases s' <;> cases hb
      · obtain ⟨_, hunpack⟩ := unpack_subnormal s' hzero
        rw [hunpack] at hb
        cases hb
        exact ⟨rfl, .inl ⟨rfl, rfl, rfl⟩⟩
    · obtain ⟨_, hunpack⟩ := unpack_normal s' f hsub hones
      have hlt : e.toNat < 2 ^ 11 := e.isLt
      have hlast : e.toNat ≠ 2 ^ 11 - 1 := fun h => hones (BitVec.eq_of_toNat_eq h)
      have hfirst : e.toNat ≠ 0 := fun h => hsub (BitVec.eq_of_toNat_eq h)
      rw [hunpack] at hb
      cases hb
      exact ⟨rfl, .inr ⟨hfirst, by omega, rfl, rfl⟩⟩

theorem canonical_of_unpack {x : Float.Model} {hpos : 0 < m} (hx : x.unpack = .finite s m q hpos) :
    Canonical m q ∧ q ≤ 971 := by
  have hmantissa := (@unpackMantissa Format.binary64 x.toBits.toBitVec).isLt
  change _ < 2 ^ 52 at hmantissa
  rcases (fields_of_unpack hx).2 with ⟨_, hm, hq⟩ | ⟨hfirst, hlast, hm, hq⟩
  · exact ⟨⟨hpos, by omega, by omega, .inr hq⟩, by omega⟩
  · exact ⟨⟨hpos, by omega, by omega, .inl (by omega)⟩, by omega⟩

end Bindery.Rounding
