import Bindery.Decimal
import Bindery.Proofs.FloatRounding

/-!
# The shortest decimals of floats

`Decimal.shortest` searches grids of decimals that get finer and finer for one near the float. The
main statement is `rounds_shortest`: what it finds rounds to the float. There is always something to
find, because a grid of seventeen digits is finer than the floats are (`onGrid_seventeen`).
-/

namespace Bindery.Decimal

open Bindery.Rounding

/-! ## Digits -/

def whole (ds : List Nat) : Nat := ds.foldl (fun n d => n * 10 + d) 0

def value (d : Decimal) : ℚ := whole d.digits * 10 ^ (d.exponent + 1 - d.digits.length)

@[simp] theorem whole_nil : whole [] = 0 := rfl

theorem foldl_digits (ds : List Nat) (n : Nat) :
    ds.foldl (fun n d => n * 10 + d) n = n * 10 ^ ds.length + whole ds := by
  induction ds generalizing n with
  | nil => simp
  | cons d ds ih =>
    have hwhole : whole (d :: ds) = d * 10 ^ ds.length + whole ds := by
      show ds.foldl _ (0 * 10 + d) = _
      rw [ih]
      simp
    rw [List.foldl_cons, ih, hwhole, List.length_cons, pow_succ]
    ring

theorem whole_append (ds es : List Nat) :
    whole (ds ++ es) = whole ds * 10 ^ es.length + whole es := by
  rw [whole, List.foldl_append, foldl_digits]
  rfl

theorem whole_cons (d : Nat) (ds : List Nat) : whole (d :: ds) = d * 10 ^ ds.length + whole ds := by
  simpa [whole] using whole_append [d] ds

@[simp] theorem whole_replicate_zero (k : Nat) : whole (List.replicate k 0) = 0 := by
  induction k with
  | zero => rfl
  | succ k ih => simp [List.replicate_succ, whole_cons, ih]

def digitsOf (n : Nat) : List Nat := (Nat.toDigits 10 n).map fun c => c.toNat - '0'.toNat

@[simp] theorem length_digitsOf (n : Nat) : (digitsOf n).length = (Nat.toDigits 10 n).length := by
  simp [digitsOf]

theorem whole_digitsOf (n : Nat) : whole (digitsOf n) = n := by
  have hread := Nat.ofDigitChars_ten_toDigits (n := n)
  rw [Nat.ofDigitChars] at hread
  rw [whole, digitsOf, List.foldl_map]
  simpa [Nat.mul_comm] using hread

theorem digitsOf_lt {n d : Nat} (hd : d ∈ digitsOf n) : d < 10 := by
  obtain ⟨c, hc, rfl⟩ := List.mem_map.1 hd
  have hdigit := Nat.isDigit_of_mem_toDigits (by decide) (by decide) hc
  simp only [Char.isDigit, Bool.and_eq_true, decide_eq_true_eq, UInt32.le_iff_toNat_le] at hdigit
  have hhigh : c.toNat ≤ 57 := hdigit.2
  show c.toNat - 48 < 10
  omega

theorem pow_length_le (n : Nat) (hn : 0 < n) : 10 ^ ((Nat.toDigits 10 n).length - 1) ≤ n := by
  by_contra hlt
  have hpos := Nat.length_toDigits_pos (b := 10) (n := n)
  by_cases hone : (Nat.toDigits 10 n).length = 1
  · rw [hone] at hlt
    omega
  · have := (Nat.length_toDigits_le_iff (by decide) (by omega)).2 (Nat.lt_of_not_le hlt)
    omega

theorem digitsOf_eq_significant {n : Nat} (hn : 0 < n) :
    ∃ k, digitsOf n = significant n ++ List.replicate k 0 := by
  have hsplit := List.takeWhile_append_dropWhile (p := (· == 0)) (l := (digitsOf n).reverse)
  have hzeros : ∀ d ∈ (digitsOf n).reverse.takeWhile (· == 0), d = 0 := by
    intro d hd
    simpa using List.all_eq_true.1 List.all_takeWhile d hd
  have hreverse : digitsOf n = ((digitsOf n).reverse.dropWhile (· == 0)).reverse ++
      ((digitsOf n).reverse.takeWhile (· == 0)).reverse := by
    rw [← List.reverse_append, hsplit, List.reverse_reverse]
  refine ⟨((digitsOf n).reverse.takeWhile (· == 0)).length, ?_⟩
  have hreplicate : ((digitsOf n).reverse.takeWhile (· == 0)).reverse =
      List.replicate ((digitsOf n).reverse.takeWhile (· == 0)).length 0 := by
    rw [List.eq_replicate_of_mem (a := 0) hzeros]
    simp
  rw [hreplicate] at hreverse
  have hkept : ((digitsOf n).reverse.dropWhile (· == 0)).reverse ≠ [] := by
    intro hempty
    have hwhole := whole_digitsOf n
    rw [hreverse, hempty] at hwhole
    simp at hwhole
    omega
  have hsignificant : significant n = ((digitsOf n).reverse.dropWhile (· == 0)).reverse := by
    unfold significant
    simp only
    split
    · exact absurd ‹_› hkept
    · rfl
  rw [hsignificant]
  exact hreverse

/-- Digits of a decimal as they are written. -/
structure Written (ds : List Nat) : Prop where
  lt : ∀ d ∈ ds, d < 10
  ne_nil : ds ≠ []

theorem significant_written {n : Nat} (hn : 0 < n) : Written (significant n) := by
  obtain ⟨k, hdigits⟩ := digitsOf_eq_significant hn
  constructor
  · intro d hd
    exact digitsOf_lt (n := n) (by rw [hdigits]; exact List.mem_append_left _ hd)
  · intro hempty
    have hwhole := whole_digitsOf n
    rw [hdigits, hempty] at hwhole
    simp at hwhole
    omega

theorem value_significant {c : Nat} (hc : 0 < c) (e n : Int) :
    value ⟨significant c, e + ((Nat.toDigits 10 c).length - n)⟩ = c * 10 ^ (e - n + 1) := by
  obtain ⟨k, hdigits⟩ := digitsOf_eq_significant hc
  have hwhole : (c : ℚ) = whole (significant c) * 10 ^ k := by
    have := whole_digitsOf c
    rw [hdigits, whole_append] at this
    simp at this
    exact_mod_cast this.symm
  have hlength : (Nat.toDigits 10 c).length = (significant c).length + k := by
    have := congrArg List.length hdigits
    simpa using this
  rw [value, hlength, hwhole, mul_assoc, ← zpow_natCast, ← zpow_add₀ (by norm_num)]
  congr 2
  push_cast
  ring

/-! ## Grids -/

/-- `x` lies between the ends, or at one of them if these belong to the interval. -/
def Between (closed : Bool) (lo x hi : ℚ) : Prop :=
  if closed then lo ≤ x ∧ x ≤ hi else lo < x ∧ x < hi

theorem Between.bounds {closed : Bool} {lo x hi : ℚ} (h : Between closed lo x hi) :
    lo ≤ x ∧ x ≤ hi := by
  cases closed
  · have h' : lo < x ∧ x < hi := h
    exact ⟨h'.1.le, h'.2.le⟩
  · exact h

theorem between_of_lt (closed : Bool) {lo x hi : ℚ} (hlo : lo < x) (hhi : x < hi) :
    Between closed lo x hi := by
  cases closed
  · exact ⟨hlo, hhi⟩
  · exact ⟨hlo.le, hhi.le⟩

theorem zpow_ten_eq (k : Int) : (10 : ℚ) ^ k = (10 ^ k.toNat : Nat) / (10 ^ (-k).toNat : Nat) := by
  push_cast
  rw [← zpow_natCast, ← zpow_natCast, ← zpow_sub₀ (by norm_num)]
  congr 1
  omega

variable {lo v hi scale den : Nat} {closed : Bool} {e : Int} {n : Nat}

def isInside (lo hi scale den : Nat) (closed : Bool) (k : Int) (c : Nat) : Bool :=
  let at_ (x : Nat) : Nat := x * scale * Nat.pow 10 (-k).toNat
  let unit := Nat.pow 10 k.toNat * den
  if closed then at_ lo ≤ c * unit && c * unit ≤ at_ hi else at_ lo < c * unit && c * unit < at_ hi

/-- The last grid point not above `v`. -/
def gridBelow (v scale den : Nat) (k : Int) : Nat :=
  v * scale * Nat.pow 10 (-k).toNat / (Nat.pow 10 k.toNat * den)

/-- A result of the search is a neighbour of `v` that passes the test. -/
theorem isInside_of_onGrid {c : Nat} (h : onGrid lo v hi scale den closed e n = some c) :
    isInside lo hi scale den closed (e - n + 1) c := by
  unfold onGrid at h
  simp only at h
  split at h
  next => cases h
  next hbelow _ =>
    cases h
    exact hbelow
  next _ habove =>
    cases h
    exact habove
  next hbelow habove =>
    split at h
    next =>
      cases h
      exact hbelow
    next =>
      split at h
      next =>
        cases h
        exact habove
      next =>
        split at h
        next =>
          cases h
          exact hbelow
        next =>
          cases h
          exact habove

theorem onGrid_isSome
    (h : isInside lo hi scale den closed (e - n + 1) (gridBelow v scale den (e - n + 1)) ∨
      isInside lo hi scale den closed (e - n + 1) (gridBelow v scale den (e - n + 1) + 1)) :
    ∃ c, onGrid lo v hi scale den closed e n = some c := by
  unfold onGrid
  simp only
  split
  next hbelow habove =>
    rcases h with h | h
    · exact absurd (h.symm.trans hbelow) (by decide)
    · exact absurd (h.symm.trans habove) (by decide)
  next => exact ⟨_, rfl⟩
  next => exact ⟨_, rfl⟩
  next =>
    split
    next => exact ⟨_, rfl⟩
    next =>
      split
      next => exact ⟨_, rfl⟩
      next => split <;> exact ⟨_, rfl⟩

theorem grid_iff (hden : 0 < den) (x c : Nat) (k : Int) :
    (x * scale * Nat.pow 10 (-k).toNat ≤ c * (Nat.pow 10 k.toNat * den) ↔
      (x * scale : ℚ) / den ≤ c * 10 ^ k) ∧
    (c * (Nat.pow 10 k.toNat * den) ≤ x * scale * Nat.pow 10 (-k).toNat ↔
      c * 10 ^ k ≤ (x * scale : ℚ) / den) := by
  have hdenq : (0 : ℚ) < den := by exact_mod_cast hden
  have hnarrow : (0 : ℚ) < (10 ^ (-k).toNat : Nat) := by positivity
  rw [zpow_ten_eq k, ← mul_div_assoc, div_le_div_iff₀ hdenq hnarrow, div_le_div_iff₀ hnarrow hdenq,
    mul_assoc (c : ℚ)]
  constructor <;> exact_mod_cast Iff.rfl

theorem isInside_iff (hden : 0 < den) (k : Int) (c : Nat) : isInside lo hi scale den closed k c ↔
      Between closed ((lo * scale : ℚ) / den) (c * 10 ^ k) ((hi * scale : ℚ) / den) := by
  cases closed
  · simp only [isInside, Between, Bool.false_eq_true, if_false, Bool.and_eq_true,
      decide_eq_true_eq]
    rw [← not_le, ← not_le, (grid_iff hden ..).2, (grid_iff hden ..).1, not_le, not_le]
  · simp only [isInside, Between, if_true, Bool.and_eq_true, decide_eq_true_eq]
    rw [(grid_iff hden ..).1, (grid_iff hden ..).2]

theorem gridBelow_bounds (v scale : Nat) (hden : 0 < den) (k : Int) :
    (gridBelow v scale den k : ℚ) * 10 ^ k ≤ (v * scale : ℚ) / den ∧
      (v * scale : ℚ) / den < ((gridBelow v scale den k + 1 : Nat) : ℚ) * 10 ^ k := by
  have hunit : 0 < Nat.pow 10 k.toNat * den :=
    Nat.mul_pos (by rw [Nat.pow_eq]; positivity) hden
  constructor
  · rw [← (grid_iff hden ..).2]
    exact Nat.div_mul_le_self _ _
  · rw [← not_le, ← (grid_iff hden ..).2, Nat.not_le]
    exact (Nat.div_lt_iff_lt_mul hunit).1 (Nat.lt_succ_self _)

/-! ## The search -/

theorem scaleUp_spec {num : Nat} {fuel k : Nat} (h : den ≤ num * 10 ^ (k + fuel)) :
    den ≤ num * 10 ^ scaleUp num den fuel k := by
  induction fuel generalizing k with
  | zero => exact h
  | succ fuel ih =>
    rw [scaleUp]
    split
    next hfound => exact hfound
    next => exact ih (by rwa [Nat.add_right_comm, Nat.add_assoc])

theorem leadingExponent_le {num : Nat} (hden : 0 < den) (h : den ≤ num * 10 ^ 401) :
    (10 : ℚ) ^ leadingExponent num den ≤ (num : ℚ) / den := by
  have hdenq : (0 : ℚ) < den := by exact_mod_cast hden
  rw [le_div_iff₀ hdenq]
  unfold leadingExponent
  split
  next hle =>
    have hquot : 0 < num / den := Nat.div_pos hle hden
    have hpos := Nat.length_toDigits_pos (b := 10) (n := num / den)
    have hpow := pow_length_le _ hquot
    have hnat : 10 ^ ((Nat.toDigits 10 (num / den)).length - 1) * den ≤ num :=
      (Nat.mul_le_mul_right _ hpow).trans (Nat.div_mul_le_self _ _)
    rw [show ((Nat.toDigits 10 (num / den)).length : Int) - 1 =
      ((Nat.toDigits 10 (num / den)).length - 1 : Nat) by omega, zpow_natCast]
    exact_mod_cast hnat
  next =>
    have hscale : den ≤ num * 10 ^ scaleUp num den 400 1 :=
      scaleUp_spec (by rwa [show 1 + 400 = 401 from rfl])
    have hscaleq : (den : ℚ) ≤ num * 10 ^ scaleUp num den 400 1 := by exact_mod_cast hscale
    rw [zpow_neg, zpow_natCast, inv_mul_le_iff₀ (by positivity), mul_comm]
    exact hscaleq

/-- The result of the search is a grid point, if one of the grids tried has a hit. -/
theorem firstHit_spec {fuel : Nat} (h : ∃ k < fuel, ∃ c,
      onGrid lo v hi scale den closed e (n + k) = some c) :
    ∃ k c, onGrid lo v hi scale den closed e k = some c ∧
      firstHit lo v hi scale den closed e fuel n =
        ⟨significant c, e + ((Nat.toDigits 10 c).length - k : Int)⟩ := by
  induction fuel generalizing n with
  | zero =>
    obtain ⟨k, hk, _⟩ := h
    omega
  | succ fuel ih =>
    rw [firstHit]
    cases hgrid : onGrid lo v hi scale den closed e n with
    | some c => exact ⟨n, c, hgrid, rfl⟩
    | none =>
      obtain ⟨k, hk, c, hc⟩ := h
      cases k with
      | zero =>
        rw [Nat.add_zero, hgrid] at hc
        cases hc
      | succ k => exact ih ⟨k, by omega, c, by rwa [Nat.add_right_comm, Nat.add_assoc]⟩

/-- A grid has a point in an interval around `x` that reaches half a unit up and is not too short
below: either its spacing is less than half a unit, or the interval reaches half a unit down too. -/
theorem neighbour_between {a b x u ulp low : ℚ} (hbelow : a ≤ x) (habove : x < b) (hab : b = a + u)
    (hlow : low < x) (hcase : u < ulp / 2 ∨ (u < ulp ∧ low = x - ulp / 2)) :
    Between closed low a (x + ulp / 2) ∨ Between closed low b (x + ulp / 2) := by
  by_cases hnear : b < x + ulp / 2
  · exact .inr (between_of_lt closed (by linarith) hnear)
  · rcases hcase with hfine | ⟨hspacing, rfl⟩
    · exact absurd (by linarith) hnear
    · exact .inl (between_of_lt closed (by linarith) (by linarith))

/-! ## The shortest decimal -/

theorem quarter_units (q : Int) (x : ℚ) :
    x * (Nat.pow 2 (q - 2).toNat : Nat) / (Nat.pow 2 (2 - q).toNat : Nat) = x / 4 * 2 ^ q := by
  have hpow : (2 : ℚ) ^ (q - 2) = (Nat.pow 2 (q - 2).toNat : Nat) /
      (Nat.pow 2 (2 - q).toNat : Nat) := by
    simp only [Nat.pow_eq]
    push_cast
    rw [← zpow_natCast, ← zpow_natCast, ← zpow_sub₀ (by norm_num)]
    congr 1
    omega
  rw [mul_div_assoc, ← hpow, zpow_sub₀ (by norm_num)]
  norm_num
  ring

def lowerQuarters (m : Nat) (narrow : Bool) : Nat := if narrow then 4 * m - 1 else 4 * m - 2

theorem two_pow_le_ten_pow (n : Nat) : 2 ^ (3 * n) ≤ 10 ^ n := by
  rw [pow_mul]
  exact Nat.pow_le_pow_left (by decide) n

/-- Seventeen digits are always enough. -/
theorem onGrid_seventeen {m : Nat} {q : Int} (hm : Canonical m q) (closed : Bool) {narrow : Bool}
    (hnarrow : narrow = decide (m = 2 ^ 52 ∧ -1074 < q)) :
    ∃ c, onGrid (lowerQuarters m narrow) (4 * m) (4 * m + 2) (Nat.pow 2 (q - 2).toNat)
      (Nat.pow 2 (2 - q).toNat) closed
      (leadingExponent (4 * m * Nat.pow 2 (q - 2).toNat) (Nat.pow 2 (2 - q).toNat)) 17 =
        some c := by
  have hpos := hm.pos
  have hge := hm.ge
  have hlt : (m : ℚ) < 2 ^ 53 := by exact_mod_cast hm.lt
  have hone : (1 : ℚ) ≤ m := by exact_mod_cast hpos
  have hulp : (0 : ℚ) < 2 ^ q := by positivity
  have hden : 0 < Nat.pow 2 (2 - q).toNat := Nat.pow_pos (by decide)
  have hsmall : Nat.pow 2 (2 - q).toNat ≤ 4 * m * Nat.pow 2 (q - 2).toNat * 10 ^ 401 := by
    have hscale : 0 < Nat.pow 2 (q - 2).toNat := Nat.pow_pos (by decide)
    calc Nat.pow 2 (2 - q).toNat ≤ 2 ^ 1076 := Nat.pow_le_pow_right (by decide) (by omega)
      _ ≤ 10 ^ 401 := (Nat.pow_le_pow_right (by decide) (by decide)).trans (two_pow_le_ten_pow 401)
      _ ≤ 4 * m * Nat.pow 2 (q - 2).toNat * 10 ^ 401 :=
          Nat.le_mul_of_pos_left _ (Nat.mul_pos (by omega) hscale)
  have hleading := leadingExponent_le hden hsmall
  generalize leadingExponent (4 * m * Nat.pow 2 (q - 2).toNat) (Nat.pow 2 (2 - q).toNat) = e
    at hleading
  push_cast at hleading
  rw [quarter_units q (4 * m)] at hleading
  have hspacing : (10 : ℚ) ^ (e - (17 : Nat) + 1) ≤ m * 2 ^ q / 10 ^ 16 := by
    rw [show e - (17 : Nat) + 1 = e - (16 : Nat) by push_cast; ring, zpow_sub₀ (by norm_num),
      zpow_natCast]
    apply (div_le_div_iff_of_pos_right (by positivity)).2
    linarith
  apply onGrid_isSome
  rw [isInside_iff hden, isInside_iff hden]
  obtain ⟨hbelow, habove⟩ :=
    gridBelow_bounds (4 * m) (Nat.pow 2 (q - 2).toNat) hden (e - (17 : Nat) + 1)
  generalize gridBelow (4 * m) (Nat.pow 2 (q - 2).toNat) (Nat.pow 2 (2 - q).toNat)
    (e - (17 : Nat) + 1) = a at hbelow habove
  generalize (10 : ℚ) ^ (e - (17 : Nat) + 1) = u at hspacing hbelow habove
  have hvalue : ((4 * m : Nat) : ℚ) / 4 * 2 ^ q = m * 2 ^ q := by
    push_cast
    ring
  have hupper : ((4 * m + 2 : Nat) : ℚ) / 4 * 2 ^ q = m * 2 ^ q + 2 ^ q / 2 := by
    push_cast
    ring
  rw [quarter_units, hvalue] at hbelow habove
  rw [quarter_units, quarter_units, hupper]
  have hnext : ((a + 1 : Nat) : ℚ) * u = a * u + u := by
    push_cast
    ring
  by_cases hedge : m = 2 ^ 52 ∧ -1074 < q
  · -- The interval is short below, but the number is small for its unit.
    have hlower : ((lowerQuarters m narrow : Nat) : ℚ) / 4 * 2 ^ q < m * 2 ^ q := by
      rw [lowerQuarters, hnarrow, decide_eq_true hedge, if_pos rfl]
      apply mul_lt_mul_of_pos_right _ hulp
      rw [div_lt_iff₀ (by norm_num)]
      have hnat : 4 * m - 1 < m * 4 := by omega
      exact_mod_cast hnat
    have hm52 : (m : ℚ) = 2 ^ 52 := by exact_mod_cast hedge.1
    have hfine : u < 2 ^ q / 2 := by
      rw [hm52] at hspacing
      norm_num at hspacing
      linarith
    exact neighbour_between hbelow habove hnext hlower (.inl hfine)
  · have hlower : ((lowerQuarters m narrow : Nat) : ℚ) / 4 * 2 ^ q = m * 2 ^ q - 2 ^ q / 2 := by
      rw [lowerQuarters, hnarrow, decide_eq_false hedge, if_neg (by decide),
        Nat.cast_sub (by omega)]
      push_cast
      ring
    have hfine : u < 2 ^ q := by
      have hbound : (m : ℚ) * 2 ^ q < 2 ^ 53 * 2 ^ q := mul_lt_mul_of_pos_right hlt hulp
      norm_num at hspacing hbound
      linarith
    rw [hlower]
    exact neighbour_between hbelow habove hnext (by linarith) (.inr ⟨hfine, rfl⟩)

theorem half_le_lowerQuarters {m : Nat} (hpos : 0 < m) (narrow : Bool) :
    (m - 1 / 2 : ℚ) ≤ (lowerQuarters m narrow : ℚ) / 4 := by
  rw [le_div_iff₀ (by norm_num), lowerQuarters]
  split
  all_goals
    rw [Nat.cast_sub (by omega)]
    push_cast
    linarith

/-- The interval that is searched holds the numbers that round to the float. -/
theorem rounds_of_between {m : Nat} {q : Int} (hpos : 0 < m) {x : ℚ}
    (h : Between (m % 2 == 0) ((lowerQuarters m (decide (m = 2 ^ 52 ∧ -1074 < q)) : ℚ) / 4 * 2 ^ q)
      x ((m + 1 / 2) * 2 ^ q)) : Rounds m q x := by
  have hulp : (0 : ℚ) < 2 ^ q := by positivity
  have hlower := half_le_lowerQuarters hpos (decide (m = 2 ^ 52 ∧ -1074 < q))
  obtain ⟨hge, hle⟩ := h.bounds
  rw [← le_div_iff₀ hulp] at hge
  rw [← div_le_iff₀ hulp] at hle
  refine ⟨⟨hlower.trans hge, hle, ?_⟩, ?_⟩
  · intro hodd
    have hopen : (m % 2 == 0) = false := by simp [hodd]
    rw [hopen] at h
    have hstrict : _ < x ∧ x < _ := h
    rw [← lt_div_iff₀ hulp, ← div_lt_iff₀ hulp] at hstrict
    exact ⟨lt_of_le_of_lt hlower hstrict.1, hstrict.2⟩
  · intro hm52 hq
    rw [decide_eq_true ⟨hm52, hq⟩, lowerQuarters, if_pos rfl, Nat.cast_sub (by omega)] at hge
    push_cast at hge
    linarith

/-- The shortest decimal rounds to the float. -/
theorem rounds_shortest {m : Nat} {q : Int} (hm : Canonical m q) :
    Rounds m q (shortest m q (decide (m = 2 ^ 52 ∧ -1074 < q))).value ∧
      Written (shortest m q (decide (m = 2 ^ 52 ∧ -1074 < q))).digits := by
  have hpos := hm.pos
  have hulp : (0 : ℚ) < 2 ^ q := by positivity
  have hden : 0 < Nat.pow 2 (2 - q).toNat := Nat.pow_pos (by decide)
  obtain ⟨c₀, hc₀⟩ := onGrid_seventeen hm (m % 2 == 0) rfl
  obtain ⟨k, c, hgrid, hhit⟩ := firstHit_spec ⟨16, Nat.lt_succ_self 16, c₀, hc₀⟩
  have hshortest : shortest m q (decide (m = 2 ^ 52 ∧ -1074 < q)) = ⟨significant c, _⟩ := hhit
  have hbetween := (isInside_iff hden _ c).1 (isInside_of_onGrid hgrid)
  have hupper : ((4 * m + 2 : Nat) : ℚ) / 4 = m + 1 / 2 := by
    push_cast
    ring
  rw [quarter_units, quarter_units, hupper] at hbetween
  have hc : 0 < c := by
    apply Nat.pos_of_ne_zero
    rintro rfl
    have hone : (1 : ℚ) ≤ m := by exact_mod_cast hpos
    have hlower := half_le_lowerQuarters hpos (decide (m = 2 ^ 52 ∧ -1074 < q))
    have hzero := hbetween.bounds.1
    rw [Nat.cast_zero, zero_mul] at hzero
    have := mul_pos (show (0 : ℚ) < _ by linarith) hulp
    linarith
  rw [hshortest, value_significant hc]
  exact ⟨rounds_of_between hpos hbetween, significant_written hc⟩

end Bindery.Decimal
