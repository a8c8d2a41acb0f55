import CwStation.Verification.Python.Floats

/-! # Rounding keeps the order

A number on one side of a float is not rounded past it. -/

namespace CwStation

theorem le_roundHalfEven {q : ℚ} {n : ℤ} (h : (n : ℚ) ≤ q) : n ≤ roundHalfEven q := by
  have hclose := abs_le.mp (abs_roundHalfEven_sub q)
  have hlt : ((n - 1 : ℤ) : ℚ) < roundHalfEven q := by
    push_cast
    linarith [hclose.1]
  have hint : n - 1 < roundHalfEven q := Int.cast_lt.mp hlt
  omega

theorem roundHalfEven_le {q : ℚ} {n : ℤ} (h : q ≤ n) : roundHalfEven q ≤ n := by
  have hclose := abs_le.mp (abs_roundHalfEven_sub q)
  have hlt : (roundHalfEven q : ℚ) < ((n + 1 : ℤ) : ℚ) := by
    push_cast
    linarith [hclose.2]
  have hint : roundHalfEven q < n + 1 := Int.cast_lt.mp hlt
  omega

/-- A tie goes to the even neighbour. -/
theorem roundHalfEven_half (m : ℤ) :
    roundHalfEven (m + 1 / 2) = if m % 2 = 0 then m else m + 1 := by
  have hfloor : (m + 1 / 2 : ℚ).floor = m := by
    change ⌊(m + 1 / 2 : ℚ)⌋ = m
    rw [Int.floor_eq_iff]
    constructor <;> linarith
  have hrest : (m + 1 / 2 : ℚ) - m = 1 / 2 := add_sub_cancel_left _ _
  unfold roundHalfEven
  simp only [hfloor, hrest, lt_irrefl, ite_false]

/-- A float is a multiple of its last place. -/
theorem exists_multiple {f : ℚ} (hf : nearestFloat f = f) : ∃ m : ℤ, f = m * 2 ^ lastPlace f :=
  ⟨roundHalfEven (f / 2 ^ lastPlace f), hf.symm⟩

/-- A multiple of a coarse place is one of a fine place. -/
theorem exists_multiple_of_le {f : ℚ} {p p' : ℤ} (h : ∃ m : ℤ, f = m * 2 ^ p) (hp : p' ≤ p) :
    ∃ m : ℤ, f = m * 2 ^ p' := by
  obtain ⟨m, hm⟩ := h
  obtain ⟨n, hn⟩ := Int.eq_ofNat_of_zero_le (sub_nonneg.mpr hp)
  refine ⟨m * 2 ^ n, ?_⟩
  have hplace : (2 : ℚ) ^ p = 2 ^ n * 2 ^ p' := by
    rw [← zpow_natCast, ← zpow_add₀ two_ne_zero, ← hn, sub_add_cancel]
  rw [hm, hplace]
  push_cast
  ring

/-- Where a float has a finer last place than a number, a power of two is between them. -/
theorem abs_lt_of_lastPlace_lt {x f : ℚ} (hx : x ≠ 0) (h : lastPlace f < lastPlace x) :
    |f| < 2 ^ (lastPlace x + 52) ∧ (2 : ℚ) ^ (lastPlace x + 52) ≤ |x| := by
  have hplace : lastPlace x = Int.log 2 |x| - 52 := by
    have hle : (-1074 : ℤ) ≤ lastPlace f := le_max_right _ _
    have hmax : lastPlace x = max (Int.log 2 |x| - 52) (-1074) := rfl
    omega
  constructor
  · have hlog : |f| < (2 : ℚ) ^ (Int.log 2 |f| + 1) := by
      exact_mod_cast Int.lt_zpow_succ_log_self one_lt_two |f|
    have hle : Int.log 2 |f| - 52 ≤ lastPlace f := le_max_left _ _
    exact hlog.trans_le (zpow_le_zpow_right₀ one_le_two (by omega))
  · have hlog : (2 : ℚ) ^ Int.log 2 |x| ≤ |x| := by
      exact_mod_cast Int.zpow_log_le_self one_lt_two (abs_pos.mpr hx)
    rw [hplace, sub_add_cancel]
    exact hlog

theorem nearestFloat_zero : nearestFloat 0 = 0 := by
  have hround : roundHalfEven 0 = 0 := roundHalfEven_intCast 0
  rw [nearestFloat, zero_div, hround, Int.cast_zero, zero_mul]

theorem zpow_digits (p : ℤ) : (2 : ℚ) ^ (p + 52) = (2 ^ 52 : ℤ) * 2 ^ p := by
  rw [zpow_add₀ two_ne_zero, mul_comm]
  norm_cast

/-- A float no less than a number is no less than what it is rounded to. -/
theorem nearestFloat_le {x f : ℚ} (hf : nearestFloat f = f) (h : x ≤ f) : nearestFloat x ≤ f := by
  have hpos : (0 : ℚ) < 2 ^ lastPlace x := zpow_pos two_pos _
  have hmultiple : ∀ m : ℤ, x ≤ m * 2 ^ lastPlace x → nearestFloat x ≤ m * 2 ^ lastPlace x := by
    intro m hm
    have hint := roundHalfEven_le ((div_le_iff₀ hpos).mpr hm)
    exact mul_le_mul_of_nonneg_right (by exact_mod_cast hint) hpos.le
  by_cases hx : x = 0
  · rw [hx, nearestFloat_zero, ← hx]
    exact h
  by_cases hplace : lastPlace x ≤ lastPlace f
  · obtain ⟨m, hm⟩ := exists_multiple_of_le (exists_multiple hf) hplace
    rw [hm] at h ⊢
    exact hmultiple m h
  · -- the number is negative, and a power of two is between
    obtain ⟨hlow, hhigh⟩ := abs_lt_of_lastPlace_lt hx (not_le.mp hplace)
    have hneg : |x| = -x := by
      apply abs_of_nonpos
      by_contra hxpos
      have hle : |x| ≤ |f| := by
        rw [abs_of_pos (not_le.mp hxpos)]
        exact h.trans (le_abs_self f)
      linarith
    have hpower : x ≤ ((-2 ^ 52 : ℤ) : ℚ) * 2 ^ lastPlace x := by
      rw [zpow_digits] at hhigh
      push_cast at hhigh ⊢
      linarith
    have hround := hmultiple _ hpower
    rw [zpow_digits] at hlow
    have hf' := neg_abs_le f
    push_cast at hlow hround
    linarith

/-- A float no greater than a number is no greater than what it is rounded to. -/
theorem le_nearestFloat {x f : ℚ} (hf : nearestFloat f = f) (h : f ≤ x) : f ≤ nearestFloat x := by
  have hpos : (0 : ℚ) < 2 ^ lastPlace x := zpow_pos two_pos _
  have hmultiple : ∀ m : ℤ, m * 2 ^ lastPlace x ≤ x → m * 2 ^ lastPlace x ≤ nearestFloat x := by
    intro m hm
    have hint := le_roundHalfEven ((le_div_iff₀ hpos).mpr hm)
    exact mul_le_mul_of_nonneg_right (by exact_mod_cast hint) hpos.le
  by_cases hx : x = 0
  · rw [hx, nearestFloat_zero, ← hx]
    exact h
  by_cases hplace : lastPlace x ≤ lastPlace f
  · obtain ⟨m, hm⟩ := exists_multiple_of_le (exists_multiple hf) hplace
    rw [hm] at h ⊢
    exact hmultiple m h
  · -- the number is positive, and a power of two is between
    obtain ⟨hlow, hhigh⟩ := abs_lt_of_lastPlace_lt hx (not_le.mp hplace)
    have hpos' : |x| = x := by
      apply abs_of_nonneg
      by_contra hxneg
      have hle : |x| ≤ |f| := by
        rw [abs_of_neg (not_le.mp hxneg)]
        exact (neg_le_neg h).trans (neg_le_abs f)
      linarith
    have hpower : ((2 ^ 52 : ℤ) : ℚ) * 2 ^ lastPlace x ≤ x := by
      rw [zpow_digits] at hhigh
      linarith
    have hround := hmultiple _ hpower
    rw [zpow_digits] at hlow
    have hf' := le_abs_self f
    linarith

instance : LinearOrder Finite64 := LinearOrder.lift' Finite64.val fun x y h => by
  cases x
  cases y
  cases h
  rfl

theorem Finite64.le_iff {x y : Finite64} : x ≤ y ↔ x.val ≤ y.val := Iff.rfl

theorem Finite64.lt_iff {x y : Finite64} : x < y ↔ x.val < y.val := Iff.rfl

namespace Float64

theorem num_lt {x y : Finite64} : Float64.num x < Float64.num y ↔ x < y := by
  change (decide (x.val ≤ y.val) && !decide (y.val ≤ x.val)) = true ↔ x.val < y.val
  simp only [Bool.and_eq_true, Bool.not_eq_true', decide_eq_true_eq, decide_eq_false_iff_not, not_le]
  exact ⟨And.right, fun h => ⟨h.le, h⟩⟩

theorem num_le {x y : Finite64} : Float64.num x ≤ Float64.num y ↔ x ≤ y := by
  change decide (x.val ≤ y.val) = true ↔ x.val ≤ y.val
  rw [decide_eq_true_eq]

end Float64

/-! ## Arithmetic of floats -/

open PyFloat (lit)

theorem ofRat_of_float {q : ℚ} (h : nearestFloat q = q) (hq : |q| < floatLimit) :
    Float64.ofRat q = .num ⟨q, h, hq⟩ := by
  have hlimit : |nearestFloat q| < floatLimit := by rw [h]; exact hq
  rw [Float64.ofRat, dif_pos hlimit]
  simp only [h]

theorem ofRat_cases (q : ℚ) : (∃ y : Finite64, Float64.ofRat q = .num y ∧ y.val = nearestFloat q) ∨
    Float64.ofRat q = .inf (decide (q < 0)) := by
  unfold Float64.ofRat
  by_cases h : |nearestFloat q| < floatLimit
  · rw [dif_pos h]
    exact .inl ⟨_, rfl, rfl⟩
  · rw [dif_neg h]
    exact .inr rfl

theorem num_add (x y : Finite64) : Float64.num x + Float64.num y = Float64.ofRat (x.val + y.val) := (rfl)

theorem num_sub (x y : Finite64) : Float64.num x - Float64.num y = Float64.ofRat (x.val - y.val) := (rfl)

theorem lt_num_of_le {a : Float64} {x y : Finite64} (h : a < .num x) (hxy : x ≤ y) : a < .num y := by
  cases a with
  | num z =>
    rw [Float64.num_lt] at h ⊢
    exact h.trans_le hxy
  | inf negative =>
    cases negative with
    | true => rfl
    | false => cases h
  | nan => cases h

theorem num_lt_of_le {a : Float64} {x y : Finite64} (h : .num x < a) (hxy : y ≤ x) : .num y < a := by
  cases a with
  | num z =>
    rw [Float64.num_lt] at h ⊢
    exact hxy.trans_lt h
  | inf negative =>
    cases negative with
    | true => cases h
    | false => rfl
  | nan => cases h

/-- Two floats that are close together have a difference that is one. -/
theorem nearestFloat_sub {x y : Finite64} (hx : 64 ≤ x.val) (hy : 64 ≤ y.val)
    (h : |x.val - y.val| < 1) :
    nearestFloat (x.val - y.val) = x.val - y.val := by
  have hplace : ∀ z : Finite64, 64 ≤ z.val → -46 ≤ lastPlace z.val := by
    intro z hz
    have hlog : 6 ≤ Int.log 2 |z.val| := by
      have hpos : 0 < |z.val| := abs_pos.mpr (by linarith)
      rw [← Int.zpow_le_iff_le_log one_lt_two hpos, abs_of_pos (by linarith)]
      norm_num
      exact hz
    have hmax : Int.log 2 |z.val| - 52 ≤ lastPlace z.val := le_max_left _ _
    omega
  obtain ⟨a, ha⟩ := exists_multiple_of_le (exists_multiple x.exact) (hplace x hx)
  obtain ⟨b, hb⟩ := exists_multiple_of_le (exists_multiple y.exact) (hplace y hy)
  have hdigits : |a - b| ≤ 2 ^ 53 := by
    have hpos : (0 : ℚ) < 2 ^ (-46 : ℤ) := zpow_pos two_pos _
    have habs : |(2 : ℚ) ^ (-46 : ℤ)| = 2 ^ (-46 : ℤ) := abs_of_pos hpos
    rw [ha, hb, ← sub_mul, abs_mul, habs] at h
    have hlt : |((a - b : ℤ) : ℚ)| < 2 ^ 46 := by
      push_cast
      have hone : (2 : ℚ) ^ (46 : ℕ) * 2 ^ (-46 : ℤ) = 1 := by norm_num
      nlinarith
    have hint : |a - b| < 2 ^ 46 := by exact_mod_cast hlt
    omega
  have hsub : x.val - y.val = ((a - b : ℤ) : ℚ) * 2 ^ (-46 : ℤ) := by
    rw [ha, hb]
    push_cast
    ring
  rw [hsub]
  exact nearestFloat_of_digits hdigits (by norm_num)

theorem abs_zero_lt_floatLimit : |(0 : ℚ)| < floatLimit := by norm_num [floatLimit]

theorem lit_zero : (lit 0 : Float64) = .num ⟨0, nearestFloat_zero, abs_zero_lt_floatLimit⟩ :=
  ofRat_of_float nearestFloat_zero abs_zero_lt_floatLimit

theorem nearestFloat_one : nearestFloat 1 = 1 := by
  have h := nearestFloat_of_digits (m := 1) (k := 0) (by norm_num) (by norm_num)
  simpa using h

theorem nearestFloat_neg_one : nearestFloat (-1) = -1 := by
  have h := nearestFloat_of_digits (m := -1) (k := 0) (by norm_num) (by norm_num)
  simpa using h

theorem one_lt_floatLimit : (1 : ℚ) < floatLimit := one_lt_pow₀ one_lt_two (by norm_num)

theorem num_lt_zero {x : Finite64} : Float64.num x < lit 0 ↔ x.val < 0 := by
  rw [lit_zero, Float64.num_lt]
  rfl

/-- `abs` of a float. -/
theorem abs_num {x : Finite64} (hx : nearestFloat (-x.val) = -x.val) :
    ∃ y : Finite64, PyFloat.abs (Float64.num x) = .num y ∧ y.val = |x.val| := by
  by_cases hneg : x.val < 0
  · have hzero : (lit 0 : Float64) - .num x = Float64.ofRat (-x.val) := by
      rw [lit_zero, num_sub, zero_sub]
    refine ⟨⟨-x.val, hx, by rw [abs_neg]; exact x.bounded⟩, ?_, (abs_of_neg hneg).symm⟩
    rw [PyFloat.abs, if_pos (num_lt_zero.mpr hneg), hzero, ofRat_of_float hx]
  · refine ⟨x, ?_, (abs_of_nonneg (not_lt.mp hneg)).symm⟩
    rw [PyFloat.abs, if_neg (fun h => hneg (num_lt_zero.mp h))]

theorem nearestFloat_neg_of_float {x : ℚ} (h : nearestFloat x = x) : nearestFloat (-x) = -x := by
  have hdigits := abs_digits_le x
  have hneg : -x = ((-roundHalfEven (x / 2 ^ lastPlace x) : ℤ) : ℚ) * 2 ^ lastPlace x := by
    push_cast
    rw [neg_mul]
    exact congrArg Neg.neg h.symm
  rw [hneg]
  exact nearestFloat_of_digits (by rw [abs_neg]; exact hdigits) (le_max_right _ _)

theorem ofRat_between {q a b : ℚ} (ha : nearestFloat a = a) (hb : nearestFloat b = b) (haq : a ≤ q)
    (hqb : q ≤ b) (hlow : -floatLimit < a) (hhigh : b < floatLimit) :
    ∃ y : Finite64, Float64.ofRat q = .num y ∧ a ≤ y.val ∧ y.val ≤ b := by
  have hle := le_nearestFloat ha haq
  have hge := nearestFloat_le hb hqb
  have hlimit : |nearestFloat q| < floatLimit := by
    rw [abs_lt]
    exact ⟨hlow.trans_le hle, hge.trans_lt hhigh⟩
  exact ⟨⟨_, nearestFloat_idem q, hlimit⟩, dif_pos hlimit, hle, hge⟩

/-! ## Floats between bounds

Where the bounds are floats themselves, rounding does not leave them. -/

/-- A finite float between two numbers. -/
def Between (lo hi : ℚ) (x : Float64) : Prop := ∃ y : Finite64, x = .num y ∧ lo ≤ y.val ∧ y.val ≤ hi

/-- Two floats, from zero on, that a result may lie between. -/
structure Bounds (lo hi : ℚ) : Prop where
  low : nearestFloat lo = lo
  high : nearestFloat hi = hi
  nonneg : 0 ≤ lo
  bounded : hi < floatLimit

section

variable {lo hi a b c d q : ℚ} {x y : Float64}

theorem between_ofRat (h : Bounds lo hi) (hlow : lo ≤ q) (hhigh : q ≤ hi) :
    Between lo hi (Float64.ofRat q) := by
  have hlimit : 0 < floatLimit := h.nonneg.trans_lt ((hlow.trans hhigh).trans_lt h.bounded)
  exact ofRat_between h.low h.high hlow hhigh ((neg_neg_of_pos hlimit).trans_le h.nonneg) h.bounded

theorem Between.mul (hx : Between a b x) (hy : Between c d y) (h : Bounds lo hi) (ha : 0 ≤ a)
    (hc : 0 ≤ c) (hlow : lo ≤ a * c) (hhigh : b * d ≤ hi) : Between lo hi (x * y) := by
  obtain ⟨v, rfl, hav, hvb⟩ := hx
  obtain ⟨w, rfl, hcw, hwd⟩ := hy
  apply between_ofRat h
  · exact hlow.trans (mul_le_mul hav hcw hc (ha.trans hav))
  · exact (mul_le_mul hvb hwd (hc.trans hcw) (ha.trans (hav.trans hvb))).trans hhigh

theorem Between.div (hx : Between a b x) (hy : Between c d y) (h : Bounds lo hi) (ha : 0 ≤ a)
    (hc : 0 < c) (hlow : lo ≤ a / d) (hhigh : b / c ≤ hi) : Between lo hi (x / y) := by
  obtain ⟨v, rfl, hav, hvb⟩ := hx
  obtain ⟨w, rfl, hcw, hwd⟩ := hy
  have hw : 0 < w.val := hc.trans_le hcw
  apply between_ofRat h
  · exact hlow.trans (div_le_div₀ (ha.trans hav) hav hw hwd)
  · exact (div_le_div₀ (ha.trans (hav.trans hvb)) hvb hc hcw).trans hhigh

theorem Between.isZero (hx : Between a b x) (ha : 0 < a) : PyFloat.isZero x = false := by
  obtain ⟨v, rfl, hav, -⟩ := hx
  have hbounds : Bounds 0 0 := ⟨nearestFloat_zero, nearestFloat_zero, le_refl 0, by
    unfold floatLimit
    positivity⟩
  obtain ⟨z, hz, -, hle⟩ := between_ofRat hbounds (le_refl 0) (le_refl 0)
  have hzero : (lit 0 : Float64) = .num z := hz
  rw [PyFloat.isZero, hzero]
  change (decide (v.val ≤ z.val) && decide (z.val ≤ v.val)) = false
  rw [decide_eq_false (not_le.mpr (hle.trans_lt (ha.trans_le hav))), Bool.false_and]

/-- The comparisons of a field with its limits. -/
theorem between_of_le (ha : Bounds a a) (hb : Bounds b b) (hlow : lit a ≤ x) (hhigh : x ≤ lit b) :
    Between a b x := by
  obtain ⟨v, hv, hav, hva⟩ := between_ofRat ha (le_refl a) (le_refl a)
  obtain ⟨w, hw, hbw, hwb⟩ := between_ofRat hb (le_refl b) (le_refl b)
  change Float64.le (Float64.ofRat a) x = true at hlow
  change Float64.le x (Float64.ofRat b) = true at hhigh
  rw [hv] at hlow
  rw [hw] at hhigh
  cases x with
  | num z =>
    exact ⟨z, rfl, hav.trans (of_decide_eq_true hlow), (of_decide_eq_true hhigh).trans hwb⟩
  | inf negative => cases negative <;> first | cases hlow; done | cases hhigh
  | nan => cases hlow

/-- The nearest integer is no less than an integer bound. -/
theorem Between.roundInt {n : ℤ} (hx : Between n hi x) :
    ∃ m : ℤ, PyFloat.roundInt x = .ok m ∧ n ≤ m := by
  obtain ⟨v, rfl, hnv, -⟩ := hx
  exact ⟨roundHalfEven v.val, rfl, le_roundHalfEven hnv⟩

end

end CwStation
