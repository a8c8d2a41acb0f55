import Mathlib.Data.Int.Log
import CwStation.Model.Python

/-! # Floats and their texts

Python's `float` is a binary64 number. Arithmetic that rounds is exact arithmetic followed by
one rounding, so a finite float is the rational it stands for; the two zeros are not told apart. -/

namespace CwStation

/-- The exponent of the last place of the floats around `q`: 53 bits, or those left to the
subnormal ones. -/
def lastPlace (q : ℚ) : ℤ := max (Int.log 2 |q| - 52) (-1074)

/-- The nearest multiple of the last place, ties to the even one. -/
def nearestFloat (q : ℚ) : ℚ := roundHalfEven (q / 2 ^ lastPlace q) * 2 ^ lastPlace q

/-- The first power of two that is not a float. -/
def floatLimit : ℚ := 2 ^ 1024

/-- A finite float. -/
structure Finite64 where
  val : ℚ
  exact : nearestFloat val = val
  bounded : |val| < floatLimit
  deriving DecidableEq

/-- A `float`. -/
inductive Float64
  | num (x : Finite64)
  | inf (negative : Bool)
  | nan
  deriving DecidableEq

/-! ## Rounding to floats -/

theorem roundHalfEven_cases (q : ℚ) : roundHalfEven q = q.floor ∧ q - q.floor ≤ 1 / 2 ∨
    roundHalfEven q = q.floor + 1 ∧ 1 / 2 ≤ q - q.floor := by
  unfold roundHalfEven
  simp only
  split
  · rename_i hlow
    exact .inl ⟨rfl, hlow.le⟩
  · rename_i hlow
    rw [not_lt] at hlow
    split
    · exact .inr ⟨rfl, hlow⟩
    · rename_i hhigh
      rw [not_lt] at hhigh
      split
      · exact .inl ⟨rfl, hhigh⟩
      · exact .inr ⟨rfl, hlow⟩

theorem abs_roundHalfEven_sub (q : ℚ) : |(roundHalfEven q : ℚ) - q| ≤ 1 / 2 := by
  have hle : (q.floor : ℚ) ≤ q := Int.floor_le q
  have hlt : q < q.floor + 1 := Int.lt_floor_add_one q
  rw [abs_le]
  rcases roundHalfEven_cases q with ⟨hr, hq⟩ | ⟨hr, hq⟩
  · rw [hr]
    constructor <;> linarith
  · rw [hr]
    push_cast
    constructor <;> linarith

/-- An integer less than one half away is the nearest one. -/
theorem roundHalfEven_eq {q : ℚ} {n : ℤ} (h : |q - n| < 1 / 2) : roundHalfEven q = n := by
  have hround := abs_le.mp (abs_roundHalfEven_sub q)
  have hq := abs_lt.mp h
  have hlow : ((n - 1 : ℤ) : ℚ) < roundHalfEven q := by
    push_cast
    linarith
  have hhigh : (roundHalfEven q : ℚ) < ((n + 1 : ℤ) : ℚ) := by
    push_cast
    linarith
  have hl : n - 1 < roundHalfEven q := by exact_mod_cast hlow
  have hh : roundHalfEven q < n + 1 := by exact_mod_cast hhigh
  omega

theorem roundHalfEven_intCast (n : ℤ) : roundHalfEven n = n :=
  roundHalfEven_eq (by simp)

/-- Below the next power of two there are no finer places. -/
theorem lastPlace_le {y : ℚ} {k : ℤ} (hy : y ≠ 0) (hlt : |y| < 2 ^ (k + 53)) (hk : -1074 ≤ k) :
    lastPlace y ≤ k := by
  have hlog : Int.log 2 |y| < k + 53 :=
    (Int.lt_zpow_iff_log_lt one_lt_two (abs_pos.mpr hy)).mp (by exact_mod_cast hlt)
  rw [lastPlace, max_le_iff]
  omega

theorem nearestFloat_of_multiple {m k : ℤ} (h : lastPlace (m * 2 ^ k) ≤ k) :
    nearestFloat (m * 2 ^ k) = m * 2 ^ k := by
  obtain ⟨n, hn⟩ := Int.eq_ofNat_of_zero_le (sub_nonneg.mpr h)
  have hplace : (2 : ℚ) ^ k = 2 ^ n * 2 ^ lastPlace (m * 2 ^ k) := by
    rw [← zpow_natCast, ← zpow_add₀ two_ne_zero, ← hn, sub_add_cancel]
  have hquot : (m * 2 ^ k : ℚ) / 2 ^ lastPlace (m * 2 ^ k) = ((m * 2 ^ n : ℤ) : ℚ) := by
    rw [div_eq_iff (zpow_pos two_pos _).ne']
    push_cast
    rw [mul_assoc, ← hplace]
  rw [nearestFloat, hquot, roundHalfEven_intCast, ← hquot, div_mul_cancel₀]
  exact (zpow_pos two_pos _).ne'

theorem abs_div_lastPlace_lt (q : ℚ) : |q / 2 ^ lastPlace q| < 2 ^ 53 := by
  have hpos : (0 : ℚ) < 2 ^ lastPlace q := zpow_pos two_pos _
  have hlog : |q| < (2 : ℚ) ^ (Int.log 2 |q| + 1) := by
    exact_mod_cast Int.lt_zpow_succ_log_self one_lt_two |q|
  have hle : (2 : ℚ) ^ (Int.log 2 |q| + 1) ≤ 2 ^ (lastPlace q + 53) := by
    apply zpow_le_zpow_right₀ one_le_two
    have hmax : Int.log 2 |q| - 52 ≤ lastPlace q := le_max_left _ _
    omega
  rw [abs_div, abs_of_pos hpos, div_lt_iff₀ hpos]
  calc |q| < 2 ^ (lastPlace q + 53) := hlog.trans_le hle
    _ = 2 ^ 53 * 2 ^ lastPlace q := by
        rw [zpow_add₀ two_ne_zero, mul_comm]
        norm_cast

/-- The digits of a float fit in 53 bits, or are the next power of two. -/
theorem abs_digits_le (q : ℚ) : |roundHalfEven (q / 2 ^ lastPlace q)| ≤ 2 ^ 53 := by
  have hround := abs_le.mp (abs_roundHalfEven_sub (q / 2 ^ lastPlace q))
  have hlt := abs_lt.mp (abs_div_lastPlace_lt q)
  have hlow : -(2 ^ 53 + 1 : ℚ) < roundHalfEven (q / 2 ^ lastPlace q) := by linarith
  have hhigh : (roundHalfEven (q / 2 ^ lastPlace q) : ℚ) < 2 ^ 53 + 1 := by linarith
  have hlow' : -(2 ^ 53 + 1) < roundHalfEven (q / 2 ^ lastPlace q) := by exact_mod_cast hlow
  have hhigh' : roundHalfEven (q / 2 ^ lastPlace q) < 2 ^ 53 + 1 := by exact_mod_cast hhigh
  rw [abs_le]
  constructor <;> omega

/-- What has few enough digits is a float. -/
theorem nearestFloat_of_digits {m k : ℤ} (hm : |m| ≤ 2 ^ 53) (hk : -1074 ≤ k) :
    nearestFloat (m * 2 ^ k) = m * 2 ^ k := by
  have hpos : (0 : ℚ) < 2 ^ k := zpow_pos two_pos k
  by_cases hzero : m = 0
  · have hround : roundHalfEven 0 = 0 := roundHalfEven_intCast 0
    simp [hzero, nearestFloat, hround]
  have hne : (m : ℚ) * 2 ^ k ≠ 0 := mul_ne_zero (by exact_mod_cast hzero) hpos.ne'
  have habs : |(m : ℚ) * 2 ^ k| = |m| * 2 ^ k := by
    rw [abs_mul, abs_of_pos hpos]
    norm_cast
  have hsplit : (2 : ℚ) ^ (k + 53) = 2 ^ 53 * 2 ^ k := by
    rw [zpow_add₀ two_ne_zero, mul_comm]
    norm_cast
  rcases lt_or_eq_of_le hm with hlt | heq
  · apply nearestFloat_of_multiple
    apply lastPlace_le hne _ hk
    rw [habs, hsplit]
    apply mul_lt_mul_of_pos_right _ hpos
    exact_mod_cast hlt
  · -- the next power of two has its last place one higher
    obtain ⟨m', hm'⟩ : ∃ m', m = m' * 2 := by
      rcases abs_eq (by positivity) |>.mp heq with hm' | hm' <;> rw [hm']
      · exact ⟨2 ^ 52, by norm_num⟩
      · exact ⟨-2 ^ 52, by norm_num⟩
    have hshift : (m : ℚ) * 2 ^ k = m' * 2 ^ (k + 1) := by
      rw [hm', zpow_add_one₀ two_ne_zero]
      push_cast
      ring
    rw [hshift] at hne habs ⊢
    apply nearestFloat_of_multiple
    apply lastPlace_le hne _ (by omega)
    rw [habs, heq, add_right_comm, zpow_add_one₀ two_ne_zero, hsplit]
    push_cast
    linarith

theorem nearestFloat_idem (q : ℚ) : nearestFloat (nearestFloat q) = nearestFloat q :=
  nearestFloat_of_digits (abs_digits_le q) (le_max_right _ _)

/-- A number with at least `n` digits. -/
def zeroFill (n value : ℕ) : Str :=
  let digits := Nat.toDigits 10 value
  List.replicate (n - digits.length) '0' ++ digits

namespace Float64

/-- The float next to a rational. -/
def ofRat (q : ℚ) : Float64 :=
  if h : |nearestFloat q| < floatLimit then .num ⟨nearestFloat q, nearestFloat_idem q, h⟩
  else .inf (q < 0)

/-- `bool(x)`. -/
def isTrue : Float64 → Bool
  | .num x => x.val ≠ 0
  | _ => true

/-- `x <= y`. -/
def le : Float64 → Float64 → Bool
  | .num x, .num y => x.val ≤ y.val
  | .inf negative, .num _ => negative
  | .num _, .inf negative => !negative
  | .inf negative, .inf negative' => negative || !negative'
  | _, _ => false

/-- `round(x, n)`. -/
def round (n : ℕ) : Float64 → Float64
  | .num x => ofRat (roundDigits x.val n)
  | x => x

/-- The format `.nf`. -/
def fixed (n : ℕ) : Float64 → Str
  | .num x =>
      let value := (roundHalfEven (|x.val| * 10 ^ n)).toNat
      let text := Nat.toDigits 10 (value / 10 ^ n) ++ '.' :: zeroFill n (value % 10 ^ n)
      if x.val < 0 then '-' :: text else text
  | .inf negative => if negative then "-inf".toList else "inf".toList
  | .nan => "nan".toList

end Float64

/-! ## Arithmetic -/

namespace Float64

/-- `x < y`. -/
def lt (x y : Float64) : Bool := le x y && !le y x

/-- `x == y`. -/
def eq (x y : Float64) : Bool := le x y && le y x

def add : Float64 → Float64 → Float64
  | .num x, .num y => ofRat (x.val + y.val)
  | .inf negative, .num _ => .inf negative
  | .num _, .inf negative => .inf negative
  | .inf negative, .inf negative' => if negative = negative' then .inf negative else .nan
  | _, _ => .nan

def sub : Float64 → Float64 → Float64
  | .num x, .num y => ofRat (x.val - y.val)
  | .inf negative, .num _ => .inf negative
  | .num _, .inf negative => .inf !negative
  | .inf negative, .inf negative' => if negative = negative' then .nan else .inf negative
  | _, _ => .nan

/-- Infinity times a finite number. -/
def scaleInf (negative : Bool) (x : Finite64) : Float64 :=
  if x.val = 0 then .nan else .inf (negative ^^ decide (x.val < 0))

def mul : Float64 → Float64 → Float64
  | .num x, .num y => ofRat (x.val * y.val)
  | .inf negative, .num x => scaleInf negative x
  | .num x, .inf negative => scaleInf negative x
  | .inf negative, .inf negative' => .inf (negative ^^ negative')
  | _, _ => .nan

/-- `x / y` for a `y` that is not zero. -/
def div : Float64 → Float64 → Float64
  | .num x, .num y => ofRat (x.val / y.val)
  | .inf negative, .num x => .inf (negative ^^ decide (x.val < 0))
  | .num _, .inf _ => ofRat 0
  | _, _ => .nan

/-- What `round(x)` and `int(x)` do with what they cannot convert. -/
def toInt (convert : ℚ → ℤ) : Float64 → Except PyExc ℤ
  | .num x => .ok (convert x.val)
  | .inf _ => .error ⟨.overflowError, "cannot convert float infinity to integer"⟩
  | .nan => .error ⟨.valueError, "cannot convert float NaN to integer"⟩

end Float64

instance instPyFloatFloat64 : PyFloat Float64 where
  add := Float64.add
  sub := Float64.sub
  mul := Float64.mul
  div := Float64.div
  lt x y := Float64.lt x y = true
  le x y := Float64.le x y = true
  beq := Float64.eq
  lit := Float64.ofRat
  nan := .nan
  round x n := Float64.round n x
  roundInt := Float64.toInt roundHalfEven
  trunc := Float64.toInt fun q => if 0 ≤ q then q.floor else -(-q).floor
  decLT x y := inferInstanceAs (Decidable (Float64.lt x y = true))
  decLE x y := inferInstanceAs (Decidable (Float64.le x y = true))

/-! ## Before rounding -/

/-- The rationals, where `round` to some digits does nothing. -/
def Unrounded := ℚ

namespace Unrounded

instance : Field Unrounded := inferInstanceAs (Field ℚ)

instance : LinearOrder Unrounded := inferInstanceAs (LinearOrder ℚ)

instance : IsStrictOrderedRing Unrounded := inferInstanceAs (IsStrictOrderedRing ℚ)

instance : PyFloat Unrounded where
  toAdd := inferInstance
  toSub := inferInstance
  toMul := inferInstance
  toDiv := inferInstance
  toLT := inferInstance
  toLE := inferInstance
  toBEq := instBEqOfDecidableEq
  lit q := q
  nan := 0
  round q _ := q
  roundInt := instPyFloatRat.roundInt
  trunc := instPyFloatRat.trunc
  decLT := inferInstance
  decLE := inferInstance

@[simp] theorem lit_eq (q : ℚ) : (PyFloat.lit q : Unrounded) = Rat.cast q := rfl

@[simp] theorem round_eq (q : Unrounded) (n : ℕ) : PyFloat.round q n = q := rfl

end Unrounded

/-! ## `float()` -/

/-- Digits, single underscores between them: their values, and what is behind. -/
def digitRun (u : Unicode) : Bool → Str → List ℕ × Str
  | _, [] => ([], [])
  | afterDigit, c :: cs =>
      match u.decimal c with
      | some d =>
          let (ds, rest) := digitRun u true cs
          (d :: ds, rest)
      | none =>
          if c = '_' ∧ afterDigit = true ∧ cs.head?.any (fun d => (u.decimal d).isSome) = true then
            digitRun u false cs
          else ([], c :: cs)

def digitsValue (ds : List ℕ) : ℕ := ds.foldl (fun acc d => acc * 10 + d) 0

/-- The exponent at the end of a literal. -/
def exponentOf (u : Unicode) : Str → Option ℤ
  | [] => some 0
  | c :: cs =>
      if c = 'e' ∨ c = 'E' then
        let (negative, body) := splitSign cs
        match digitRun u false body with
        | ([], _) => none
        | (ds, []) => some (if negative then -(digitsValue ds : ℤ) else digitsValue ds)
        | _ => none
      else none

/-- The number of a literal without a sign. -/
def decimalOf (u : Unicode) (s : Str) : Option ℚ :=
  let (whole, behind) := digitRun u false s
  let (fraction, rest) := match behind with
    | '.' :: behind => digitRun u false behind
    | behind => ([], behind)
  if whole = [] ∧ fraction = [] then none
  else (exponentOf u rest).map fun e =>
    digitsValue (whole ++ fraction) * (10 : ℚ) ^ (e - (fraction.length : ℤ))

/-- `float(s)`. -/
def pyFloat (u : Unicode) (s : Str) : Except PyExc Float64 :=
  let (negative, body) := splitSign (strip s)
  let name := body.map Char.toLower
  if name = "inf".toList ∨ name = "infinity".toList then .ok (.inf negative)
  else if name = "nan".toList then .ok .nan
  else match decimalOf u body with
    | some q => .ok (Float64.ofRat (if negative then -q else q))
    | none => .error ⟨.valueError, "could not convert string to float"⟩

end CwStation
