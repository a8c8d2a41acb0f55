import CwStation.Model.Floats
import CwStation.Verification.Python.Strings

/-! # Floats that are written and read

A float with four decimals, written and read back, is the float it rounds to, and rounding it
again changes nothing. -/

namespace CwStation

/-! ## Digits with zeros in front -/

theorem isDigit_of_mem_zeroFill {n value : ℕ} {c : Char} (h : c ∈ zeroFill n value) :
    c.isDigit = true := by
  rcases List.mem_append.mp h with hzero | hdigit
  · rw [List.eq_of_mem_replicate hzero]
    rfl
  · exact Nat.isDigit_of_mem_toDigits (by omega) (by omega) hdigit

theorem length_zeroFill {n value : ℕ} (hn : 0 < n) (h : value < 10 ^ n) :
    (zeroFill n value).length = n := by
  have hlen := (Nat.length_toDigits_le_iff (by omega : 1 < 10) hn).mpr h
  rw [zeroFill, List.length_append, List.length_replicate]
  omega

theorem ofDigitChars_zeroFill (n value : ℕ) : Nat.ofDigitChars 10 (zeroFill n value) 0 = value := by
  rw [zeroFill, Nat.ofDigitChars_append, Nat.ofDigitChars_replicate_zero, Nat.mul_zero,
    Nat.ofDigitChars_ten_toDigits]

/-! ## Reading decimals -/

variable (u : Unicode)

def digitValues (s : Str) : List ℕ := s.map fun c => c.toNat - 48

theorem digitsValue_digitValues (s : Str) (acc : ℕ) :
    (digitValues s).foldl (fun acc d => acc * 10 + d) acc = Nat.ofDigitChars 10 s acc := by
  induction s generalizing acc with
  | nil => rfl
  | cons c s ih =>
    rw [digitValues, List.map_cons, List.foldl_cons, Nat.ofDigitChars_cons, Nat.mul_comm 10]
    exact ih _

/-- A text that starts with neither a digit nor an underscore. -/
def Behind (rest : Str) : Prop := ∀ c ∈ rest.head?, u.decimal c = none ∧ c ≠ '_'

variable {u}

theorem digitRun_of_digits {s rest : Str} (hs : ∀ c ∈ s, c.isDigit = true) (hrest : Behind u rest)
    (afterDigit : Bool) : digitRun u afterDigit (s ++ rest) = (digitValues s, rest) := by
  induction s generalizing afterDigit with
  | nil =>
    cases rest with
    | nil => rfl
    | cons c rest =>
      obtain ⟨hnone, hne⟩ := hrest c rfl
      rw [List.nil_append, digitRun, hnone]
      simp only [hne, false_and, if_false]
      rfl
  | cons c s ih =>
    have hc := decimal_of_isDigit u (hs c List.mem_cons_self)
    rw [List.cons_append, digitRun, hc, ih fun d hd => hs d (List.mem_cons_of_mem _ hd)]
    rfl

/-- A literal of digits, a point and digits. -/
theorem decimalOf_point {whole fraction : Str} (hwhole : ∀ c ∈ whole, c.isDigit = true)
    (hne : whole ≠ []) (hfraction : ∀ c ∈ fraction, c.isDigit = true) :
    decimalOf u (whole ++ '.' :: fraction) =
      some ((Nat.ofDigitChars 10 (whole ++ fraction) 0 : ℚ) / 10 ^ fraction.length) := by
  have hpoint : Behind u ('.' :: fraction) := by
    intro c hc
    cases hc
    exact ⟨(u.decimal_ascii '.' (by decide)).trans (by decide), by decide⟩
  have hend : digitRun u false fraction = (digitValues fraction, []) := by
    have hnothing : Behind u [] := by
      intro c hc
      cases hc
    have hrun := digitRun_of_digits hfraction hnothing false
    rwa [List.append_nil] at hrun
  have hvalues : digitValues whole ≠ [] := by simpa [digitValues] using hne
  have hvalue : digitsValue (digitValues whole ++ digitValues fraction) =
      Nat.ofDigitChars 10 (whole ++ fraction) 0 := by
    rw [← digitsValue_digitValues, digitValues, digitValues, digitValues, List.map_append]
    rfl
  have hlength : (digitValues fraction).length = fraction.length := List.length_map _
  rw [decimalOf, digitRun_of_digits hwhole hpoint]
  simp only [hend, hvalues, false_and, if_false, exponentOf, Option.map_some, hvalue, hlength,
    zero_sub, zpow_neg, zpow_natCast, div_eq_mul_inv]

theorem ne_point_of_digit {c : Char} (h : c.isDigit = true) : c ≠ '-' ∧ c ≠ '+' := by
  constructor <;> rintro rfl <;> cases h

/-- `float()` of a plain number with a point. -/
theorem pyFloat_point {whole fraction : Str} (hwhole : ∀ c ∈ whole, c.isDigit = true)
    (hne : whole ≠ []) (hfraction : ∀ c ∈ fraction, c.isDigit = true) :
    pyFloat u (whole ++ '.' :: fraction) = .ok
      (Float64.ofRat ((Nat.ofDigitChars 10 (whole ++ fraction) 0 : ℚ) / 10 ^ fraction.length)) := by
  have hspace : ∀ c ∈ whole ++ '.' :: fraction, isSpace c = false := by
    intro c hc
    rcases List.mem_append.mp hc with hc | hc
    · exact isSpace_of_isDigit (hwhole c hc)
    · rcases List.mem_cons.mp hc with rfl | hc
      · decide
      · exact isSpace_of_isDigit (hfraction c hc)
  have hsign : splitSign (whole ++ '.' :: fraction) = (false, whole ++ '.' :: fraction) := by
    cases whole with
    | nil => exact absurd rfl hne
    | cons c whole =>
      obtain ⟨hminus, hplus⟩ := ne_point_of_digit (hwhole c List.mem_cons_self)
      rw [List.cons_append]
      unfold splitSign
      split
      · rename_i heq
        cases heq
        exact absurd rfl hminus
      · rename_i heq
        cases heq
        exact absurd rfl hplus
      · rfl
  have hnamed : ∀ name : Str, '.' ∉ name → (whole ++ '.' :: fraction).map Char.toLower ≠ name := by
    intro name hname he
    apply hname
    rw [← he, List.map_append, List.map_cons]
    exact List.mem_append_right _ List.mem_cons_self
  rw [pyFloat, strip_of_forall hspace, hsign]
  simp only [hnamed "inf".toList (by decide), hnamed "infinity".toList (by decide),
    hnamed "nan".toList (by decide), or_self, if_false, decimalOf_point hwhole hne hfraction,
    Bool.false_eq_true]

/-! ## Writing and reading -/

theorem roundHalfEven_nonneg {q : ℚ} (h : 0 ≤ q) : 0 ≤ roundHalfEven q := by
  have hround := abs_le.mp (abs_roundHalfEven_sub q)
  have hlow : (-1 : ℚ) < roundHalfEven q := by linarith
  have hlow' : (-1 : ℤ) < roundHalfEven q := by exact_mod_cast hlow
  omega

/-- A float written with some decimals is read as the float it rounds to. -/
theorem pyFloat_fixed {n : ℕ} (hn : 0 < n) {x : Finite64} (hx : 0 ≤ x.val) :
    pyFloat u (Float64.fixed n (.num x)) = .ok (Float64.round n (.num x)) := by
  have hpow : (0 : ℚ) < 10 ^ n := by positivity
  obtain ⟨v, hv⟩ := Int.eq_ofNat_of_zero_le (roundHalfEven_nonneg (mul_nonneg hx hpow.le))
  have hmod : v % 10 ^ n < 10 ^ n := Nat.mod_lt _ (by positivity)
  have hvalue : Nat.ofDigitChars 10 (Nat.toDigits 10 (v / 10 ^ n) ++ zeroFill n (v % 10 ^ n)) 0 =
      v := by
    rw [Nat.ofDigitChars_append, Nat.ofDigitChars_ten_toDigits, Nat.ofDigitChars_eq_ofDigitChars_zero,
      ofDigitChars_zeroFill, length_zeroFill hn hmod, Nat.div_add_mod]
  have htext : Float64.fixed n (.num x) =
      Nat.toDigits 10 (v / 10 ^ n) ++ '.' :: zeroFill n (v % 10 ^ n) := by
    simp only [Float64.fixed, abs_of_nonneg hx, hv, not_lt.mpr hx, if_false]
    rfl
  have hdigits : roundDigits x.val n = (v : ℚ) / 10 ^ n := by
    rw [roundDigits, hv]
    rfl
  rw [htext, pyFloat_point (fun c hc => Nat.isDigit_of_mem_toDigits (by omega) (by omega) hc)
    Nat.toDigits_ne_nil (fun c hc => isDigit_of_mem_zeroFill hc), hvalue,
    length_zeroFill hn hmod, Float64.round, hdigits]

/-! ## Rounding twice -/

theorem roundDigits_intCast (z : ℤ) (n : ℕ) : roundDigits z n = z := by
  have hpow : (10 : ℚ) ^ n ≠ 0 := by positivity
  have hcast : (z : ℚ) * 10 ^ n = ((z * 10 ^ n : ℤ) : ℚ) := by push_cast; rfl
  rw [roundDigits, hcast, roundHalfEven_intCast]
  push_cast
  rw [mul_div_cancel_right₀ _ hpow]

theorem abs_roundDigits_sub (q : ℚ) (n : ℕ) : |roundDigits q n - q| ≤ 1 / 2 / 10 ^ n := by
  have hpow : (0 : ℚ) < 10 ^ n := by positivity
  have hsplit : roundDigits q n - q = (roundHalfEven (q * 10 ^ n) - q * 10 ^ n) / 10 ^ n := by
    rw [roundDigits, sub_div, mul_div_cancel_right₀ _ hpow.ne']
  rw [hsplit, abs_div, abs_of_pos hpow]
  exact div_le_div_of_nonneg_right (abs_roundHalfEven_sub _) hpow.le

theorem abs_nearestFloat_sub (q : ℚ) : |nearestFloat q - q| ≤ 1 / 2 * 2 ^ lastPlace q := by
  have hpos : (0 : ℚ) < 2 ^ lastPlace q := zpow_pos two_pos _
  have hsplit : nearestFloat q - q =
      (roundHalfEven (q / 2 ^ lastPlace q) - q / 2 ^ lastPlace q) * 2 ^ lastPlace q := by
    rw [nearestFloat, sub_mul, div_mul_cancel₀ _ hpos.ne']
  rw [hsplit, abs_mul, abs_of_pos hpos]
  exact mul_le_mul_of_nonneg_right (abs_roundHalfEven_sub _) hpos.le

/-- Where the last place of the float is finer than that of the decimals, these are read off. -/
theorem roundDigits_nearestFloat {q : ℚ} {n : ℕ} {v : ℤ} (hq : q = v / 10 ^ n)
    (hfine : (2 : ℚ) ^ lastPlace q < 1 / 10 ^ n) : roundDigits (nearestFloat q) n = q := by
  have hpow : (0 : ℚ) < 10 ^ n := by positivity
  have hclose : |nearestFloat q * 10 ^ n - v| < 1 / 2 := by
    have hsplit : nearestFloat q * 10 ^ n - v = (nearestFloat q - q) * 10 ^ n := by
      rw [sub_mul, hq, div_mul_cancel₀ _ hpow.ne']
    rw [hsplit, abs_mul, abs_of_pos hpow]
    calc |nearestFloat q - q| * 10 ^ n ≤ 1 / 2 * 2 ^ lastPlace q * 10 ^ n :=
          mul_le_mul_of_nonneg_right (abs_nearestFloat_sub q) hpow.le
      _ < 1 / 2 * (1 / 10 ^ n) * 10 ^ n := by
          apply mul_lt_mul_of_pos_right _ hpow
          linarith
      _ = 1 / 2 := by field_simp
  rw [roundDigits, roundHalfEven_eq hclose, ← hq]

/-- A number within half a place of a float that is no power of two is rounded to it. -/
theorem nearestFloat_near {r e : ℤ} {q : ℚ} (hlow : 2 ^ 52 < r) (hhigh : r < 2 ^ 53)
    (he : -1074 ≤ e) (h : |q - r * 2 ^ e| < 1 / 2 * 2 ^ e) : nearestFloat q = r * 2 ^ e := by
  have hpos : (0 : ℚ) < 2 ^ e := zpow_pos two_pos _
  have hsplit : ∀ k : ℕ, (2 : ℚ) ^ (e + k) = 2 ^ k * 2 ^ e := by
    intro k
    rw [zpow_add₀ two_ne_zero, zpow_natCast, mul_comm]
  have hlow' : (2 ^ 52 + 1 : ℚ) ≤ r := by exact_mod_cast hlow
  have hhigh' : (r : ℚ) ≤ 2 ^ 53 - 1 := by
    have hle : r ≤ 2 ^ 53 - 1 := by omega
    exact_mod_cast hle
  have hq := abs_lt.mp h
  have hbelow : (2 : ℚ) ^ (e + (52 : ℕ)) ≤ q := by
    rw [hsplit]
    nlinarith
  have habove : q < (2 : ℚ) ^ (e + (53 : ℕ)) := by
    rw [hsplit]
    nlinarith
  have hqpos : 0 < q := lt_of_lt_of_le (zpow_pos two_pos _) hbelow
  have hlog : Int.log 2 |q| = e + 52 := by
    rw [abs_of_pos hqpos]
    apply le_antisymm
    · have hlt := (Int.lt_zpow_iff_log_lt one_lt_two hqpos).mp (by exact_mod_cast habove)
      omega
    · exact (Int.zpow_le_iff_le_log one_lt_two hqpos).mp (by exact_mod_cast hbelow)
  have hplace : lastPlace q = e := by
    rw [lastPlace, hlog]
    omega
  have hclose : |q / 2 ^ e - r| < 1 / 2 := by
    have hdiff : q / 2 ^ e - r = (q - r * 2 ^ e) / 2 ^ e := by
      rw [sub_div, mul_div_cancel_right₀ _ hpos.ne']
    rw [hdiff, abs_div, abs_of_pos hpos, div_lt_iff₀ hpos]
    exact h
  rw [nearestFloat, hplace, roundHalfEven_eq hclose]

/-- Where the decimals are finer, the float is an integer or keeps clear of its neighbours. -/
theorem nearestFloat_roundDigits_coarse {q : ℚ} (hq : 0 ≤ q) (he : -13 ≤ lastPlace q) :
    nearestFloat (roundDigits (nearestFloat q) 4) = nearestFloat q := by
  have hpos : (0 : ℚ) < 2 ^ lastPlace q := zpow_pos two_pos _
  obtain ⟨k, hk⟩ := Int.eq_ofNat_of_zero_le (by omega : 0 ≤ lastPlace q + 13)
  have hplace : (2 : ℚ) ^ lastPlace q = 2 ^ k / 2 ^ 13 := by
    rw [eq_div_iff (by norm_num), ← zpow_natCast 2 13, ← zpow_add₀ two_ne_zero]
    exact_mod_cast congrArg ((2 : ℚ) ^ ·) hk
  have hinteger : ∀ z : ℤ, nearestFloat q = z →
      nearestFloat (roundDigits (nearestFloat q) 4) = nearestFloat q := by
    intro z hz
    rw [hz, roundDigits_intCast, ← hz, nearestFloat_idem]
  have hlog : lastPlace q = Int.log 2 |q| - 52 := by
    rw [lastPlace] at he ⊢
    omega
  have hqpos : 0 < q := by
    apply lt_of_le_of_ne hq
    rintro rfl
    rw [abs_zero, Int.log_zero_right] at hlog
    omega
  have hlow : (2 : ℚ) ^ 52 ≤ q / 2 ^ lastPlace q := by
    rw [le_div_iff₀ hpos, ← zpow_natCast 2 52, ← zpow_add₀ two_ne_zero]
    rw [abs_of_pos hqpos] at hlog
    have hexp : ((52 : ℕ) : ℤ) + lastPlace q = Int.log 2 q := by
      push_cast
      omega
    rw [hexp]
    exact_mod_cast Int.zpow_log_le_self one_lt_two hqpos
  have hround := abs_le.mp (abs_roundHalfEven_sub (q / 2 ^ lastPlace q))
  have hmin : 2 ^ 52 ≤ roundHalfEven (q / 2 ^ lastPlace q) := by
    have hlt : ((2 ^ 52 - 1 : ℤ) : ℚ) < roundHalfEven (q / 2 ^ lastPlace q) := by
      push_cast
      linarith
    have hlt' : (2 ^ 52 - 1 : ℤ) < roundHalfEven (q / 2 ^ lastPlace q) := by exact_mod_cast hlt
    omega
  have hmax : roundHalfEven (q / 2 ^ lastPlace q) ≤ 2 ^ 53 := (abs_le.mp (abs_digits_le q)).2
  rcases eq_or_lt_of_le hmin with hfirst | hmin
  · apply hinteger (2 ^ 39 * 2 ^ k)
    rw [nearestFloat, ← hfirst, hplace]
    push_cast
    ring
  rcases eq_or_lt_of_le hmax with hlast | hmax
  · apply hinteger (2 ^ 40 * 2 ^ k)
    rw [nearestFloat, hlast, hplace]
    push_cast
    ring
  · apply nearestFloat_near hmin hmax (by omega)
    have hcoarse : (1 : ℚ) / 2 ^ 13 ≤ 2 ^ lastPlace q := by
      rw [hplace]
      exact div_le_div_of_nonneg_right (one_le_pow₀ one_le_two) (by norm_num)
    calc |roundDigits (nearestFloat q) 4 - nearestFloat q| ≤ 1 / 2 / 10 ^ 4 :=
          abs_roundDigits_sub _ 4
      _ < 1 / 2 * (1 / 2 ^ 13) := by norm_num
      _ ≤ 1 / 2 * 2 ^ lastPlace q := by linarith

/-- Rounding to four decimals twice is rounding once. -/
theorem round_round {x : Float64} (hx : ∀ y, x = .num y → 0 ≤ y.val) :
    Float64.round 4 (Float64.round 4 x) = Float64.round 4 x := by
  cases x with
  | inf | nan => rfl
  | num x =>
    have hpow : (0 : ℚ) < 10 ^ 4 := by norm_num
    have hq : 0 ≤ roundDigits x.val 4 := by
      have hround := roundHalfEven_nonneg (mul_nonneg (hx x rfl) hpow.le)
      exact div_nonneg (by exact_mod_cast hround) hpow.le
    have htwice : nearestFloat (roundDigits (nearestFloat (roundDigits x.val 4)) 4) =
        nearestFloat (roundDigits x.val 4) := by
      by_cases hfine : (2 : ℚ) ^ lastPlace (roundDigits x.val 4) < 1 / 10 ^ 4
      · have hdecimals : roundDigits x.val 4 = roundHalfEven (x.val * 10 ^ 4) / 10 ^ 4 := rfl
        rw [roundDigits_nearestFloat hdecimals hfine]
      · apply nearestFloat_roundDigits_coarse hq
        by_contra hlt
        apply hfine
        calc (2 : ℚ) ^ lastPlace (roundDigits x.val 4) ≤ 2 ^ (-14 : ℤ) :=
              zpow_le_zpow_right₀ one_le_two (by omega)
          _ < 1 / 10 ^ 4 := by norm_num
    rw [Float64.round, Float64.ofRat]
    split
    · rename_i hbound
      simp only [Float64.round, Float64.ofRat, htwice]
      rw [dif_pos hbound]
    · rfl

end CwStation
