import CwStation.Model.Logbook
import CwStation.Verification.Python.Floats

/-! # The times of exported contacts -/

namespace CwStation.Adif

variable (u : Unicode)

/-! ## Dates and times in digits -/

theorem pyInt_zeroFill {n value : ℕ} (hn : 0 < n) (h : value < 10 ^ n) (hlen : n ≤ maxStrDigits) :
    pyInt u (zeroFill n value) = .ok (value : ℤ) := by
  have hlength := length_zeroFill hn h
  have hne : zeroFill n value ≠ [] := by
    rw [← List.length_pos_iff]
    omega
  rw [pyInt_of_digits u (fun c hc => isDigit_of_mem_zeroFill hc) hne (by omega),
    ofDigitChars_zeroFill]

namespace DateTime

variable (w : DateTime)

theorem day_le : w.day ≤ 31 := by
  have hday := w.day_range.2
  unfold daysInMonth at hday
  split_ifs at hday <;> omega

/-- The year has four digits: nothing is filled in. -/
theorem decimalText_year (h : 1000 ≤ w.year) : decimalText w.year = zeroFill 4 w.year := by
  have hlen : ¬ (Nat.toDigits 10 w.year).length ≤ 3 := by
    rw [Nat.length_toDigits_le_iff (by omega) (by omega)]
    omega
  have hfill : 4 - (Nat.toDigits 10 w.year).length = 0 := by omega
  rw [decimalText, zeroFill, hfill]
  rfl

theorem make_eq : make w.year w.month w.day w.hour w.minute w.second = .ok w.toSecond := by
  have hrange : (1 ≤ (w.year : ℤ).toNat ∧ (w.year : ℤ).toNat ≤ 9999) ∧
      (1 ≤ (w.month : ℤ).toNat ∧ (w.month : ℤ).toNat ≤ 12) ∧
      (1 ≤ (w.day : ℤ).toNat ∧
        (w.day : ℤ).toNat ≤ daysInMonth (w.year : ℤ).toNat (w.month : ℤ).toNat) ∧
      (0 ≤ (w.hour : ℤ) ∧ (w.hour : ℤ).toNat < 24) ∧
      (0 ≤ (w.minute : ℤ) ∧ (w.minute : ℤ).toNat < 60) ∧
      (0 ≤ (w.second : ℤ) ∧ (w.second : ℤ).toNat < 60) := by
    simp only [Int.toNat_natCast, Int.natCast_nonneg, true_and]
    exact ⟨w.year_range, w.month_range, w.day_range, w.hour_lt, w.minute_lt, w.second_lt⟩
  rw [make, dif_pos hrange]
  rfl

theorem lengths_dateText (h : 1000 ≤ w.year) : (decimalText w.year).length = 4 ∧
    (zeroFill 2 w.month).length = 2 ∧ (zeroFill 2 w.day).length = 2 := by
  have hyear := w.year_range
  have hmonth := w.month_range
  have hday := w.day_le
  rw [w.decimalText_year h]
  exact ⟨length_zeroFill (by omega) (by omega), length_zeroFill (by omega) (by omega),
    length_zeroFill (by omega) (by omega)⟩

theorem lengths_timeText : (zeroFill 2 w.hour).length = 2 ∧ (zeroFill 2 w.minute).length = 2 ∧
    (zeroFill 2 w.second).length = 2 := by
  have hhour := w.hour_lt
  have hminute := w.minute_lt
  have hsecond := w.second_lt
  exact ⟨length_zeroFill (by omega) (by omega), length_zeroFill (by omega) (by omega),
    length_zeroFill (by omega) (by omega)⟩

theorem isDigit_dateText (h : 1000 ≤ w.year) {c : Char} (hc : c ∈ dateText w) :
    c.isDigit = true := by
  rw [dateText, w.decimalText_year h, List.mem_append, List.mem_append] at hc
  rcases hc with hc | hc | hc <;> exact isDigit_of_mem_zeroFill hc

theorem isDigit_timeText {c : Char} (hc : c ∈ timeText w) : c.isDigit = true := by
  rw [timeText, List.mem_append, List.mem_append] at hc
  rcases hc with hc | hc | hc <;> exact isDigit_of_mem_zeroFill hc

/-- The date and the time of a record are read as they were written, to the second. -/
theorem parseAdifWhen_eq (h : 1000 ≤ w.year) {record : Record}
    (hdate : Record.get record "qso_date".toList [] = dateText w)
    (htime : Record.get record "time_on".toList [] = timeText w) :
    parseAdifWhen u record = some w.toSecond := by
  obtain ⟨hy, hmo, hd⟩ := w.lengths_dateText h
  obtain ⟨hh, hmi, hs⟩ := w.lengths_timeText
  have hdatelen : (dateText w).length = 8 := by
    simp only [dateText, List.length_append]
    omega
  have htimelen : (timeText w).length = 6 := by
    simp only [timeText, List.length_append]
    omega
  have hdigits : (dateText w).all u.isDigit = true := by
    rw [List.all_eq_true]
    intro c hc
    have hdigit := w.isDigit_dateText h hc
    have hrange := toNat_of_isDigit hdigit
    rw [u.isDigit_ascii c (by omega), hdigit]
  have hstrip : strip (dateText w) = dateText w :=
    strip_of_digits fun c hc => w.isDigit_dateText h hc
  have htimeOn : ljust 6 '0' (orElse (strip (timeText w)) "0000".toList) = timeText w := by
    have hne : timeText w ≠ [] := by
      rw [← List.length_pos_iff]
      omega
    rw [strip_of_digits fun c hc => w.isDigit_timeText hc, orElse, if_neg hne, ljust, htimelen]
    exact List.append_nil _
  have hyear : pyInt u ((dateText w).take 4) = .ok (w.year : ℤ) := by
    have hrange := w.year_range
    rw [dateText, List.take_left' hy, w.decimalText_year h]
    exact pyInt_zeroFill u (by omega) (by omega) (by decide)
  have hmonth : pyInt u (((dateText w).drop 4).take 2) = .ok (w.month : ℤ) := by
    have hrange := w.month_range
    rw [dateText, List.drop_left' hy, List.take_left' hmo]
    exact pyInt_zeroFill u (by omega) (by omega) (by decide)
  have hday : pyInt u (((dateText w).drop 6).take 2) = .ok (w.day : ℤ) := by
    have hrange := w.day_le
    have hfront : (decimalText w.year ++ zeroFill 2 w.month).length = 6 := by
      rw [List.length_append, hy, hmo]
    rw [dateText, ← List.append_assoc, List.drop_left' hfront, List.take_of_length_le hd.le]
    exact pyInt_zeroFill u (by omega) (by omega) (by decide)
  have hhour : pyInt u ((timeText w).take 2) = .ok (w.hour : ℤ) := by
    have hrange := w.hour_lt
    rw [timeText, List.take_left' hh]
    exact pyInt_zeroFill u (by omega) (by omega) (by decide)
  have hminute : pyInt u (((timeText w).drop 2).take 2) = .ok (w.minute : ℤ) := by
    have hrange := w.minute_lt
    rw [timeText, List.drop_left' hh, List.take_left' hmi]
    exact pyInt_zeroFill u (by omega) (by omega) (by decide)
  have hsecond : pyInt u (((timeText w).drop 4).take 2) = .ok (w.second : ℤ) := by
    have hrange := w.second_lt
    have hfront : (zeroFill 2 w.hour ++ zeroFill 2 w.minute).length = 4 := by
      rw [List.length_append, hh, hmi]
    rw [timeText, ← List.append_assoc, List.drop_left' hfront, List.take_of_length_le hs.le]
    exact pyInt_zeroFill u (by omega) (by omega) (by decide)
  have hbad : ¬ ((dateText w).length ≠ 8 ∨ ¬ (dateText w).all u.isDigit = true) := by
    rw [hdatelen, hdigits]
    decide
  rw [parseAdifWhen]
  simp only [hdate, htime, hstrip, htimeOn, if_neg hbad, hyear, hmonth, hday, hhour, hminute,
    hsecond]
  exact congrArg Except.toOption w.make_eq

/-! ## Minutes -/

/-- The last minute a `datetime` can hold. -/
def IsLastMinute : Prop :=
  w.year = 9999 ∧ w.month = 12 ∧ w.day = 31 ∧ w.hour = 23 ∧ w.minute = 59

variable {w}

theorem addMinute_of_isLastMinute (h : w.IsLastMinute) :
    w.addMinute = .error ⟨.overflowError, "date value out of range"⟩ := by
  obtain ⟨hy, hmo, hd, hh, hmi⟩ := h
  have hdays : daysInMonth w.year w.month = 31 := by
    rw [hmo]
    rfl
  rw [addMinute, dif_neg (by omega), dif_neg (by omega), dif_neg (by omega), dif_neg (by omega),
    dif_neg (by omega)]

/-- After the last day of a month every later time lies in a later month. -/
theorem later_month {v : DateTime} (hday : ¬ w.day + 1 ≤ daysInMonth w.year w.month)
    (hhour : ¬ w.hour + 1 < 24) (hminute : ¬ w.minute + 1 < 60) (hv : w.minutes < v.minutes) :
    w.year < v.year ∨ w.year = v.year ∧ w.month < v.month := by
  have hvday := v.day_range
  have hvhour := v.hour_lt
  have hvminute := v.minute_lt
  have hvmonth := v.month_range
  have hvbound := v.day_le
  have hmonth := w.month_range
  simp only [minutes] at hv
  by_cases hsame : v.year = w.year ∧ v.month = w.month
  · rw [hsame.1, hsame.2] at hvday hv
    omega
  · omega

/-- The next minute: no other one lies between. -/
theorem addMinute_of_not_isLastMinute (h : ¬ w.IsLastMinute) :
    ∃ hi, w.addMinute = .ok hi ∧ hi.second = w.second ∧ hi.microsecond = w.microsecond ∧
      w.minutes < hi.minutes ∧ ∀ v : DateTime, w.minutes < v.minutes → hi.minutes ≤ v.minutes := by
  have hday := w.day_le
  have hhours := w.hour_lt
  have hminutes := w.minute_lt
  have hmonth := w.month_range
  have hbefore : ∀ v : DateTime, 1 ≤ v.month ∧ 1 ≤ v.day := fun v => ⟨v.month_range.1, v.day_range.1⟩
  have hafter : ∀ v : DateTime, v.month ≤ 12 ∧ v.day ≤ 31 ∧ v.hour < 24 ∧ v.minute < 60 :=
    fun v => ⟨v.month_range.2, v.day_le, v.hour_lt, v.minute_lt⟩
  unfold addMinute
  by_cases hminute : w.minute + 1 < 60
  · refine ⟨_, dif_pos hminute, rfl, rfl, ?_, ?_⟩
    · simp only [minutes]
      omega
    · intro v hv
      simp only [minutes] at hv ⊢
      omega
  rw [dif_neg hminute]
  by_cases hhour : w.hour + 1 < 24
  · refine ⟨_, dif_pos hhour, rfl, rfl, ?_, ?_⟩
    · simp only [minutes]
      omega
    · intro v hv
      have hvafter := hafter v
      simp only [minutes] at hv ⊢
      omega
  rw [dif_neg hhour]
  by_cases hlast : w.day + 1 ≤ daysInMonth w.year w.month
  · refine ⟨_, dif_pos hlast, rfl, rfl, ?_, ?_⟩
    · simp only [minutes]
      omega
    · intro v hv
      have hvafter := hafter v
      simp only [minutes] at hv ⊢
      omega
  rw [dif_neg hlast]
  by_cases hdecember : w.month + 1 ≤ 12
  · refine ⟨_, dif_pos hdecember, rfl, rfl, ?_, ?_⟩
    · simp only [minutes]
      omega
    · intro v hv
      have hlater := later_month hlast hhour hminute hv
      have hvbefore := hbefore v
      simp only [minutes]
      omega
  rw [dif_neg hdecember]
  by_cases hyear : w.year + 1 ≤ 9999
  · refine ⟨_, dif_pos hyear, rfl, rfl, ?_, ?_⟩
    · simp only [minutes]
      omega
    · intro v hv
      have hlater := later_month hlast hhour hminute hv
      have hvbefore := hbefore v
      have hvafter := hafter v
      simp only [minutes]
      omega
  -- December of 9999: its last day is over in a minute
  exfalso
  have hdays : daysInMonth w.year w.month = 31 := by
    have hmonth12 : w.month = 12 := by omega
    rw [hmonth12]
    rfl
  have hyears := w.year_range
  exact h ⟨by omega, by omega, by omega, by omega, by omega⟩

/-- The window of a minute holds the times in that minute. -/
theorem in_window_iff {lo hi : DateTime} (hlo : lo.addMinute = .ok hi) (hsecond : lo.second = 0)
    (hmicrosecond : lo.microsecond = 0) (v : DateTime) :
    (lo.rank ≤ v.rank ∧ v.rank < hi.rank) ↔ v.minutes = lo.minutes := by
  have hnot : ¬ lo.IsLastMinute := by
    intro hlast
    rw [addMinute_of_isLastMinute hlast] at hlo
    cases hlo
  obtain ⟨hi', hhi, hsecond', hmicrosecond', hlt, hnext⟩ := addMinute_of_not_isLastMinute hnot
  obtain rfl : hi' = hi := by
    rw [hhi] at hlo
    exact Except.ok.inj hlo
  have hvsecond := v.second_lt
  have hvmicrosecond := v.microsecond_lt
  have hv := hnext v
  simp only [rank]
  omega

end DateTime

end CwStation.Adif
