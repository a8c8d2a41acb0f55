import Mathlib.Algebra.Order.Field.Basic
import Mathlib.Tactic.Linarith
import Mathlib.Tactic.Ring

/-! # Following a level

An average follows a level at a rate. A tracker follows it at once on one side, and at a rate on
the other, so that two of them enclose it. -/

namespace CwStation.Trackers

variable {K : Type*} [Field K] [LinearOrder K] [IsStrictOrderedRing K] {rate old e g ε peak floor : K}

def smooth (rate old e : K) : K := old + rate * (e - old)

/-- A rise is followed at once. -/
def above (rate old e : K) : K := if old < e then e else smooth rate old e

/-- A fall is followed at once. -/
def below (rate old e : K) : K := if e < old then e else smooth rate old e

/-! ## Bounds -/

theorem le_above (h : rate ≤ 1) : e ≤ above rate old e := by
  unfold above smooth
  split
  · exact le_rfl
  · nlinarith

theorem below_le (h : rate ≤ 1) : below rate old e ≤ e := by
  unfold below smooth
  split
  · exact le_rfl
  · nlinarith

theorem smooth_nonneg (hrate : 0 ≤ rate ∧ rate ≤ 1) (hold : 0 ≤ old) (he : 0 ≤ e) :
    0 ≤ smooth rate old e := by
  have hsplit : smooth rate old e = (1 - rate) * old + rate * e := by
    unfold smooth
    ring
  rw [hsplit]
  exact add_nonneg (mul_nonneg (sub_nonneg.mpr hrate.2) hold) (mul_nonneg hrate.1 he)

theorem below_nonneg (hrate : 0 ≤ rate ∧ rate ≤ 1) (hold : 0 ≤ old) (he : 0 ≤ e) :
    0 ≤ below rate old e := by
  unfold below
  split
  · exact he
  · exact smooth_nonneg hrate hold he

/-- The place of a level between its trackers. -/
theorem share_mem (hε : 0 < ε) (hfloor : floor ≤ e) (hpeak : e ≤ peak) :
    0 ≤ (e - floor) / max (peak - floor) ε ∧ (e - floor) / max (peak - floor) ε ≤ 1 := by
  have hpos : 0 < max (peak - floor) ε := lt_max_of_lt_right hε
  have hle : e - floor ≤ max (peak - floor) ε := (sub_le_sub_right hpeak floor).trans (le_max_left _ _)
  exact ⟨div_nonneg (sub_nonneg.mpr hfloor) hpos.le, (div_le_one hpos).mpr hle⟩

/-! ## Under a gain -/

omit [LinearOrder K] [IsStrictOrderedRing K] in
theorem smooth_mul : smooth rate (g * old) (g * e) = g * smooth rate old e := by
  unfold smooth
  ring

theorem above_mul (hg : 0 < g) : above rate (g * old) (g * e) = g * above rate old e := by
  unfold above
  rw [smooth_mul, mul_ite]
  exact if_congr (mul_lt_mul_iff_right₀ hg) rfl rfl

theorem below_mul (hg : 0 < g) : below rate (g * old) (g * e) = g * below rate old e := by
  unfold below
  rw [smooth_mul, mul_ite]
  exact if_congr (mul_lt_mul_iff_right₀ hg) rfl rfl

/-! ## Thresholds under a gain

The distance of the trackers counts as `ε` at least. A gain does not matter to what is measured
with it while the trackers are together or no closer than that. -/

/-- The trackers are together, or `ε` apart. -/
def Clear (ε peak floor : K) : Prop := peak - floor = 0 ∨ ε ≤ peak - floor

theorem range_mul (hg : 0 < g) (hε : 0 < ε) (h : Clear ε peak floor)
    (h' : Clear ε (g * peak) (g * floor)) :
    peak = floor ∨ max (g * peak - g * floor) ε = g * max (peak - floor) ε := by
  rcases h with htogether | hapart
  · exact .inl (sub_eq_zero.mp htogether)
  · right
    have hpos : 0 < g * peak - g * floor := by
      rw [← mul_sub]
      exact mul_pos hg (hε.trans_le hapart)
    have hapart' := h'.resolve_left hpos.ne'
    rw [max_eq_left hapart, max_eq_left hapart', mul_sub]

variable {s : K} (hg : 0 < g) (hε : 0 < ε) (h : Clear ε peak floor)
  (h' : Clear ε (g * peak) (g * floor)) (hfloor : floor ≤ e) (hpeak : e ≤ peak)

include hg hε h h' hfloor hpeak

theorem threshold_lt_mul : g * floor + s * max (g * peak - g * floor) ε < g * e ↔
    floor + s * max (peak - floor) ε < e := by
  rcases range_mul hg hε h h' with htogether | hscaled
  · obtain rfl : e = floor := le_antisymm (htogether ▸ hpeak) hfloor
    rw [htogether, sub_self, sub_self, add_lt_iff_neg_left, add_lt_iff_neg_left]
  · rw [hscaled, mul_left_comm s g, ← mul_add, mul_lt_mul_iff_right₀ hg]

theorem lt_threshold_mul : g * e < g * floor + s * max (g * peak - g * floor) ε ↔
    e < floor + s * max (peak - floor) ε := by
  rcases range_mul hg hε h h' with htogether | hscaled
  · obtain rfl : e = floor := le_antisymm (htogether ▸ hpeak) hfloor
    rw [htogether, sub_self, sub_self, lt_add_iff_pos_right, lt_add_iff_pos_right]
  · rw [hscaled, mul_left_comm s g, ← mul_add, mul_lt_mul_iff_right₀ hg]

theorem share_mul : (g * e - g * floor) / max (g * peak - g * floor) ε =
    (e - floor) / max (peak - floor) ε := by
  rcases range_mul hg hε h h' with htogether | hscaled
  · obtain rfl : e = floor := le_antisymm (htogether ▸ hpeak) hfloor
    rw [sub_self, sub_self, zero_div, zero_div]
  · rw [hscaled, ← mul_sub, mul_div_mul_left _ _ hg.ne']

end CwStation.Trackers
