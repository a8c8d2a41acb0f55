import CwStation.Model.Synth
import CwStation.Verification.Python.Rounding

/-! # A shaped envelope does not click

Rising and falling ramps are written in two passes over the keying. Where edges are further
apart than a ramp is long, every ramp is there as a whole. -/

namespace CwStation.Keying

open Edges

variable {env : List ℚ} {n : ℕ}

/-! ## The edges that are found -/

theorem mem_indices {q : ℚ → Bool} {xs : List ℚ} {i : ℕ} :
    i ∈ indices q xs ↔ ∃ x, xs[i]? = some x ∧ q x = true := by
  simp only [indices, List.mem_map, List.mem_filter, Prod.exists, List.mem_zipIdx_iff_getElem?]
  constructor
  · rintro ⟨x, _, ⟨hx, hq⟩, rfl⟩
    exact ⟨x, hx, hq⟩
  · rintro ⟨x, hx, hq⟩
    exact ⟨x, i, ⟨hx, hq⟩, rfl⟩

theorem pairwise_indices (q : ℚ → Bool) (xs : List ℚ) : (indices q xs).Pairwise (· < ·) := by
  have hall : (xs.zipIdx.map Prod.snd).Pairwise (· < ·) := by
    rw [List.zipIdx_map_snd]
    exact List.pairwise_lt_range'
  exact hall.sublist (List.filter_sublist.map _)

theorem getElem?_diff {i : ℕ} {d : ℚ} :
    (diff env)[i]? = some d ↔ ∃ x y, env[i]? = some x ∧ env[i + 1]? = some y ∧ d = y - x := by
  rw [diff, List.getElem?_zipWith_eq_some]
  simp only [List.getElem?_tail]
  constructor
  · rintro ⟨x, y, hx, hy, rfl⟩
    exact ⟨x, y, hx, hy, rfl⟩
  · rintro ⟨x, y, hx, hy, rfl⟩
    exact ⟨x, y, hx, hy, rfl⟩

theorem mem_rising {e : ℕ} :
    e ∈ rising env ↔ ∃ i x y, e = i + 1 ∧ env[i]? = some x ∧ env[i + 1]? = some y ∧ x < y := by
  simp only [rising, List.mem_map, mem_indices, getElem?_diff, decide_eq_true_eq]
  constructor
  · rintro ⟨i, ⟨d, ⟨x, y, hx, hy, rfl⟩, hd⟩, rfl⟩
    exact ⟨i, x, y, rfl, hx, hy, sub_pos.mp hd⟩
  · rintro ⟨i, x, y, rfl, hx, hy, hlt⟩
    exact ⟨i, ⟨y - x, ⟨x, y, hx, hy, rfl⟩, sub_pos.mpr hlt⟩, rfl⟩

theorem mem_falling {e : ℕ} :
    e ∈ falling env ↔ ∃ i x y, e = i + 1 ∧ env[i]? = some x ∧ env[i + 1]? = some y ∧ y < x := by
  simp only [falling, List.mem_map, mem_indices, getElem?_diff, decide_eq_true_eq]
  constructor
  · rintro ⟨i, ⟨d, ⟨x, y, hx, hy, rfl⟩, hd⟩, rfl⟩
    exact ⟨i, x, y, rfl, hx, hy, sub_neg.mp hd⟩
  · rintro ⟨i, x, y, rfl, hx, hy, hlt⟩
    exact ⟨i, ⟨y - x, ⟨x, y, hx, hy, rfl⟩, sub_neg.mpr hlt⟩, rfl⟩

theorem edge_of_mem_rising {e : ℕ} (h : e ∈ rising env) : Edge env e := by
  obtain ⟨i, x, y, he, hx, hy, hlt⟩ := mem_rising.1 h
  exact ⟨i, x, y, he, hx, hy, hlt.ne⟩

theorem edge_of_mem_falling {e : ℕ} (h : e ∈ falling env) : Edge env e := by
  obtain ⟨i, x, y, he, hx, hy, hlt⟩ := mem_falling.1 h
  exact ⟨i, x, y, he, hx, hy, hlt.ne'⟩

theorem edge_cases {e : ℕ} (h : Edge env e) : e ∈ rising env ∨ e ∈ falling env := by
  obtain ⟨i, x, y, he, hx, hy, hne⟩ := h
  rcases lt_or_gt_of_ne hne with hlt | hgt
  · exact .inl (mem_rising.2 ⟨i, x, y, he, hx, hy, hlt⟩)
  · exact .inr (mem_falling.2 ⟨i, x, y, he, hx, hy, hgt⟩)

theorem not_rising_of_falling {e : ℕ} (h : e ∈ falling env) : e ∉ rising env := by
  intro hr
  obtain ⟨i, x, y, rfl, hx, hy, hlt⟩ := mem_falling.1 h
  obtain ⟨i', x', y', hi, hx', hy', hlt'⟩ := mem_rising.1 hr
  have hsame : i = i' := by omega
  subst hsame
  rw [hx] at hx'
  rw [hy] at hy'
  cases hx'
  cases hy'
  exact lt_asymm hlt hlt'

theorem pairwise_rising (h : Spaced n env) : (rising env).Pairwise fun e e' => e + n ≤ e' := by
  have hlt : (rising env).Pairwise (· < ·) :=
    (pairwise_indices _ _).map _ fun _ _ h => Nat.add_lt_add_right h 1
  exact hlt.imp_of_mem fun he he' hlt =>
    h.apart _ _ (edge_of_mem_rising he) (edge_of_mem_rising he') hlt

theorem pairwise_falling (h : Spaced n env) : (falling env).Pairwise fun e e' => e + n ≤ e' := by
  have hlt : (falling env).Pairwise (· < ·) :=
    (pairwise_indices _ _).map _ fun _ _ h => Nat.add_lt_add_right h 1
  exact hlt.imp_of_mem fun he he' hlt =>
    h.apart _ _ (edge_of_mem_falling he) (edge_of_mem_falling he') hlt

/-! ## Ramps -/

/-- A ramp from 0 to 1. -/
structure IsRamp (n : ℕ) (ramp : List ℚ) : Prop where
  length : ramp.length = n
  mono : ramp.Pairwise (· ≤ ·)
  first : ramp[0]? = some 0
  last : ramp[n - 1]? = some 1

/-- The largest step of a ramp. -/
def largestStep (ramp : List ℚ) : ℚ := (diff ramp).foldr max 0

theorem le_foldr_max {d : ℚ} {ds : List ℚ} (h : d ∈ ds) : d ≤ ds.foldr max 0 := by
  induction ds with
  | nil => cases h
  | cons d' ds ih =>
    rw [List.foldr_cons]
    rcases List.mem_cons.mp h with rfl | h
    · exact le_max_left _ _
    · exact (ih h).trans (le_max_right _ _)

theorem le_largestStep {ramp : List ℚ} {j : ℕ} {a b : ℚ} (ha : ramp[j]? = some a)
    (hb : ramp[j + 1]? = some b) : b - a ≤ largestStep ramp :=
  le_foldr_max (List.mem_of_getElem? (getElem?_diff.2 ⟨a, b, ha, hb, rfl⟩))

theorem IsRamp.le {ramp : List ℚ} (h : IsRamp n ramp) {i j : ℕ} {a b : ℚ} (ha : ramp[i]? = some a)
    (hb : ramp[j]? = some b) (hij : i ≤ j) : a ≤ b := by
  rcases hij.lt_or_eq with hlt | rfl
  · obtain ⟨hi, rfl⟩ := List.getElem?_eq_some_iff.mp ha
    obtain ⟨hj, rfl⟩ := List.getElem?_eq_some_iff.mp hb
    exact List.pairwise_iff_getElem.mp h.mono i j hi hj hlt
  · rw [ha] at hb
    cases hb
    exact le_refl a

theorem IsRamp.mem_unit {ramp : List ℚ} (h : IsRamp n ramp) : ∀ v ∈ ramp, 0 ≤ v ∧ v ≤ 1 := by
  intro v hv
  obtain ⟨j, hj⟩ := List.mem_iff_getElem?.mp hv
  have hlen := (List.getElem?_eq_some_iff.mp hj).1
  rw [h.length] at hlen
  exact ⟨h.le h.first hj (Nat.zero_le j), h.le hj h.last (by omega)⟩

/-- One sample to the next differs by no more than `s`. -/
def Within (s a b : ℚ) : Prop := |b - a| ≤ s

theorem IsRamp.steps {ramp : List ℚ} (h : IsRamp n ramp) (j : ℕ) (a b : ℚ) (ha : ramp[j]? = some a)
    (hb : ramp[j + 1]? = some b) : Within (largestStep ramp) a b := by
  rw [Within, abs_of_nonneg (sub_nonneg.mpr (h.le ha hb (Nat.le_succ j)))]
  exact le_largestStep ha hb

theorem IsRamp.steps_reverse {ramp : List ℚ} (h : IsRamp n ramp) (j : ℕ) (a b : ℚ)
    (ha : ramp.reverse[j]? = some a) (hb : ramp.reverse[j + 1]? = some b) :
    Within (largestStep ramp) a b := by
  have hlen := (List.getElem?_eq_some_iff.mp hb).1
  rw [List.length_reverse] at hlen
  rw [List.getElem?_reverse (by omega)] at ha hb
  have hplace : ramp.length - 1 - j = ramp.length - 1 - (j + 1) + 1 := by omega
  rw [hplace] at ha
  have hstep := h.steps _ b a hb ha
  rwa [Within, abs_sub_comm] at hstep

/-! ## Both passes -/

/-- Only the two levels of keying. -/
def TwoLevel (env : List ℚ) : Prop := ∀ v ∈ env, v = 0 ∨ v = 1

theorem level_of_rising (h : TwoLevel env) {e : ℕ} (he : e ∈ rising env) :
    env[e - 1]? = some 0 ∧ env[e]? = some 1 := by
  obtain ⟨i, x, y, rfl, hx, hy, hlt⟩ := mem_rising.1 he
  rw [Nat.add_sub_cancel, hx, hy]
  rcases h x (List.mem_of_getElem? hx) with rfl | rfl <;>
    rcases h y (List.mem_of_getElem? hy) with rfl | rfl
  · exact absurd hlt (lt_irrefl _)
  · exact ⟨rfl, rfl⟩
  · norm_num at hlt
  · exact absurd hlt (lt_irrefl _)

theorem level_of_falling (h : TwoLevel env) {e : ℕ} (he : e ∈ falling env) :
    env[e - 1]? = some 1 ∧ env[e]? = some 0 := by
  obtain ⟨i, x, y, rfl, hx, hy, hlt⟩ := mem_falling.1 he
  rw [Nat.add_sub_cancel, hx, hy]
  rcases h x (List.mem_of_getElem? hx) with rfl | rfl <;>
    rcases h y (List.mem_of_getElem? hy) with rfl | rfl
  · exact absurd hlt (lt_irrefl _)
  · norm_num at hlt
  · exact ⟨rfl, rfl⟩
  · exact absurd hlt (lt_irrefl _)

section shape

variable {rampUp : ℕ → List ℚ} (hn : 1 < n) (hramp : IsRamp n (rampUp n)) (hspaced : Spaced n env)

include hn hramp

/-- Away from the edges the keying is unchanged. -/
theorem shapeEdges_plain {p : ℕ} (h : ∀ e, Edge env e → ¬(e ≤ p ∧ p < e + n)) :
    (shapeEdges rampUp env n)[p]? = env[p]? := by
  rw [shapeEdges, if_neg (by omega), foldl_write_of_not_covered, foldl_write_of_not_covered]
  · intro e he
    rw [hramp.length]
    exact h e (edge_of_mem_rising he)
  · intro e he
    rw [List.length_reverse, hramp.length]
    exact h e (edge_of_mem_falling he)

include hspaced

theorem shapeEdges_rising {e j : ℕ} (he : e ∈ rising env) (hj : j < n) :
    (shapeEdges rampUp env n)[e + j]? = (rampUp n)[j]? := by
  have hlate := hspaced.late e (edge_of_mem_rising he)
  rw [shapeEdges, if_neg (by omega), foldl_write_of_not_covered]
  · have hapart : (rising env).Pairwise fun s s' => s + (rampUp n).length ≤ s' := by
      rw [hramp.length]
      exact pairwise_rising hspaced
    rw [foldl_write_of_covered hapart he (by omega) (by rw [hramp.length]; omega) (by omega),
      Nat.add_sub_cancel_left]
  · rw [List.length_reverse, hramp.length]
    rintro f hf ⟨hle, hlt⟩
    rcases lt_trichotomy f e with hfe | rfl | hef
    · have hapart := hspaced.apart f e (edge_of_mem_falling hf) (edge_of_mem_rising he) hfe
      omega
    · exact not_rising_of_falling hf he
    · have hapart := hspaced.apart e f (edge_of_mem_rising he) (edge_of_mem_falling hf) hef
      omega

theorem shapeEdges_falling {e j : ℕ} (he : e ∈ falling env) (hj : j < n) :
    (shapeEdges rampUp env n)[e + j]? = (rampUp n).reverse[j]? := by
  have hlate := hspaced.late e (edge_of_mem_falling he)
  have hapart : (falling env).Pairwise fun s s' => s + (rampUp n).reverse.length ≤ s' := by
    rw [List.length_reverse, hramp.length]
    exact pairwise_falling hspaced
  rw [shapeEdges, if_neg (by omega), foldl_write_of_covered hapart he (by omega)
    (by rw [List.length_reverse, hramp.length]; omega) (by rw [length_foldl_write]; omega),
    Nat.add_sub_cancel_left]

theorem shapeEdges_eased (htwo : TwoLevel env) :
    Eased (Within (largestStep (rampUp n))) n env (shapeEdges rampUp env n) where
  length := by rw [shapeEdges, if_neg (by omega), length_foldl_write, length_foldl_write]
  edge e he := by
    rcases edge_cases he with hr | hf
    · obtain ⟨hbefore, hbehind⟩ := level_of_rising htwo hr
      refine ⟨rampUp n, ⟨hramp.length, ?_, ?_, hramp.steps⟩, fun j hj =>
        shapeEdges_rising hn hramp hspaced hr hj⟩
      · rw [hramp.first, hbefore]
      · rw [hramp.last, hbehind]
    · obtain ⟨hbefore, hbehind⟩ := level_of_falling htwo hf
      have hlen := hramp.length
      refine ⟨(rampUp n).reverse, ⟨by rw [List.length_reverse, hlen], ?_, ?_, hramp.steps_reverse⟩,
        fun j hj => shapeEdges_falling hn hramp hspaced hf hj⟩
      · rw [List.getElem?_reverse (by omega), hlen, Nat.sub_zero, hramp.last, hbefore]
      · rw [List.getElem?_reverse (by omega), hlen, Nat.sub_self, hramp.first, hbehind]
  plain p h := shapeEdges_plain hn hramp h

end shape

/-! ## The speeds of the form -/

section speeds

open PyFloat (lit)

variable {wpm : Float64}

/-- An integer is a float between itself. -/
theorem between_lit {q : ℚ} (h : Bounds q q) : Between q q (lit q) :=
  between_ofRat h (le_refl q) (le_refl q)

theorem bounds_seconds : Bounds (1 / 64) 2 :=
  ⟨by decide +kernel, by decide +kernel, by norm_num, by decide +kernel⟩

theorem between_wpm (hlow : lit 5 ≤ wpm) (hhigh : wpm ≤ lit 60) : Between 5 60 wpm :=
  between_of_le ⟨by decide +kernel, by decide +kernel, by norm_num, by decide +kernel⟩
    ⟨by decide +kernel, by decide +kernel, by norm_num, by decide +kernel⟩ hlow hhigh

theorem ditSeconds_ok (h : Between 5 60 wpm) :
    ∃ unit, ditSeconds wpm = .ok unit ∧ Between (1 / 64) (1 / 2) unit := by
  have hzero := h.isZero (by norm_num)
  have hdit : Between 1 2 (lit (6 / 5)) :=
    between_ofRat ⟨by decide +kernel, by decide +kernel, by norm_num, by decide +kernel⟩
      (by norm_num) (by norm_num)
  refine ⟨lit (6 / 5) / wpm, ?_, ?_⟩
  · rw [ditSeconds, PyFloat.divide, hzero]
    rfl
  · exact hdit.div h ⟨by decide +kernel, by decide +kernel, by norm_num, by decide +kernel⟩
      (by norm_num) (by norm_num) (by norm_num) (by norm_num)

/-- At 8000 Hz nothing that lasts 1/64 s is shorter than 125 samples. -/
theorem nSamples_ok {seconds : Float64} (h : Between (1 / 64) 2 seconds) :
    ∃ k, nSamples 8000 seconds = .ok k ∧ 125 ≤ k := by
  have hrate : Between 8000 8000 (lit ((8000 : ℕ) : ℚ)) :=
    between_lit ⟨by decide +kernel, by decide +kernel, by norm_num, by decide +kernel⟩
  have hproduct : Between ((125 : ℤ) : ℚ) 16000 (seconds * lit ((8000 : ℕ) : ℚ)) :=
    h.mul hrate ⟨by decide +kernel, by decide +kernel, by norm_num, by decide +kernel⟩
      (by norm_num) (by norm_num) (by norm_num) (by norm_num)
  obtain ⟨m, hm, hle⟩ := hproduct.roundInt
  refine ⟨m.toNat, ?_, by omega⟩
  rw [nSamples, hm]
  rfl

theorem nSamples_rise : nSamples 8000 (lit 5 / lit 1000 : Float64) = .ok 40 := by decide +kernel

end speeds

/-! ## No clicks -/

/-- What makes an envelope sound without clicks, with ramps of `n` samples. -/
structure ClickFree (n : ℕ) (ramp : List ℚ) (envelope : Envelope) : Prop where
  length : envelope.shaped.length = envelope.keying.length
  twoLevel : TwoLevel envelope.keying
  unit : ∀ v ∈ envelope.shaped, 0 ≤ v ∧ v ≤ 1
  plain : ∀ p, (∀ e ∈ rising envelope.keying ++ falling envelope.keying, ¬(e ≤ p ∧ p < e + n)) →
    envelope.shaped[p]? = envelope.keying[p]?
  steps : ∀ p a b, envelope.shaped[p]? = some a → envelope.shaped[p + 1]? = some b →
    |b - a| ≤ largestStep ramp
  rises : ∀ e ∈ rising envelope.keying, ∀ j < n, envelope.shaped[e + j]? = ramp[j]?
  falls : ∀ e ∈ falling envelope.keying, ∀ j < n, envelope.shaped[e + j]? = ramp.reverse[j]?

theorem largestStep_nonneg (ramp : List ℚ) : 0 ≤ largestStep ramp := by
  unfold largestStep
  induction diff ramp with
  | nil => exact le_refl 0
  | cons d ds ih => exact ih.trans (le_max_right _ _)

/-- Keying whose edges are apart is shaped without clicks. -/
theorem clickFree_of_spaced {rampUp : ℕ → List ℚ} (hn : 1 < n) (hramp : IsRamp n (rampUp n))
    (hspaced : Spaced n env) (htwo : TwoLevel env) :
    ClickFree n (rampUp n) ⟨env, shapeEdges rampUp env n⟩ where
  length := (shapeEdges_eased hn hramp hspaced htwo).length
  twoLevel := htwo
  unit := by
    have hout : ∀ v ∈ env, 0 ≤ v ∧ v ≤ 1 := by
      intro v hv
      rcases htwo v hv with rfl | rfl <;> norm_num
    dsimp only
    rw [shapeEdges, if_neg (by omega)]
    apply forall_mem_foldl_write
    · exact forall_mem_foldl_write hout hramp.mem_unit
    · intro v hv
      exact hramp.mem_unit v (List.mem_reverse.mp hv)
  plain p h := by
    apply shapeEdges_plain hn hramp
    intro e he
    apply h e
    rw [List.mem_append]
    exact edge_cases he
  steps p a b ha hb := by
    have hrefl : ∀ a, Within (largestStep (rampUp n)) a a := by
      intro a
      rw [Within, sub_self, abs_zero]
      exact largestStep_nonneg _
    exact (shapeEdges_eased hn hramp hspaced htwo).steps hrefl hspaced (by omega) ha hb
  rises e he j hj := shapeEdges_rising hn hramp hspaced he hj
  falls e he j hj := shapeEdges_falling hn hramp hspaced he hj

theorem twoLevel_keying (segments : List (Bool × ℕ)) : TwoLevel (keying segments) := by
  intro v hv
  obtain ⟨run, hrun, hv⟩ := List.mem_flatMap.mp hv
  obtain ⟨⟨state, k⟩, -, rfl⟩ := List.mem_map.mp hrun
  rw [List.eq_of_mem_replicate hv]
  cases state
  · exact .inl rfl
  · exact .inr rfl

theorem spaced_keying {segments : List (Bool × ℕ)} (h : ∀ segment ∈ segments, n ≤ segment.2) :
    Spaced n (keying segments) := by
  apply (spaced_fromRuns _).1
  intro run hrun
  obtain ⟨segment, hsegment, rfl⟩ := List.mem_map.mp hrun
  exact h segment hsegment

/-! ## How long segments are -/

theorem forall_elementSegments {F : Type} [PyFloat F] {P : F → Prop} {unit : F} (hunit : P unit)
    (hdah : P (PyFloat.lit 3 * unit)) (code : Morse.Code) :
    ∀ segment ∈ elementSegments unit code, P segment.2 := by
  have helement : ∀ el, P (elementLength unit el) := by
    intro el
    cases el
    · exact hunit
    · exact hdah
  induction code using elementSegments.induct with
  | case1 => simp [elementSegments]
  | case2 el => simpa [elementSegments] using helement el
  | case3 el els hne ih =>
    intro segment hsegment
    rw [elementSegments] at hsegment
    · rcases List.mem_cons.mp hsegment with rfl | hsegment
      · exact helement el
      · rcases List.mem_cons.mp hsegment with rfl | hsegment
        · exact hunit
        · exact ih segment hsegment
    · exact hne

/-- Every segment lasts one, three or four units, or as long as the lead. -/
theorem forall_segments {F : Type} [PyFloat F] {P : F → Prop} {unit lead : F} (hunit : P unit)
    (hdah : P (PyFloat.lit 3 * unit)) (hgap : P (PyFloat.lit 4 * unit)) (hlead : P lead)
    (symbols : List Morse.Symbol) : ∀ segment ∈ segments unit lead symbols, P segment.2 := by
  intro segment hsegment
  rcases List.mem_cons.mp hsegment with rfl | hsegment
  · exact hlead
  · rcases List.mem_append.mp hsegment with hsegment | hsegment
    · obtain ⟨symbol, -, hsegment⟩ := List.mem_flatMap.mp hsegment
      cases symbol with
      | wordGap =>
        rw [List.mem_singleton.mp hsegment]
        exact hgap
      | code code =>
        rcases List.mem_append.mp hsegment with hsegment | hsegment
        · exact forall_elementSegments hunit hdah code segment hsegment
        · rw [List.mem_singleton.mp hsegment]
          exact hdah
    · rw [List.mem_singleton.mp hsegment]
      exact hlead

theorem countSamples_ok {F : Type} [PyFloat F] {sampleRate m : ℕ} {segments : List (Bool × F)}
    (h : ∀ segment ∈ segments, ∃ k, nSamples sampleRate segment.2 = .ok k ∧ m ≤ k) :
    ∃ counted, countSamples sampleRate segments = .ok counted ∧ ∀ segment ∈ counted, m ≤ segment.2 := by
  induction segments with
  | nil => exact ⟨[], rfl, by simp⟩
  | cons segment segments ih =>
    obtain ⟨k, hk, hm⟩ := h segment List.mem_cons_self
    obtain ⟨counted, hcounted, hall⟩ := ih fun s hs => h s (List.mem_cons_of_mem _ hs)
    refine ⟨(segment.1, k) :: counted, ?_, ?_⟩
    · rw [countSamples, hk]
      change (do return (segment.1, k) :: (← countSamples sampleRate segments)) = _
      rw [hcounted]
      rfl
    · intro s hs
      rcases List.mem_cons.mp hs with rfl | hs
      · exact hm
      · exact hall s hs

/-! ## The form's defaults -/

open PyFloat (lit)

end CwStation.Keying
