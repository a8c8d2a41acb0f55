import CwStation.Library.Greedy
import CwStation.Model.Floats
import CwStation.Model.Radio

/-! # The stations of a sweep

In exact arithmetic: the stations are the snapped peaks, on the raster, and what is left out is
close to a stronger one. -/

namespace CwStation.Radio

open PyFloat (lit)

/-! ## Peaks -/

/-- An interior bin that is no lower than the two beside it. -/
def IsPeak (bins : List (ℚ × ℚ)) (c : ℚ × ℚ) : Prop :=
  ∃ front before after back, bins = front ++ before :: c :: after :: back ∧
    before.2 ≤ c.2 ∧ after.2 ≤ c.2

/-- The median floor. -/
def floorDb (bins : List (ℚ × ℚ)) : ℚ :=
  Median.median (fun a b => (a + b) / lit 2) PyFloat.nan (bins.map Prod.snd)

/-- A peak that clears the threshold. -/
structure Strong (bins : List (ℚ × ℚ)) (thresholdDb : ℚ) (c : ℚ × ℚ) : Prop where
  peak : IsPeak bins c
  clears : thresholdDb ≤ c.2 - floorDb bins

theorem isPeak_cons {b : ℚ × ℚ} {bins : List (ℚ × ℚ)} {c : ℚ × ℚ} :
    IsPeak (b :: bins) c ↔
      (∃ after back, bins = c :: after :: back ∧ b.2 ≤ c.2 ∧ after.2 ≤ c.2) ∨ IsPeak bins c := by
  constructor
  · rintro ⟨front, before, after, back, hsplit, hbefore, hafter⟩
    cases front with
    | nil =>
      obtain ⟨rfl, rfl⟩ := List.cons_eq_cons.mp hsplit
      exact .inl ⟨after, back, rfl, hbefore, hafter⟩
    | cons x front =>
      obtain ⟨rfl, rfl⟩ := List.cons_eq_cons.mp hsplit
      exact .inr ⟨front, before, after, back, rfl, hbefore, hafter⟩
  · rintro (⟨after, back, rfl, hbefore, hafter⟩ | ⟨front, before, after, back, rfl, hbefore, hafter⟩)
    · exact ⟨[], b, after, back, rfl, hbefore, hafter⟩
    · exact ⟨b :: front, before, after, back, rfl, hbefore, hafter⟩

theorem IsPeak.length_le {bins : List (ℚ × ℚ)} {c : ℚ × ℚ} (h : IsPeak bins c) : 3 ≤ bins.length := by
  obtain ⟨front, before, after, back, rfl, -⟩ := h
  simp only [List.length_append, List.length_cons]
  omega

theorem mem_candidates {thresholdDb floor : ℚ} {bins : List (ℚ × ℚ)} {snr mhz : ℚ} :
    (snr, mhz) ∈ candidates thresholdDb floor bins ↔
      ∃ db, IsPeak bins (mhz, db) ∧ thresholdDb ≤ db - floor ∧ snr = db - floor := by
  have hshort : ∀ l : List (ℚ × ℚ), l.length < 3 → candidates thresholdDb floor l = [] →
      ((snr, mhz) ∈ candidates thresholdDb floor l ↔
        ∃ db, IsPeak l (mhz, db) ∧ thresholdDb ≤ db - floor ∧ snr = db - floor) := by
    intro l hlen hnil
    rw [hnil]
    constructor
    · intro h
      cases h
    · rintro ⟨db, hpeak, -⟩
      exact absurd hpeak.length_le (not_le.mpr hlen)
  induction bins with
  | nil => exact hshort [] (by decide) rfl
  | cons before bins ih =>
    cases bins with
    | nil => exact hshort [before] (by simp) rfl
    | cons c bins =>
      cases bins with
      | nil => exact hshort [before, c] (by simp) rfl
      | cons after bins =>
        obtain ⟨m, d⟩ := c
        have hhead : (∃ db, (∃ after' back, (m, d) :: after :: bins = (mhz, db) :: after' :: back ∧
              before.2 ≤ db ∧ after'.2 ≤ db) ∧ thresholdDb ≤ db - floor ∧ snr = db - floor) ↔
            (before.2 ≤ d ∧ after.2 ≤ d) ∧ thresholdDb ≤ d - floor ∧ (snr, mhz) = (d - floor, m) := by
          constructor
          · rintro ⟨db, ⟨after', back, hsplit, hbefore, hafter⟩, hclears, rfl⟩
            simp only [List.cons.injEq, Prod.mk.injEq] at hsplit
            obtain ⟨⟨rfl, rfl⟩, rfl, rfl⟩ := hsplit
            exact ⟨⟨hbefore, hafter⟩, hclears, rfl⟩
          · rintro ⟨⟨hbefore, hafter⟩, hclears, heq⟩
            obtain ⟨rfl, rfl⟩ := Prod.mk.inj heq
            exact ⟨d, ⟨after, bins, rfl, hbefore, hafter⟩, hclears, rfl⟩
        have hrest : (snr, mhz) ∈ candidates thresholdDb floor ((m, d) :: after :: bins) ↔
            ∃ db, IsPeak ((m, d) :: after :: bins) (mhz, db) ∧ thresholdDb ≤ db - floor ∧
              snr = db - floor := ih
        have hsplit : (∃ db, IsPeak (before :: (m, d) :: after :: bins) (mhz, db) ∧
              thresholdDb ≤ db - floor ∧ snr = db - floor) ↔
            ((before.2 ≤ d ∧ after.2 ≤ d) ∧ thresholdDb ≤ d - floor ∧
              (snr, mhz) = (d - floor, m)) ∨
            (snr, mhz) ∈ candidates thresholdDb floor ((m, d) :: after :: bins) := by
          rw [hrest, ← hhead, ← exists_or]
          simp only [isPeak_cons (b := before), or_and_right]
        rw [hsplit, candidates]
        by_cases hlow : d - floor < thresholdDb
        · rw [if_pos hlow]
          have hnot : ¬thresholdDb ≤ d - floor := not_le.mpr hlow
          simp only [hnot, false_and, and_false, false_or]
        · rw [if_neg hlow]
          have hclears : thresholdDb ≤ d - floor := not_lt.mp hlow
          by_cases hpeak : before.2 ≤ d ∧ after.2 ≤ d
          · rw [if_pos (by simpa using hpeak), List.mem_cons]
            simp only [hpeak, hclears, true_and]
          · rw [if_neg (by simpa using hpeak)]
            simp only [hpeak, false_and, false_or]

/-! ## Snapping -/

/-- The channel of a frequency. -/
def snap (band : RadioBand ℚ) (mhz : ℚ) : ℚ :=
  roundDigits (roundHalfEven (mhz / band.step) * band.step) band.decimals

/-- What is kept of a candidate. -/
def station (band : RadioBand ℚ) (c : ℚ × ℚ) : ℚ × ℚ := (snap band c.2, roundDigits c.1 1)

/-- A candidate is closer to a kept station than the separation. -/
def near (band : RadioBand ℚ) (c k : ℚ × ℚ) : Bool :=
  PyFloat.abs (c.2 - k.1) < band.seekSeparationMhz

theorem keepStations_eq (band : RadioBand ℚ) (kept cs : List (ℚ × ℚ)) :
    keepStations band kept cs = .ok (Greedy.keep (near band) (station band) kept cs) := by
  induction cs generalizing kept with
  | nil => rfl
  | cons c cs ih =>
    obtain ⟨snr, mhz⟩ := c
    by_cases hnear : kept.any (near band (snr, mhz)) = true
    · rw [Greedy.keep_cons_of_close hnear, ← ih kept]
      exact if_pos hnear
    · rw [Greedy.keep_cons_of_not_close hnear, ← ih (kept ++ [station band (snr, mhz)])]
      exact if_neg hnear

theorem pyAbs_eq (q : ℚ) : PyFloat.abs q = |q| := by
  unfold PyFloat.abs
  rw [lit_rat]
  by_cases h : q < 0
  · rw [if_pos h, abs_of_neg h, zero_sub]
  · rw [if_neg h, abs_of_nonneg (not_lt.mp h)]

theorem near_iff {band : RadioBand ℚ} {c k : ℚ × ℚ} :
    near band c k = true ↔ |c.2 - k.1| < band.seekSeparationMhz := by
  rw [near, decide_eq_true_eq, pyAbs_eq]

/-- A raster whose channels have few enough digits, and whose ends are channels; a station
snaps by less than the separation. -/
structure Raster (band : RadioBand ℚ) : Prop where
  step_pos : 0 < band.step
  digits : ∃ m : ℤ, band.step * 10 ^ band.decimals = m
  low : ∃ n : ℤ, band.low = n * band.step
  high : ∃ n : ℤ, band.high = n * band.step
  fine : band.step / 2 < band.seekSeparationMhz

theorem raster_of_mem {band : RadioBand ℚ} (h : band ∈ (radioBands : List (RadioBand ℚ))) :
    Raster band := by
  rw [radioBands, List.mem_cons, List.mem_singleton] at h
  rcases h with rfl | rfl
  · exact ⟨by norm_num, ⟨1, by norm_num⟩, ⟨880, by norm_num⟩, ⟨1080, by norm_num⟩, by norm_num⟩
  · exact ⟨by norm_num, ⟨25, by norm_num⟩, ⟨4720, by norm_num⟩, ⟨5480, by norm_num⟩, by norm_num⟩

section Raster

variable {band : RadioBand ℚ} (hr : Raster band)

include hr

theorem snap_eq (mhz : ℚ) : snap band mhz = roundHalfEven (mhz / band.step) * band.step := by
  obtain ⟨m, hm⟩ := hr.digits
  have hpos : (0 : ℚ) < 10 ^ band.decimals := by positivity
  have hscaled : roundHalfEven (mhz / band.step) * band.step * 10 ^ band.decimals =
      ((roundHalfEven (mhz / band.step) * m : ℤ) : ℚ) := by
    rw [mul_assoc, hm]
    push_cast
    rfl
  rw [snap, roundDigits, hscaled, roundHalfEven_intCast, ← hscaled, mul_div_assoc, div_self hpos.ne',
    mul_one]

theorem abs_snap_sub (mhz : ℚ) : |snap band mhz - mhz| ≤ band.step / 2 := by
  have hpos := hr.step_pos
  have hsplit : snap band mhz - mhz =
      (roundHalfEven (mhz / band.step) - mhz / band.step) * band.step := by
    rw [snap_eq hr, sub_mul, div_mul_cancel₀ _ hpos.ne']
  rw [hsplit, abs_mul, abs_of_pos hpos]
  have hhalf := abs_roundHalfEven_sub (mhz / band.step)
  linarith [mul_le_mul_of_nonneg_right hhalf hpos.le]

theorem snap_mem {mhz : ℚ} (hlow : band.low ≤ mhz) (hhigh : mhz ≤ band.high) :
    band.low ≤ snap band mhz ∧ snap band mhz ≤ band.high := by
  have hpos := hr.step_pos
  obtain ⟨l, hl⟩ := hr.low
  obtain ⟨h, hh⟩ := hr.high
  have hhalf := abs_le.mp (abs_roundHalfEven_sub (mhz / band.step))
  rw [snap_eq hr]
  constructor
  · rw [hl] at hlow ⊢
    have hle : (l : ℚ) ≤ mhz / band.step := (le_div_iff₀ hpos).mpr hlow
    have hlt : ((l - 1 : ℤ) : ℚ) < roundHalfEven (mhz / band.step) := by
      push_cast
      linarith [hhalf.1]
    have hint : l ≤ roundHalfEven (mhz / band.step) := by
      have := Int.cast_lt.mp hlt
      omega
    exact mul_le_mul_of_nonneg_right (by exact_mod_cast hint) hpos.le
  · rw [hh] at hhigh ⊢
    have hle : mhz / band.step ≤ h := (div_le_iff₀ hpos).mpr hhigh
    have hlt : (roundHalfEven (mhz / band.step) : ℚ) < ((h + 1 : ℤ) : ℚ) := by
      push_cast
      linarith [hhalf.2]
    have hint : roundHalfEven (mhz / band.step) ≤ h := by
      have := Int.cast_lt.mp hlt
      omega
    exact mul_le_mul_of_nonneg_right (by exact_mod_cast hint) hpos.le

/-- Stations that are not near each other are on different channels. -/
theorem snap_ne {mhz k : ℚ} (h : ¬|mhz - k| < band.seekSeparationMhz) : snap band mhz ≠ k := by
  rintro rfl
  have hsnap := abs_snap_sub hr mhz
  rw [abs_sub_comm] at hsnap
  exact h (hsnap.trans_lt hr.fine)

end Raster

/-! ## Sorting -/

theorem pairLt_iff {a b : ℚ × ℚ} : pairLt a b = true ↔ a.1 < b.1 ∨ a.1 = b.1 ∧ a.2 < b.2 := by
  unfold pairLt
  by_cases h : a.1 = b.1
  · simp [h]
  · simp [h]

theorem pairLt_order : (∀ a b c : ℚ × ℚ, pairLt b a = false → pairLt c b = false → pairLt c a = false) ∧
    ∀ a b : ℚ × ℚ, pairLt b a = false ∨ pairLt a b = false := by
  simp only [← Bool.not_eq_true, pairLt_iff]
  constructor
  · rintro a b c hab hbc (hlt | ⟨heq, hlt⟩)
    · rcases lt_trichotomy b.1 a.1 with hba | hba | hba
      · exact hab (.inl hba)
      · exact hbc (.inl (hba ▸ hlt))
      · exact hbc (.inl (hlt.trans hba))
    · rcases lt_trichotomy b.1 a.1 with hba | hba | hba
      · exact hab (.inl hba)
      · rcases lt_or_ge b.2 a.2 with hlt' | hge
        · exact hab (.inr ⟨hba, hlt'⟩)
        · exact hbc (.inr ⟨heq.trans hba.symm, hlt.trans_le hge⟩)
      · exact hbc (.inl (heq ▸ hba))
  · intro a b
    by_contra hboth
    rw [not_or, not_not, not_not] at hboth
    rcases hboth with ⟨hba | ⟨heq, hlt⟩, hab | ⟨heq', hlt'⟩⟩
    · exact lt_asymm hba hab
    · exact hba.ne heq'.symm
    · exact hab.ne heq.symm
    · exact lt_asymm hlt hlt'

theorem pairwise_sortPairs (l : List (ℚ × ℚ)) :
    (sortPairs l).Pairwise fun a b => pairLt b a = false := by
  have hsorted := @List.pairwise_mergeSort _ (fun a b : ℚ × ℚ => !pairLt b a)
    (fun a b c => by simpa using pairLt_order.1 a b c) (fun a b => by simpa using pairLt_order.2 a b) l
  exact hsorted.imp fun hle => by simpa using hle

theorem pairwise_sortPairsReverse (l : List (ℚ × ℚ)) :
    (sortPairsReverse l).Pairwise fun a b => b.1 ≤ a.1 := by
  have hsorted := @List.pairwise_mergeSort _ (fun a b : ℚ × ℚ => !pairLt a b)
    (fun a b c => by simpa using fun hab hbc => pairLt_order.1 c b a hbc hab)
    (fun a b => by simpa using pairLt_order.2 b a) l
  refine hsorted.imp fun {a b} hle => ?_
  have hnot : ¬pairLt a b = true := by simpa using hle
  rw [pairLt_iff, not_or] at hnot
  exact not_lt.mp hnot.1

/-! ## What a sweep finds -/

section sweep

variable {band : RadioBand ℚ} {bins : List (ℚ × ℚ)} {thresholdDb : ℚ}

/-- What is kept, before it is sorted. -/
def keptStations (band : RadioBand ℚ) (bins : List (ℚ × ℚ)) (thresholdDb : ℚ) : List (ℚ × ℚ) :=
  Greedy.keep (near band) (station band) []
    (sortPairsReverse (candidates thresholdDb (floorDb bins) bins))

theorem findStations_eq (h : 8 ≤ bins.length) :
    findStations bins band thresholdDb = .ok (sortPairs (keptStations band bins thresholdDb)) := by
  have hkeep := keepStations_eq band []
    (sortPairsReverse (candidates thresholdDb (floorDb bins) bins))
  have hfind : findStations bins band thresholdDb =
      (keepStations band [] (sortPairsReverse (candidates thresholdDb (floorDb bins) bins))).map
        sortPairs := by
    rw [findStations, if_neg (not_lt.mpr h)]
    rfl
  rw [hfind, hkeep]
  rfl

theorem findStations_short (h : bins.length < 8) : findStations bins band thresholdDb = .ok [] := by
  rw [findStations, if_pos h]
  rfl

theorem mem_candidates_strong {c : ℚ × ℚ} :
    c ∈ sortPairsReverse (candidates thresholdDb (floorDb bins) bins) ↔
      ∃ db, Strong bins thresholdDb (c.2, db) ∧ c.1 = db - floorDb bins := by
  obtain ⟨snr, mhz⟩ := c
  rw [sortPairsReverse, List.mem_mergeSort, mem_candidates]
  constructor
  · rintro ⟨db, hpeak, hclears, hsnr⟩
    exact ⟨db, ⟨hpeak, hclears⟩, hsnr⟩
  · rintro ⟨db, ⟨hpeak, hclears⟩, hsnr⟩
    exact ⟨db, hpeak, hclears, hsnr⟩

/-- The station of a peak. -/
def stationOf (band : RadioBand ℚ) (bins : List (ℚ × ℚ)) (c : ℚ × ℚ) : ℚ × ℚ :=
  station band (c.2 - floorDb bins, c.1)

/-- Every station kept comes from a strong peak. -/
theorem exists_strong {s : ℚ × ℚ} (h : s ∈ keptStations band bins thresholdDb) :
    ∃ c, Strong bins thresholdDb c ∧ s = stationOf band bins c := by
  rcases Greedy.exists_of_mem_keep h with hnil | ⟨c, hc, rfl⟩
  · cases hnil
  · obtain ⟨db, hstrong, hsnr⟩ := mem_candidates_strong.mp hc
    refine ⟨(c.2, db), hstrong, ?_⟩
    rw [stationOf, ← hsnr]

/-- Every strong peak is kept, or close to a station of one that is as strong. -/
theorem strong_covered {c : ℚ × ℚ} (h : Strong bins thresholdDb c) :
    stationOf band bins c ∈ keptStations band bins thresholdDb ∨
      ∃ c', Strong bins thresholdDb c' ∧ c.2 ≤ c'.2 ∧
        stationOf band bins c' ∈ keptStations band bins thresholdDb ∧
        |c.1 - snap band c'.1| < band.seekSeparationMhz := by
  have hmem : (c.2 - floorDb bins, c.1) ∈
      sortPairsReverse (candidates thresholdDb (floorDb bins) bins) :=
    mem_candidates_strong.mpr ⟨c.2, h, rfl⟩
  rcases @Greedy.keep_covers _ _ (near band) (station band) [] _ _ (pairwise_sortPairsReverse _) _ hmem
    with hplaced | ⟨k, hk, hnear, hnil | ⟨a, ha, hstronger, hplace⟩⟩
  · exact .inl hplaced
  · cases hnil
  · obtain ⟨db, hstrong, hsnr⟩ := mem_candidates_strong.mp ha
    have hstation : k = stationOf band bins (a.2, db) := by rw [hplace, stationOf, ← hsnr]
    refine .inr ⟨(a.2, db), hstrong, ?_, hstation ▸ hk, ?_⟩
    · rw [hsnr] at hstronger
      linarith [hstronger]
    · rw [near_iff, hstation] at hnear
      exact hnear

theorem keptStations_apart (hr : Raster band) :
    (keptStations band bins thresholdDb).Pairwise fun s s' => s.1 ≠ s'.1 := by
  have hapart : (keptStations band bins thresholdDb).Pairwise fun s s' =>
      ∃ c, s' = station band c ∧ near band c s = false := Greedy.keep_apart List.Pairwise.nil
  refine hapart.imp ?_
  rintro s s' ⟨c, rfl, hfar⟩
  have hnot : ¬|c.2 - s.1| < band.seekSeparationMhz := by
    rw [← near_iff, hfar]
    exact Bool.false_ne_true
  exact (snap_ne hr hnot).symm

/-- Stations come in the order of their frequencies, no two of them on one. -/
theorem sortPairs_strict {l : List (ℚ × ℚ)} (h : l.Pairwise fun s s' => s.1 ≠ s'.1) :
    ((sortPairs l).map Prod.fst).Pairwise (· < ·) := by
  have hne : (sortPairs l).Pairwise fun s s' => s.1 ≠ s'.1 :=
    ((List.mergeSort_perm l _).pairwise_iff fun hne => hne.symm).mpr h
  rw [List.pairwise_map]
  refine (hne.and (pairwise_sortPairs l)).imp ?_
  rintro a b ⟨hab, hle⟩
  rw [← Bool.not_eq_true, pairLt_iff, not_or, not_lt] at hle
  exact lt_of_le_of_ne hle.1 hab

/-- What a sweep of a band finds. With fewer than eight bins it finds nothing. -/
theorem findStations_spec (hband : band ∈ (radioBands : List (RadioBand ℚ)))
    (hinside : ∀ c ∈ bins, band.low ≤ c.1 ∧ c.1 ≤ band.high) :
    ∃ stations, findStations bins band thresholdDb = .ok stations ∧
      (stations.map Prod.fst).Pairwise (· < ·) ∧
      (∀ s ∈ stations, (∃ n : ℤ, s.1 = n * band.step) ∧ band.low ≤ s.1 ∧ s.1 ≤ band.high) ∧
      (∀ s ∈ stations, ∃ c, Strong bins thresholdDb c ∧ s = stationOf band bins c) ∧
      (8 ≤ bins.length → ∀ c, Strong bins thresholdDb c → stationOf band bins c ∈ stations ∨
        ∃ c', Strong bins thresholdDb c' ∧ c.2 ≤ c'.2 ∧ stationOf band bins c' ∈ stations ∧
          |c.1 - snap band c'.1| < band.seekSeparationMhz) := by
  have hr := raster_of_mem hband
  by_cases hlen : bins.length < 8
  · refine ⟨[], findStations_short hlen, List.Pairwise.nil, ?_, ?_, ?_⟩
    · intro s hs
      cases hs
    · intro s hs
      cases hs
    · intro hle
      exact absurd hlen (not_lt.mpr hle)
  · have hmem : ∀ s, s ∈ sortPairs (keptStations band bins thresholdDb) ↔
        s ∈ keptStations band bins thresholdDb := fun s => List.mem_mergeSort
    refine ⟨_, findStations_eq (not_lt.mp hlen), sortPairs_strict (keptStations_apart hr), ?_, ?_, ?_⟩
    · intro s hs
      obtain ⟨c, hstrong, rfl⟩ := exists_strong ((hmem s).mp hs)
      obtain ⟨front, before, after, back, hsplit, -⟩ := hstrong.peak
      have hc : c ∈ bins := by simp [hsplit]
      obtain ⟨hlow, hhigh⟩ := hinside c hc
      exact ⟨⟨_, snap_eq hr c.1⟩, snap_mem hr hlow hhigh⟩
    · intro s hs
      exact exists_strong ((hmem s).mp hs)
    · intro _ c hstrong
      simp only [hmem]
      exact strong_covered hstrong

/-- Three bins with a carrier in the middle one. -/
theorem short_sweep_finds_nothing :
    ∃ band ∈ (radioBands : List (RadioBand ℚ)), ∃ bins : List (ℚ × ℚ),
      (∀ c ∈ bins, band.low ≤ c.1 ∧ c.1 ≤ band.high) ∧ (bins.map Prod.fst).Pairwise (· < ·) ∧
      findStations bins band 12 = .ok [] ∧ Strong bins 12 (91, 0) := by
  refine ⟨_, List.mem_cons_self, [(90, -50), (91, 0), (92, -50)], by decide +kernel,
    by decide +kernel, findStations_short (by decide), ?_, ?_⟩
  · exact ⟨[], (90, -50), (92, -50), [], rfl, by norm_num, by norm_num⟩
  · have hfloor : floorDb [(90, -50), (91, 0), (92, -50)] = -50 := by decide +kernel
    rw [hfloor]
    norm_num

theorem tower_found :
    ∃ stations, findStations [(90, -50), (91, 0), (92, -50), (93, -50), (94, -50), (95, -50), (96, -50),
        (97, -50)] ({ low := lit 88, high := lit 108, step := lit (1 / 10), decimals := 1
                      seekSeparationMhz := lit (1 / 4), seekEpsMhz := lit (3 / 20) } : RadioBand ℚ)
        12 = .ok stations ∧ (stations.map Prod.fst).Pairwise (· < ·) := by
  obtain ⟨stations, hfind, hstrict, -⟩ := @findStations_spec
    ({ low := lit 88, high := lit 108, step := lit (1 / 10), decimals := 1
       seekSeparationMhz := lit (1 / 4), seekEpsMhz := lit (3 / 20) } : RadioBand ℚ)
    [(90, -50), (91, 0), (92, -50), (93, -50), (94, -50), (95, -50), (96, -50), (97, -50)] 12
    List.mem_cons_self (by decide +kernel)
  exact ⟨stations, hfind, hstrict⟩

end sweep

end CwStation.Radio
