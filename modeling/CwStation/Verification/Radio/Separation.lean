import CwStation.Verification.Python.Rounding
import CwStation.Verification.Radio.Stations

/-! # How far the stations of a sweep are apart

A candidate is compared with the stations kept before it and then snapped itself. On the air
band that cannot bring it too close. On the FM band the separation is two channels and a half,
and the half channel can be lost again. -/

namespace CwStation.Radio

open PyFloat (lit)

/-! ## Half a channel -/

/-- Two channels and a half or more from channel `n`, rounding comes nearer exactly from the
half beside an even channel. -/
theorem roundHalfEven_near_iff {x : ℚ} {n : ℤ} (h : 5 / 2 ≤ |x - n|) :
    |(roundHalfEven x : ℚ) - n| < 5 / 2 ↔ |x - n| = 5 / 2 ∧ n % 2 = 0 := by
  have hround := abs_le.mp (abs_roundHalfEven_sub x)
  constructor
  · intro hnear
    obtain ⟨hlow, hhigh⟩ := abs_lt.mp hnear
    have hlow' : -3 < roundHalfEven x - n := by
      have : (-3 : ℚ) < ((roundHalfEven x - n : ℤ) : ℚ) := by push_cast; linarith
      exact_mod_cast this
    have hhigh' : roundHalfEven x - n < 3 := by
      have : ((roundHalfEven x - n : ℤ) : ℚ) < 3 := by push_cast; linarith
      exact_mod_cast this
    rcases le_abs.mp h with hup | hdown
    · -- `x` is above, and was rounded down
      have hle : roundHalfEven x ≤ n + 2 := by omega
      have hleq : (roundHalfEven x : ℚ) ≤ n + 2 := by exact_mod_cast hle
      have hx : x = ((n + 2 : ℤ) : ℚ) + 1 / 2 := by push_cast; linarith [hround.1]
      have hparity := roundHalfEven_half (n + 2)
      rw [← hx] at hparity
      split_ifs at hparity with heven
      · refine ⟨?_, by omega⟩
        rw [hx, abs_of_nonneg] <;> push_cast <;> linarith
      · omega
    · have hle : n - 2 ≤ roundHalfEven x := by omega
      have hleq : (n : ℚ) - 2 ≤ roundHalfEven x := by exact_mod_cast hle
      have hx : x = ((n - 3 : ℤ) : ℚ) + 1 / 2 := by push_cast; linarith [hround.2]
      have hparity := roundHalfEven_half (n - 3)
      rw [← hx] at hparity
      split_ifs at hparity with heven
      · omega
      · refine ⟨?_, by omega⟩
        rw [hx, abs_of_nonpos] <;> push_cast <;> linarith
  · rintro ⟨habs, heven⟩
    rcases (abs_eq (by norm_num)).mp habs with hup | hdown
    · have hx : x = ((n + 2 : ℤ) : ℚ) + 1 / 2 := by push_cast; linarith
      rw [hx, roundHalfEven_half, if_pos (by omega)]
      push_cast
      rw [add_sub_cancel_left]
      norm_num
    · have hx : x = ((n - 3 : ℤ) : ℚ) + 1 / 2 := by push_cast; linarith
      rw [hx, roundHalfEven_half, if_neg (by omega)]
      push_cast
      have hsub : (n : ℚ) - 3 + 1 - n = -2 := by ring
      rw [hsub]
      norm_num

/-! ## One candidate and one station -/

/-- The candidate is exactly the separation away from an even channel, and that is two channels
and a half. -/
structure FallsBack (band : RadioBand ℚ) (k mhz : ℚ) : Prop where
  distance : |mhz - k| = band.seekSeparationMhz
  separation : band.seekSeparationMhz = 5 / 2 * band.step
  even : ∃ n : ℤ, k = 2 * n * band.step

theorem abs_channels {step x y : ℚ} (hstep : 0 < step) (hx : x = y * step) (k : ℤ) :
    |x - k * step| = |y - k| * step := by
  rw [hx, ← sub_mul, abs_mul, abs_of_pos hstep]

/-- On the FM band. -/
theorem apart_snap_iff_of_halves {band : RadioBand ℚ} (hr : Raster band) {k mhz : ℚ}
    (hk : ∃ n : ℤ, k = n * band.step) (hsep : band.seekSeparationMhz = 5 / 2 * band.step)
    (hfar : ¬|mhz - k| < band.seekSeparationMhz) :
    band.seekSeparationMhz ≤ |k - snap band mhz| ↔ ¬FallsBack band k mhz := by
  obtain ⟨n, rfl⟩ := hk
  have hpos := hr.step_pos
  have hmhz : mhz = mhz / band.step * band.step := (div_mul_cancel₀ _ hpos.ne').symm
  rw [abs_channels hpos hmhz, hsep, not_lt, mul_le_mul_iff_left₀ hpos] at hfar
  have hiff := roundHalfEven_near_iff hfar
  rw [abs_sub_comm, abs_channels hpos (snap_eq hr mhz), hsep, mul_le_mul_iff_left₀ hpos,
    ← not_lt, hiff, not_iff_not]
  constructor
  · rintro ⟨habs, heven⟩
    refine ⟨by rw [abs_channels hpos hmhz, habs, hsep], hsep, n / 2, ?_⟩
    have hn : n = 2 * (n / 2) := by omega
    have hcast : (n : ℚ) = 2 * ((n / 2 : ℤ) : ℚ) := by exact_mod_cast hn
    rw [hcast]
  · rintro ⟨hdist, _, m, hm⟩
    rw [abs_channels hpos hmhz, hsep] at hdist
    refine ⟨mul_right_cancel₀ hpos.ne' hdist, ?_⟩
    have hcast : (n : ℚ) = 2 * m := mul_right_cancel₀ hpos.ne' hm
    have hn : n = 2 * m := by exact_mod_cast hcast
    omega

/-- Where the separation is less than a channel, a station on another channel is far enough. -/
theorem apart_snap_of_fine {band : RadioBand ℚ} (hr : Raster band) {k mhz : ℚ}
    (hk : ∃ n : ℤ, k = n * band.step) (hsep : band.seekSeparationMhz ≤ band.step)
    (hfar : ¬|mhz - k| < band.seekSeparationMhz) :
    band.seekSeparationMhz ≤ |k - snap band mhz| := by
  obtain ⟨n, rfl⟩ := hk
  have hpos := hr.step_pos
  have hne := snap_ne hr hfar
  rw [snap_eq hr] at hne
  have hchannel : 1 ≤ |roundHalfEven (mhz / band.step) - n| := by
    apply Int.one_le_abs
    intro hzero
    exact hne (by rw [sub_eq_zero.mp hzero])
  have hcast : (1 : ℚ) ≤ |(roundHalfEven (mhz / band.step) : ℚ) - n| := by exact_mod_cast hchannel
  rw [abs_sub_comm, abs_channels hpos (snap_eq hr mhz)]
  exact hsep.trans (le_mul_of_one_le_left hpos.le hcast)

theorem apart_snap_iff {band : RadioBand ℚ} (hband : band ∈ (radioBands : List (RadioBand ℚ)))
    {k mhz : ℚ} (hk : ∃ n : ℤ, k = n * band.step) (hfar : ¬|mhz - k| < band.seekSeparationMhz) :
    band.seekSeparationMhz ≤ |k - snap band mhz| ↔ ¬FallsBack band k mhz := by
  have hr := raster_of_mem hband
  rw [radioBands, List.mem_cons, List.mem_singleton] at hband
  rcases hband with rfl | rfl
  · exact apart_snap_iff_of_halves hr hk (by norm_num) hfar
  · refine iff_of_true (apart_snap_of_fine hr hk (by norm_num) hfar) fun hback => ?_
    have hsep := hback.separation
    norm_num at hsep

/-! ## A sweep -/

/-- No candidate is kept that falls back towards a station kept before it. -/
def Separable (band : RadioBand ℚ) (bins : List (ℚ × ℚ)) (thresholdDb : ℚ) : Prop :=
  bins.length < 8 ∨ Greedy.Chooses (near band) (station band) (fun k c => ¬FallsBack band k.1 c.2) []
    (sortPairsReverse (candidates thresholdDb (floorDb bins) bins))

theorem keptStations_separate_iff {band : RadioBand ℚ}
    (hband : band ∈ (radioBands : List (RadioBand ℚ))) (bins : List (ℚ × ℚ)) (thresholdDb : ℚ) :
    ((keptStations band bins thresholdDb).Pairwise fun s s' =>
        band.seekSeparationMhz ≤ |s.1 - s'.1|) ↔
      Greedy.Chooses (near band) (station band) (fun k c => ¬FallsBack band k.1 c.2) []
        (sortPairsReverse (candidates thresholdDb (floorDb bins) bins)) := by
  have hr := raster_of_mem hband
  rw [keptStations, Greedy.keep_pairwise_iff List.Pairwise.nil]
  apply Greedy.chooses_congr (I := fun k => ∃ n : ℤ, k.1 = n * band.step)
  · intro k hk
    cases hk
  · intro c _
    exact ⟨_, snap_eq hr c.2⟩
  · intro k c hk hfar
    apply apart_snap_iff hband hk
    rw [← near_iff, hfar]
    exact Bool.false_ne_true

/-- The stations of a sweep are the separation apart exactly if no candidate falls back. -/
theorem findStations_separate_iff {band : RadioBand ℚ}
    (hband : band ∈ (radioBands : List (RadioBand ℚ))) (bins : List (ℚ × ℚ)) (thresholdDb : ℚ) :
    (∃ stations, findStations bins band thresholdDb = .ok stations ∧
        stations.Pairwise fun s s' => band.seekSeparationMhz ≤ |s.1 - s'.1|) ↔
      Separable band bins thresholdDb := by
  rcases lt_or_ge bins.length 8 with hlen | hlen
  · exact iff_of_true ⟨[], findStations_short hlen, List.Pairwise.nil⟩ (.inl hlen)
  · have hperm : ((sortPairs (keptStations band bins thresholdDb)).Pairwise fun s s' =>
          band.seekSeparationMhz ≤ |s.1 - s'.1|) ↔
        (keptStations band bins thresholdDb).Pairwise fun s s' =>
          band.seekSeparationMhz ≤ |s.1 - s'.1| :=
      (List.mergeSort_perm _ _).pairwise_iff fun h => by rwa [abs_sub_comm]
    rw [Separable, or_iff_right (not_lt.mpr hlen), ← keptStations_separate_iff hband, ← hperm,
      findStations_eq hlen]
    constructor
    · rintro ⟨stations, hfind, hall⟩
      cases hfind
      exact hall
    · exact fun hall => ⟨_, rfl, hall⟩

/-- `RADIO_BANDS["fm"]`. -/
def fm : RadioBand ℚ where
  low := lit 88
  high := lit 108
  step := lit (1 / 10)
  decimals := 1
  seekSeparationMhz := lit (1 / 4)
  seekEpsMhz := lit (3 / 20)

theorem fm_mem : fm ∈ radioBands := List.mem_cons_self

/-- A carrier with a second peak a quarter of a megahertz above the channel of the first. -/
def shoulders : List (ℚ × ℚ) := [(89.85, -50), (89.95, -50), (90.05, 0), (90.15, -50), (90.25, -5),
  (90.35, -50), (90.45, -50), (90.55, -50)]

theorem findStations_separate_iff_shoulders :
    (∃ stations, findStations shoulders fm 12 = .ok stations ∧
        stations.Pairwise fun s s' => fm.seekSeparationMhz ≤ |s.1 - s'.1|) ↔
      Separable fm shoulders 12 :=
  findStations_separate_iff fm_mem shoulders 12

/-- The stations found there are 90.0 and 90.2. -/
theorem carrier_found_twice :
    ¬∀ band ∈ (radioBands : List (RadioBand ℚ)), ∀ bins : List (ℚ × ℚ), ∀ thresholdDb,
      (∀ c ∈ bins, band.low ≤ c.1 ∧ c.1 ≤ band.high) → bins.Pairwise (fun c c' => c.1 < c'.1) →
        ∀ stations, findStations bins band thresholdDb = .ok stations →
          stations.Pairwise fun s s' => band.seekSeparationMhz ≤ |s.1 - s'.1| := by
  intro h
  have hfloor : floorDb shoulders = -50 := by decide +kernel
  have hcandidates : candidates 12 (-50) shoulders = [(50, 90.05), (45, 90.25)] := by decide +kernel
  have hstrongest : sortPairsReverse [((50 : ℚ), (90.05 : ℚ)), (45, 90.25)] =
      [(50, 90.05), (45, 90.25)] := List.mergeSort_of_pairwise (by decide +kernel)
  have hkept : keptStations fm shoulders 12 = [(90, 50), (90.2, 45)] := by
    rw [keptStations, hfloor, hcandidates, hstrongest]
    decide +kernel
  have hsorted : sortPairs [((90 : ℚ), (50 : ℚ)), (90.2, 45)] = [(90, 50), (90.2, 45)] :=
    List.mergeSort_of_pairwise (by decide +kernel)
  have hfind : findStations shoulders fm 12 = .ok [(90, 50), (90.2, 45)] := by
    rw [findStations_eq (by decide), hkept, hsorted]
  have hpair := h fm fm_mem shoulders 12 (by decide +kernel) (by decide +kernel) _ hfind
  have hle := (List.pairwise_cons.mp hpair).1 _ (List.mem_singleton.mpr rfl)
  exact absurd hle (by decide +kernel)

end CwStation.Radio
