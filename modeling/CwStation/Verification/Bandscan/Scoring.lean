import CwStation.Model.Bandscan
import CwStation.Model.Floats

/-! # The score of a band is about its signals, not about its level

Before rounding: raising every bin by the same amount raises the floor and the peak by it, and
leaves the rest of the score alone. -/

namespace CwStation.Scoring

open PyFloat (lit)

variable {dbs : List Unrounded} {bins : List (Unrounded × Unrounded)} {c : Unrounded}

/-! ## The floor -/

theorem mean_le {a b top : Unrounded} (ha : a ≤ top) (hb : b ≤ top) : (a + b) / lit 2 ≤ top := by
  simp only [Unrounded.lit_eq]
  push_cast
  linarith

theorem mean_add (a b c : Unrounded) : (a + c + (b + c)) / lit 2 = (a + b) / lit 2 + c := by
  simp only [Unrounded.lit_eq]
  push_cast
  ring

/-- Where `_floor_db` looks is in the list. -/
theorem min_lt_length {n : ℕ} (hn : 0 < n) (pct : ℕ) : min (n - 1) (n * pct / 100) < n := by
  omega

theorem floorDb_le {top : Unrounded} (hne : dbs ≠ []) (h : ∀ db ∈ dbs, db ≤ top) (pct : ℕ) :
    floorDb dbs pct ≤ top := by
  unfold floorDb
  split
  · exact Median.median_of_forall (fun a b => mean_le) hne h
  · have hpos : 0 < (dbs.insertionSort (· ≤ ·)).length := by
      rw [List.length_insertionSort]
      exact List.length_pos_iff.mpr hne
    dsimp only
    rw [List.getD_eq_getElem _ _ (min_lt_length hpos pct)]
    exact h _ ((List.perm_insertionSort (· ≤ ·) dbs).mem_iff.mp (List.getElem_mem _))

theorem floorDb_add (hne : dbs ≠ []) (pct : ℕ) :
    floorDb (dbs.map (· + c)) pct = floorDb dbs pct + c := by
  have horder : ∀ a b : Unrounded, a ≤ b ↔ a + c ≤ b + c := fun a b => by simp
  unfold floorDb
  split
  · exact Median.median_map horder (fun a b => mean_add a b c) hne
  · have hsort := List.map_insertionSort (· ≤ ·) (· ≤ ·) (· + c) dbs fun a _ b _ => horder a b
    have hpos : 0 < (dbs.insertionSort (· ≤ ·)).length := by
      rw [List.length_insertionSort]
      exact List.length_pos_iff.mpr hne
    dsimp only
    rw [← hsort, List.length_map]
    exact Median.getD_map _ (min_lt_length hpos pct) _ _

/-! ## The peak -/

/-- One step of the search for the peak. -/
theorem foldl_highest (bins : List (Unrounded × Unrounded)) (bin : Unrounded × Unrounded) :
    let best := bins.foldl (fun best bin => if best.2 < bin.2 then bin else best) bin
    best ∈ bin :: bins ∧ ∀ b ∈ bin :: bins, b.2 ≤ best.2 := by
  induction bins generalizing bin with
  | nil => simp
  | cons b bins ih =>
    rw [List.foldl_cons]
    by_cases hlt : bin.2 < b.2
    · rw [if_pos hlt]
      obtain ⟨hmem, hle⟩ := ih b
      refine ⟨List.mem_cons_of_mem _ hmem, ?_⟩
      rintro b' (_ | ⟨_, hb'⟩)
      · exact hlt.le.trans (hle b List.mem_cons_self)
      · exact hle b' hb'
    · rw [if_neg hlt]
      obtain ⟨hmem, hle⟩ := ih bin
      have hbin := hle bin List.mem_cons_self
      constructor
      · rcases List.mem_cons.mp hmem with heq | hmem
        · rw [heq]
          exact List.mem_cons_self
        · exact List.mem_cons_of_mem _ (List.mem_cons_of_mem _ hmem)
      · intro b' hb'
        rcases List.mem_cons.mp hb' with rfl | hb'
        · exact hbin
        · rcases List.mem_cons.mp hb' with rfl | hb'
          · exact (not_lt.mp hlt).trans hbin
          · exact hle b' (List.mem_cons_of_mem _ hb')

theorem highest_mem (hne : bins ≠ []) : highest bins ∈ bins := by
  cases bins with
  | nil => exact absurd rfl hne
  | cons bin bins => exact (foldl_highest bins bin).1

theorem le_highest {b : Unrounded × Unrounded} (hb : b ∈ bins) : b.2 ≤ (highest bins).2 := by
  cases bins with
  | nil => cases hb
  | cons bin bins => exact (foldl_highest bins bin).2 b hb

/-- Every bin raised by the same amount. -/
def raise (c : Unrounded) (bin : Unrounded × Unrounded) : Unrounded × Unrounded := (bin.1, bin.2 + c)

theorem highest_raise (hne : bins ≠ []) : highest (bins.map (raise c)) = raise c (highest bins) := by
  cases bins with
  | nil => exact absurd rfl hne
  | cons bin bins =>
    clear hne
    change (bins.map (raise c)).foldl _ (raise c bin) = raise c (bins.foldl _ bin)
    induction bins generalizing bin with
    | nil => rfl
    | cons b bins ih =>
      have hstep : (if (raise c bin).2 < (raise c b).2 then raise c b else raise c bin) =
          raise c (if bin.2 < b.2 then b else bin) := by
        rw [apply_ite (raise c)]
        simp only [raise, add_lt_add_iff_right]
      rw [List.map_cons, List.foldl_cons, List.foldl_cons, hstep]
      exact ih _

/-! ## The score -/

/-- The score with its levels raised. -/
def Summary.raise (c : Unrounded) (s : Summary Unrounded) : Summary Unrounded :=
  { s with floorDb := s.floorDb.map (· + c), peakDb := s.peakDb.map (· + c) }

theorem summarize_raise (band : Band Unrounded) (bins : List (Unrounded × Unrounded)) (c : Unrounded) :
    summarize band (bins.map (raise c)) = (summarize band bins).raise c := by
  unfold summarize
  rw [List.length_map]
  by_cases hlen : bins.length < 4
  · rw [if_pos hlen, if_pos hlen]
    rfl
  · have hne : bins ≠ [] := by
      rintro rfl
      simp at hlen
    have hdbs : (bins.map (raise c)).map Prod.snd = (bins.map Prod.snd).map (· + c) := by
      rw [List.map_map, List.map_map]
      rfl
    have hfloor := @floorDb_add (bins.map Prod.snd) c (by simpa using hne) band.floorPct
    have hheight : ∀ db floor : Unrounded, db + c - (floor + c) = db - floor := fun db floor => by ring
    rw [if_neg hlen, if_neg hlen]
    simp only [hdbs, hfloor, highest_raise hne, Summary.raise, CwStation.Scoring.raise, Unrounded.round_eq, hheight, Option.map_some,
      List.countP_map, Function.comp_def]

/-- The bins of a band that clear the threshold, and the height of its peak. -/
theorem signals_pos_iff (floor : Unrounded) (hne : bins ≠ []) :
    0 < (bins.map Prod.snd).countP (fun db => signalThresholdDb ≤ db - floor) ↔
      signalThresholdDb ≤ (highest bins).2 - floor := by
  rw [List.countP_pos_iff]
  constructor
  · rintro ⟨db, hdb, hclears⟩
    obtain ⟨b, hb, rfl⟩ := List.mem_map.mp hdb
    have hle := le_highest hb
    exact (of_decide_eq_true hclears).trans (sub_le_sub_right hle floor)
  · intro hclears
    exact ⟨_, List.mem_map_of_mem (highest_mem hne), decide_eq_true hclears⟩

/-- Scores measure the height of the peak above the floor. -/
theorem summarize_measures_snr (band : Band Unrounded) (bins : List (Unrounded × Unrounded))
    (c : Unrounded) (hlen : 4 ≤ bins.length) :
    ∃ floor peak snr mhz signals,
      summarize band bins =
        ⟨band.toBandInfo, some floor, some peak, some snr, some mhz, signals, bins.length⟩ ∧
      summarize band (bins.map fun bin => (bin.1, bin.2 + c)) =
        ⟨band.toBandInfo, some (floor + c), some (peak + c), some snr, some mhz, signals,
          bins.length⟩ ∧
      snr = peak - floor ∧ 0 ≤ snr ∧ (0 < signals ↔ signalThresholdDb ≤ snr) := by
  have hne : bins ≠ [] := by
    rintro rfl
    simp at hlen
  have hsummary : summarize band bins = _ := if_neg (not_lt.mpr hlen)
  have hraised := summarize_raise band bins c
  rw [hsummary] at hraised
  refine ⟨_, _, _, _, _, hsummary, hraised, rfl, ?_, signals_pos_iff _ hne⟩
  have hfloor : floorDb (bins.map Prod.snd) band.floorPct ≤ (highest bins).2 := by
    apply floorDb_le (by simpa using hne)
    intro db hdb
    obtain ⟨b, hb, rfl⟩ := List.mem_map.mp hdb
    exact le_highest hb
  exact sub_nonneg.mpr hfloor

theorem summarize_measures_snr_beacon :
    let band : Band Unrounded := { key := "10m_beacon".toList, label := "10 m beacons".toList
                                   lowMhz := lit (282 / 10), highMhz := lit (283 / 10), stepKhz := lit 1
                                   reference := true }
    let bins : List (Unrounded × Unrounded) := [(lit (282 / 10), lit (-50)), (lit (2821 / 100), lit (-20)),
      (lit (2822 / 100), lit (-50)), (lit (2823 / 100), lit (-48))]
    ∃ floor peak snr mhz signals,
      summarize band bins = ⟨band.toBandInfo, some floor, some peak, some snr, some mhz, signals, 4⟩ ∧
      summarize band (bins.map fun bin => (bin.1, bin.2 + lit 7)) =
        ⟨band.toBandInfo, some (floor + lit 7), some (peak + lit 7), some snr, some mhz, signals, 4⟩ ∧
      snr = peak - floor ∧ 0 ≤ snr ∧ (0 < signals ↔ signalThresholdDb ≤ snr) := by
  intro band bins
  exact summarize_measures_snr band bins (lit 7) (by decide)

end CwStation.Scoring
