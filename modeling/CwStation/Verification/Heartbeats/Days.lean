import CwStation.Verification.Heartbeats.Folding
import CwStation.Verification.Heartbeats.Windows

/-! # The uptime of a day

A day's beats are the summary's and those that are left. A prune moves beats from the table to
the summary, and counts them as the reader would have: both leave out the excluded ones, and both
look at the same beats wherever the bounds of a date hold its beats. -/

namespace CwStation.Heartbeat

open Intervals

variable {site : Site}

/-! ## Beats that count -/

/-- A beat of a monitor in a range, outside excluded windows. -/
def counted (site : Site) (key : Str) (start stop : Instant) (b : Beat) : Bool :=
  b.monitorKey = key ∧ start ≤ b.timestamp ∧ b.timestamp < stop ∧ ¬excludedAt site key b.timestamp

/-- Those of a day. -/
def countedOn (site : Site) (key : Str) (day : Day) : Beat → Bool :=
  counted site key (site.zone.midnight day) (site.zone.midnight (day + 1))

theorem nonMaintenanceCounts_eq {start stop : Aware} (h : Comparable site.zone start stop)
    (beats : List Beat) (key : Str) :
    nonMaintenanceCounts site beats start stop key =
      (countStatus .ok (beats.filter
          (counted site key (start.instant site.zone) (stop.instant site.zone))),
        ((beats.filter
          (counted site key (start.instant site.zone) (stop.instant site.zone))).length : ℤ)) := by
  have hfilter : ((beats.filter fun b => b.monitorKey = key ∧ start.instant site.zone ≤ b.timestamp ∧
      b.timestamp < stop.instant site.zone).filter fun b =>
        ∀ r ∈ excludedRanges site start stop key,
          ¬(r.1.instant site.zone ≤ b.timestamp ∧ b.timestamp < r.2.instant site.zone)) =
      beats.filter (counted site key (start.instant site.zone) (stop.instant site.zone)) := by
    rw [List.filter_filter]
    apply List.filter_congr
    intro b _
    rw [counted, ← Bool.decide_and, decide_eq_decide]
    have hwithin := within_excludedRanges h key b.timestamp
    constructor
    · rintro ⟨hout, hkey, hstart, hstop⟩
      refine ⟨hkey, hstart, hstop, fun hexcluded => ?_⟩
      obtain ⟨r, hr, hin⟩ := hwithin.mpr ⟨hstart, hstop, hexcluded⟩
      exact hout r hr hin
    · rintro ⟨hkey, hstart, hstop, hfree⟩
      refine ⟨fun r hr hin => hfree ?_, hkey, hstart, hstop⟩
      exact (hwithin.mp ⟨r, hr, hin⟩).2.2
  unfold nonMaintenanceCounts
  simp only [hfilter]

/-! ## What a group adds -/

/-- The counts of a status. -/
def Daily.count : Status → Daily → ℤ
  | .ok => Daily.okCount
  | .fail => Daily.failCount

/-- What a batch adds to them. -/
def slaCount (g : Group) (excluded : Excluded) : Status → ℤ
  | .ok => g.okCount - excluded.ok
  | .fail => g.failCount - (excluded.total - excluded.ok)

theorem count_addBatch (status : Status) (row : Daily) (g : Group) (excluded : Excluded)
    (expected : ℤ) :
    (addBatch row g excluded expected).count status = row.count status + slaCount g excluded status := by
  cases status <;> rfl

theorem countStatus_filter (status : Status) (p : Beat → Bool) (beats : List Beat) :
    countStatus status (beats.filter p) =
      ((beats.filter fun b => b.status = status).countP p : ℕ) := by
  rw [countStatus, List.countP_filter, List.countP_filter]
  congr 1
  apply List.countP_congr
  intro b _
  rw [Bool.and_comm]

theorem foldl_excluded (g : Group) (old : List Beat) (spans : List (Aware × Aware))
    (excluded : Excluded) :
    spans.foldl (fun excluded span =>
      { total := excluded.total + (inSpan site g span old).length
        ok := excluded.ok + countStatus .ok (inSpan site g span old) }) excluded =
      { total := excluded.total + (spans.map fun span => ((inSpan site g span old).length : ℤ)).sum
        ok := excluded.ok + (spans.map fun span => countStatus .ok (inSpan site g span old)).sum } := by
  induction spans generalizing excluded with
  | nil => simp
  | cons span spans ih =>
    rw [List.foldl_cons, ih]
    simp only [List.map_cons, List.sum_cons, add_assoc]

theorem sum_inSpan_length (g : Group) (old : List Beat) (spans : List (Aware × Aware)) :
    (spans.map fun span => ((inSpan site g span old).length : ℤ)).sum =
      (spans.map fun span => countStatus .ok (inSpan site g span old)).sum +
        (spans.map fun span => countStatus .fail (inSpan site g span old)).sum := by
  induction spans with
  | nil => rfl
  | cons span spans ih =>
    rw [List.map_cons, List.sum_cons, ih, ← countStatus_add, List.map_cons, List.sum_cons,
      List.map_cons, List.sum_cons]
    ring

theorem inSpan_eq (g : Group) (span : Aware × Aware) (old : List Beat) :
    inSpan site g span old = (old.filter (inBounds site g.monitorKey g.date)).filter fun b =>
      decide (Within b.timestamp (instants site.zone span)) := rfl

/-- The beats of a group's bounds that are excluded, of any kind. -/
theorem sum_inSpan (g : Group) (beats : List Beat) :
    ((spansOf site g).map fun span => (beats.countP fun b =>
        decide (Within b.timestamp (instants site.zone span)))).sum =
      beats.countP fun b => decide (site.zone.midnight g.date ≤ b.timestamp ∧
        b.timestamp < site.zone.midnight (g.date + 1) ∧ excludedAt site g.monitorKey b.timestamp) := by
  have hcmp := comparable_dayBounds site.zone g.date
  have hsum := sum_countP_within Beat.timestamp beats (excludedRanges_apart hcmp g.monitorKey)
  rw [List.map_map] at hsum
  refine hsum.trans ?_
  apply List.countP_congr
  intro b _
  rw [decide_eq_true_eq, decide_eq_true_eq, within_map_iff]
  exact within_excludedRanges hcmp g.monitorKey b.timestamp

/-- What the spans of a group hold of a status. -/
theorem excluded_eq (g : Group) (old : List Beat) (status : Status) :
    (((spansOf site g).map fun span => countStatus status (inSpan site g span old)).sum : ℤ) =
      (((old.filter (inBounds site g.monitorKey g.date)).filter fun b => b.status = status).countP
        fun b => decide (site.zone.midnight g.date ≤ b.timestamp ∧
          b.timestamp < site.zone.midnight (g.date + 1) ∧
            excludedAt site g.monitorKey b.timestamp) : ℕ) := by
  rw [← sum_inSpan]
  induction spansOf site g with
  | nil => rfl
  | cons span spans ih =>
    rw [List.map_cons, List.sum_cons, ih, List.map_cons, List.sum_cons, inSpan_eq,
      countStatus_filter]
    push_cast
    rfl

/-- The beats of a date are those between its bounds. -/
def Placed (site : Site) (b : Beat) : Prop :=
  inBounds site b.monitorKey (site.zone.localDate b.timestamp) b = true

instance (site : Site) (b : Beat) : Decidable (Placed site b) := inferInstanceAs (Decidable (_ = _))

theorem Placed.bounds {b : Beat} (h : Placed site b) :
    site.zone.midnight (site.zone.localDate b.timestamp) ≤ b.timestamp ∧
      b.timestamp < site.zone.midnight (site.zone.localDate b.timestamp + 1) := by
  unfold Placed inBounds at h
  exact (of_decide_eq_true h).2

/-- The bounds of different days do not overlap. -/
theorem eq_of_midnights {z : Zone} {a b : Day} {t : Instant} (ha : z.midnight a ≤ t)
    (ha' : t < z.midnight (a + 1)) (hb : z.midnight b ≤ t) (hb' : t < z.midnight (b + 1)) : a = b := by
  rcases lt_trichotomy a b with hlt | heq | hgt
  · have hle := midnight_mono z (Int.add_one_le_iff.mpr hlt)
    exact absurd (ha'.trans_le (hle.trans hb)) (lt_irrefl _)
  · exact heq
  · have hle := midnight_mono z (Int.add_one_le_iff.mpr hgt)
    exact absurd (hb'.trans_le (hle.trans ha)) (lt_irrefl _)

theorem onDate_eq_inBounds {b : Beat} {key : Str} (h : b.monitorKey = key → Placed site b)
    (day : Day) : onDate site key day b = inBounds site key day b := by
  unfold onDate inBounds
  rw [decide_eq_decide]
  constructor
  · rintro ⟨hkey, rfl⟩
    exact ⟨hkey, (h hkey).bounds⟩
  · rintro ⟨hkey, hstart, hstop⟩
    exact ⟨hkey, eq_of_midnights (h hkey).bounds.1 (h hkey).bounds.2 hstart hstop⟩

/-- The beats of a monitor are where the bounds of their dates have them. -/
def AllPlaced (site : Site) (key : Str) (beats : List Beat) : Prop :=
  ∀ b ∈ beats, b.monitorKey = key → Placed site b

/-- What a group adds: its beats, without those of its bounds that are excluded. -/
theorem slaCount_groupOf (old : List Beat) (key : Str) (day : Day) (status : Status) :
    slaCount (groupOf site old key day) (countExcluded site (groupOf site old key day) old) status =
      countStatus status (old.filter (onDate site key day)) -
        ((spansOf site (groupOf site old key day)).map fun span =>
          countStatus status (inSpan site (groupOf site old key day) span old)).sum := by
  rw [countExcluded, foldl_excluded]
  cases status with
  | ok =>
    have hcount : (groupOf site old key day).okCount =
        countStatus .ok (old.filter (onDate site key day)) := rfl
    simp only [slaCount, hcount, zero_add]
  | fail =>
    have hcount : (groupOf site old key day).failCount =
        countStatus .fail (old.filter (onDate site key day)) := rfl
    rw [slaCount, hcount, sum_inSpan_length]
    ring

/-- Outside what is excluded, a group has the beats that the reader counts. -/
theorem slaCount_eq {old : List Beat} {key : Str} (h : AllPlaced site key old) (day : Day)
    (status : Status) :
    slaCount (groupOf site old key day) (countExcluded site (groupOf site old key day) old) status =
      countStatus status (old.filter (countedOn site key day)) := by
  have hmembers : old.filter (onDate site key day) = old.filter (inBounds site key day) :=
    List.filter_congr fun b hb => onDate_eq_inBounds (h b hb) day
  rw [slaCount_groupOf, hmembers, excluded_eq, countStatus_filter, countStatus_filter]
  have hdate : (groupOf site old key day).date = day := rfl
  have hkey : (groupOf site old key day).monitorKey = key := rfl
  have hcomm : (old.filter (inBounds site key day)).filter (fun b => b.status = status) =
      (old.filter fun b => b.status = status).filter (inBounds site key day) := by
    rw [List.filter_filter, List.filter_filter]
    exact List.filter_congr fun b _ => Bool.and_comm _ _
  rw [hdate, hkey, hcomm, Counting.countP_sub_countP_filter]
  congr 1
  apply List.countP_congr
  intro b _
  simp only [countedOn, counted, inBounds, Bool.and_eq_true, Bool.not_eq_true', decide_eq_true_eq,
    decide_eq_false_iff_not]
  tauto

end CwStation.Heartbeat
