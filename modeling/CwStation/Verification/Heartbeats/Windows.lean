import CwStation.Library.Intervals
import CwStation.Model.Uptime

/-! # Excluded maintenance

The ranges of `get_excluded_ranges` cover the excluded windows, cut to the range that is asked
for, and lie apart. -/

namespace CwStation.Heartbeat

open Intervals

variable {site : Site}

/-! ## Datetimes -/

section Aware

variable {z : Zone} {a b : Aware}

theorem lt_of_utc (h : (∃ t, a = .utc t) ∨ ∃ t, b = .utc t) :
    Aware.lt z a b = decide (a.instant z < b.instant z) := by
  rcases h with ⟨t, rfl⟩ | ⟨t, rfl⟩
  · cases b <;> rfl
  · cases a <;> rfl

theorem lt_self (a : Aware) : Aware.lt z a a = decide (a.instant z < a.instant z) := by
  cases a <;> simp [Aware.lt]

theorem instant_max (h : Aware.lt z a b = decide (a.instant z < b.instant z)) :
    (Aware.max z a b).instant z = max (a.instant z) (b.instant z) := by
  unfold Aware.max
  rw [h]
  by_cases hlt : a.instant z < b.instant z
  · rw [if_pos (decide_eq_true hlt), max_eq_right hlt.le]
  · rw [if_neg (by simpa using hlt), max_eq_left (not_lt.mp hlt)]

theorem instant_min (h : Aware.lt z b a = decide (b.instant z < a.instant z)) :
    (Aware.min z a b).instant z = min (a.instant z) (b.instant z) := by
  unfold Aware.min
  rw [h]
  by_cases hlt : b.instant z < a.instant z
  · rw [if_pos (decide_eq_true hlt), min_eq_right hlt.le]
  · rw [if_neg (by simpa using hlt), min_eq_left (not_lt.mp hlt)]

end Aware

/-- A datetime in UTC, or the one given. -/
def UtcOr (bound a : Aware) : Prop := (∃ t, a = .utc t) ∨ a = bound

theorem UtcOr.lt {z : Zone} {start stop a b : Aware} (ha : UtcOr stop a) (hb : UtcOr start b)
    (h : Aware.lt z stop start = decide (stop.instant z < start.instant z)) :
    Aware.lt z a b = decide (a.instant z < b.instant z) := by
  rcases ha with ha | rfl
  · exact lt_of_utc (.inl ha)
  · rcases hb with hb | rfl
    · exact lt_of_utc (.inr hb)
    · exact h

theorem UtcOr.max {z : Zone} {bound a b : Aware} (ha : UtcOr bound a) (hb : UtcOr bound b) :
    UtcOr bound (Aware.max z a b) := by
  unfold Aware.max
  split
  · exact hb
  · exact ha

theorem UtcOr.min {z : Zone} {bound a b : Aware} (ha : UtcOr bound a) (hb : UtcOr bound b) :
    UtcOr bound (Aware.min z a b) := by
  unfold Aware.min
  split
  · exact hb
  · exact ha

/-- The bounds of a range compare by their instants, whatever zones they carry. -/
def Comparable (z : Zone) (start stop : Aware) : Prop :=
  Aware.lt z stop start = decide (stop.instant z < start.instant z)

theorem midnight_mono (z : Zone) {a b : Day} (h : a ≤ b) : z.midnight a ≤ z.midnight b :=
  monotone_int_of_le_succ z.midnights h

theorem comparable_dayBounds (z : Zone) (day : Day) :
    Comparable z (dayBounds day).1 (dayBounds day).2 := by
  have hmidnight : z.midnight day ≤ z.midnight (day + 1) := z.midnights day
  have hwall : ¬(day + 1) * dayLength < day * dayLength :=
    not_lt.mpr (mul_le_mul_of_nonneg_right (le_add_of_nonneg_right zero_le_one) (by decide))
  have hinstant : ¬(dayBounds day).2.instant z < (dayBounds day).1.instant z := not_lt.mpr hmidnight
  unfold Comparable
  rw [decide_eq_false hinstant]
  exact decide_eq_false hwall

/-! ## Ranges -/

/-- A range as instants. -/
def instants (z : Zone) (r : Aware × Aware) : Instant × Instant := (r.1.instant z, r.2.instant z)

/-- A window cut to a range. -/
def clip (start stop : Instant) (w : Window) : Instant × Instant := (max w.start start, min w.stop stop)

variable {start stop : Aware} {key : Str}

theorem map_mergeRanges (h : Comparable site.zone start stop) {last : Option (Aware × Aware)}
    (hlast : ∀ r ∈ last, UtcOr stop r.2) (ws : List Window) :
    (mergeRanges site start stop last ws).map (instants site.zone) =
      merge (last.map (instants site.zone))
        (ws.map (clip (start.instant site.zone) (stop.instant site.zone))) := by
  have hstart : ∀ w : Window, UtcOr start (Aware.max site.zone (.utc w.start) start) := fun w =>
    UtcOr.max (.inl ⟨_, rfl⟩) (.inr rfl)
  have hstop : ∀ w : Window, UtcOr stop (Aware.min site.zone (.utc w.stop) stop) := fun w =>
    UtcOr.min (.inl ⟨_, rfl⟩) (.inr rfl)
  have hmax : ∀ w : Window, (Aware.max site.zone (.utc w.start) start).instant site.zone =
      max w.start (start.instant site.zone) := fun w => instant_max (lt_of_utc (.inl ⟨_, rfl⟩))
  have hmin : ∀ w : Window, (Aware.min site.zone (.utc w.stop) stop).instant site.zone =
      min w.stop (stop.instant site.zone) := fun w => instant_min (lt_of_utc (.inr ⟨_, rfl⟩))
  induction ws generalizing last with
  | nil => cases last <;> rfl
  | cons w ws ih =>
    have hnext : ∀ r : Aware × Aware, UtcOr stop r.2 →
        (mergeRanges site start stop (some r) ws).map (instants site.zone) =
          merge (some (instants site.zone r))
            (ws.map (clip (start.instant site.zone) (stop.instant site.zone))) := by
      intro r hr
      refine ih fun r' hr' => ?_
      rw [← Option.some.inj hr']
      exact hr
    cases last with
    | none =>
      rw [mergeRanges, hnext _ (hstop w)]
      simp only [Option.map_none, List.map_cons, merge, instants, clip, hmax, hmin]
    | some r =>
      obtain ⟨s, e⟩ := r
      have he : UtcOr stop e := hlast (s, e) rfl
      have hcmp := UtcOr.lt he (hstart w) h
      have hgrow : Aware.lt site.zone e (Aware.min site.zone (.utc w.stop) stop) =
          decide (e.instant site.zone <
            (Aware.min site.zone (.utc w.stop) stop).instant site.zone) :=
        UtcOr.lt he (hstop w) (lt_self stop)
      rw [mergeRanges, hcmp, hmax]
      simp only [List.map_cons, Option.map_some, merge, instants, clip]
      by_cases hgap : e.instant site.zone < max w.start (start.instant site.zone)
      · rw [if_pos (decide_eq_true hgap), if_pos hgap, List.map_cons, hnext _ (hstop w)]
        simp only [instants, hmax, hmin]
      · rw [if_neg (by simpa using hgap), if_neg hgap, hnext _ (UtcOr.max he (hstop w))]
        simp only [instants, instant_max hgrow, hmin]

/-- An excluded window of the monitor is open. -/
def excludedAt (site : Site) (key : Str) (t : Instant) : Prop :=
  ∃ w ∈ site.windows, w.monitorKey = key ∧ w.excludeFromSla = true ∧ w.start ≤ t ∧ t < w.stop

instance (site : Site) (key : Str) (t : Instant) : Decidable (excludedAt site key t) :=
  inferInstanceAs (Decidable (∃ w ∈ site.windows, _))

theorem map_excludedRanges (h : Comparable site.zone start stop) (key : Str) :
    (excludedRanges site start stop key).map (instants site.zone) =
      merge none ((excludedWindows site start stop key).map
        (clip (start.instant site.zone) (stop.instant site.zone))) :=
  map_mergeRanges h (fun _ hr => by cases hr) _

theorem sorted_clipped (key : Str) : ((excludedWindows site start stop key).map
    (clip (start.instant site.zone) (stop.instant site.zone))).Pairwise fun r r' => r.1 ≤ r'.1 := by
  have htotal : Std.Total fun w w' : Window => w.start ≤ w'.start := ⟨fun w w' => le_total _ _⟩
  have htrans : IsTrans Window fun w w' => w.start ≤ w'.start := ⟨fun _ _ _ => le_trans⟩
  rw [List.pairwise_map]
  exact (List.pairwise_insertionSort _ _).imp fun hle => max_le_max_right _ hle

theorem mem_excludedWindows {w : Window} : w ∈ excludedWindows site start stop key ↔
    w ∈ site.windows ∧ w.monitorKey = key ∧ w.excludeFromSla = true ∧
      w.start < stop.instant site.zone ∧ start.instant site.zone < w.stop := by
  rw [excludedWindows, (List.perm_insertionSort _ _).mem_iff, List.mem_filter, decide_eq_true_eq]

/-- The ranges cover what the windows do. -/
theorem within_excludedRanges (h : Comparable site.zone start stop) (key : Str) (t : Instant) :
    (∃ r ∈ excludedRanges site start stop key, Within t (instants site.zone r)) ↔
      start.instant site.zone ≤ t ∧ t < stop.instant site.zone ∧ excludedAt site key t := by
  rw [← within_map_iff, map_excludedRanges h, within_merge_iff (sorted_clipped key),
    Option.toList_none, List.nil_append, within_map_iff]
  constructor
  · rintro ⟨w, hw, hstart, hstop⟩
    obtain ⟨hmem, hkey, hsla, -, -⟩ := mem_excludedWindows.mp hw
    obtain ⟨hstart, hfrom⟩ := max_le_iff.mp hstart
    obtain ⟨hstop, huntil⟩ := lt_min_iff.mp hstop
    exact ⟨hfrom, huntil, w, hmem, hkey, hsla, hstart, hstop⟩
  · rintro ⟨hfrom, huntil, w, hmem, hkey, hsla, hstart, hstop⟩
    refine ⟨w, mem_excludedWindows.mpr ⟨hmem, hkey, hsla, ?_, ?_⟩, ?_, ?_⟩
    · exact hstart.trans_lt huntil
    · exact hfrom.trans_lt hstop
    · exact max_le hstart hfrom
    · exact lt_min hstop huntil

theorem excludedRanges_apart (h : Comparable site.zone start stop) (key : Str) :
    ((excludedRanges site start stop key).map (instants site.zone)).Pairwise
      fun r r' => r.2 < r'.1 := by
  rw [map_excludedRanges h]
  exact merge_apart (sorted_clipped key)

end CwStation.Heartbeat
