import CwStation.Verification.Heartbeats.Flawless

/-! # Excluded time

`get_excluded_seconds` measures the excluded windows of a range. Only where they span a range
between two datetimes of one zone, it is the difference of the wall times. -/

namespace CwStation.Heartbeat

open Intervals

variable {site : Site} {start stop : Aware} {key : Str}

/-! ## Ranges -/

/-- A range that runs forward, by its datetimes and in time. -/
def Forward (z : Zone) (start stop : Aware) : Prop :=
  Aware.lt z stop start = false ∧ start.instant z ≤ stop.instant z

theorem Forward.comparable {z : Zone} (h : Forward z start stop) : Comparable z start stop := by
  rw [Comparable, h.1, eq_comm, decide_eq_false_iff_not]
  exact not_lt.mpr h.2

/-- The excluded instants of a range. -/
noncomputable def excludedInstants (site : Site) (start stop : Aware) (key : Str) : Finset Instant :=
  (Finset.Ico (start.instant site.zone) (stop.instant site.zone)).filter (excludedAt site key)

/-- The ranges are sorted, apart and inside, they cover what is excluded, and the time in them is
its measure, which adds up wherever the range is cut. -/
structure MeasuredOnce (site : Site) (start stop : Aware) (key : Str) : Prop where
  apart : ((excludedRanges site start stop key).map (instants site.zone)).Pairwise
    fun r r' => r.2 < r'.1
  inside : ∀ r ∈ excludedRanges site start stop key,
    start.instant site.zone ≤ r.1.instant site.zone ∧
      r.1.instant site.zone ≤ r.2.instant site.zone ∧
        r.2.instant site.zone ≤ stop.instant site.zone
  union : ∀ t, (∃ r ∈ excludedRanges site start stop key, Within t (instants site.zone r)) ↔
    start.instant site.zone ≤ t ∧ t < stop.instant site.zone ∧ excludedAt site key t
  measure : excludedTime site start stop key = (excludedInstants site start stop key).card
  adds : ∀ cut, Forward site.zone start cut → Forward site.zone cut stop →
    excludedTime site start cut key + excludedTime site cut stop key =
      excludedTime site start stop key

/-- The first of the windows begins before the range, the windows leave no gap in it, and the
first that reaches its end runs past it. -/
def Spanned (site : Site) (start stop : Aware) (key : Str) : Prop :=
  (∃ w ∈ (excludedWindows site start stop key).head?, w.start < start.instant site.zone) ∧
    (∀ t, start.instant site.zone ≤ t → t < stop.instant site.zone → excludedAt site key t) ∧
      ∃ w ∈ (excludedWindows site start stop key).find? fun w => stop.instant site.zone ≤ w.stop,
        stop.instant site.zone < w.stop

open Classical in
/-- How far the clock is set between two wall times, where windows span the range. -/
noncomputable def drift (site : Site) (key : Str) : Aware → Aware → ℤ
  | .zoned a, .zoned b =>
      if Spanned site (.zoned a) (.zoned b) key then
        b - a - (site.zone.ofWall b - site.zone.ofWall a)
      else 0
  | _, _ => 0

/-! ## The ends of the ranges -/

theorem ends_mergeRanges {last : Option (Aware × Aware)} {ws : List Window}
    (hlast : ∀ r ∈ last, UtcOr start r.1 ∧ UtcOr stop r.2) :
    ∀ r ∈ mergeRanges site start stop last ws, UtcOr start r.1 ∧ UtcOr stop r.2 := by
  have hstart : ∀ w : Window, UtcOr start (Aware.max site.zone (.utc w.start) start) := fun w =>
    UtcOr.max (.inl ⟨_, rfl⟩) (.inr rfl)
  have hstop : ∀ w : Window, UtcOr stop (Aware.min site.zone (.utc w.stop) stop) := fun w =>
    UtcOr.min (.inl ⟨_, rfl⟩) (.inr rfl)
  induction ws generalizing last with
  | nil => simpa [mergeRanges] using hlast
  | cons w ws ih =>
    cases last with
    | none => exact ih (by simpa using ⟨hstart w, hstop w⟩)
    | some r =>
      obtain ⟨s, e⟩ := r
      have hr : UtcOr start s ∧ UtcOr stop e := hlast (s, e) rfl
      rw [mergeRanges]
      split
      · refine List.forall_mem_cons.mpr ⟨hr, ih ?_⟩
        simpa using ⟨hstart w, hstop w⟩
      · refine ih ?_
        simpa using ⟨hr.1, UtcOr.max hr.2 (hstop w)⟩

/-- Times are subtracted as instants, but for the two bounds where they carry the zone. -/
theorem sub_eq {z : Zone} {s e : Aware} (hs : UtcOr start s) (he : UtcOr stop e)
    (h : ¬∃ a b, start = .zoned a ∧ stop = .zoned b ∧ s = start ∧ e = stop) :
    Aware.sub z e s = e.instant z - s.instant z := by
  rcases he with ⟨t, rfl⟩ | rfl
  · cases s <;> rfl
  · rcases hs with ⟨t, rfl⟩ | rfl
    · cases e <;> rfl
    · cases s with
      | utc t => cases e <;> rfl
      | zoned a =>
        cases e with
        | utc t => rfl
        | zoned b => exact absurd ⟨a, b, rfl, rfl, rfl, rfl⟩ h

theorem excludedRanges_inside (hwindows : ∀ w ∈ site.windows, w.start < w.stop)
    (h : Forward site.zone start stop) :
    ∀ r ∈ excludedRanges site start stop key,
      start.instant site.zone ≤ r.1.instant site.zone ∧
        r.1.instant site.zone ≤ r.2.instant site.zone ∧
          r.2.instant site.zone ≤ stop.instant site.zone := by
  have hmerged : ∀ r ∈ (excludedRanges site start stop key).map (instants site.zone),
      start.instant site.zone ≤ r.1 ∧ r.1 ≤ r.2 ∧ r.2 ≤ stop.instant site.zone := by
    rw [map_excludedRanges h.comparable]
    refine merge_inside fun r hr => ?_
    obtain ⟨w, hw, rfl⟩ := List.mem_map.mp hr
    obtain ⟨hmem, -, -, hbefore, hafter⟩ := mem_excludedWindows.mp hw
    refine ⟨le_max_right _ _, max_le (le_min ?_ ?_) (le_min ?_ ?_), min_le_right _ _⟩
    · exact (hwindows w hmem).le
    · exact hbefore.le
    · exact hafter.le
    · exact h.2
  exact fun r hr => hmerged _ (List.mem_map_of_mem hr)

/-- The lengths of the ranges, as instants, measure what is excluded. -/
theorem sum_instants (hwindows : ∀ w ∈ site.windows, w.start < w.stop)
    (h : Forward site.zone start stop) :
    ((excludedRanges site start stop key).map fun r =>
        r.2.instant site.zone - r.1.instant site.zone).sum =
      (excludedInstants site start stop key).card := by
  have hinside : ∀ r ∈ (excludedRanges site start stop key).map (instants site.zone),
      start.instant site.zone ≤ r.1 ∧ r.1 ≤ r.2 ∧ r.2 ≤ stop.instant site.zone := by
    intro r hr
    obtain ⟨r', hr', rfl⟩ := List.mem_map.mp hr
    exact excludedRanges_inside hwindows h r' hr'
  have hsum := sum_lengths hinside (excludedRanges_apart h.comparable key)
  rw [List.map_map] at hsum
  refine hsum.trans (congrArg (fun s : Finset Instant => (s.card : ℤ)) ?_)
  ext t
  rw [excludedInstants, Finset.mem_filter, Finset.mem_filter, Finset.mem_Ico, within_map_iff,
    within_excludedRanges h.comparable]
  exact ⟨fun ht => ⟨ht.1, ht.2.2.2⟩, fun ht => ⟨ht.1, ht.1.1, ht.1.2, ht.2⟩⟩

/-! ## A range that is excluded whole -/

/-- Two ranges would leave a gap between them. -/
theorem single_of_covered (hwindows : ∀ w ∈ site.windows, w.start < w.stop)
    (h : Forward site.zone start stop)
    (hcovered : ∀ t, start.instant site.zone ≤ t → t < stop.instant site.zone →
      excludedAt site key t) {r : Aware × Aware} {rs : List (Aware × Aware)}
    (hranges : excludedRanges site start stop key = r :: rs) : rs = [] := by
  cases rs with
  | nil => rfl
  | cons r' rs =>
    have hinside := @excludedRanges_inside site start stop key hwindows h
    have hapart := excludedRanges_apart h.comparable key
    have hunion := (within_excludedRanges h.comparable key (r.2.instant site.zone)).mpr
    rw [hranges] at hinside hapart hunion
    rw [List.map_cons, List.pairwise_cons] at hapart
    have hr := hinside r (.head _)
    have hr' := hinside r' (.tail _ (.head _))
    have hgap : r.2.instant site.zone < r'.1.instant site.zone := hapart.1 _ (.head _)
    have hbefore : r.2.instant site.zone < stop.instant site.zone :=
      (hgap.trans_le hr'.2.1).trans_le hr'.2.2
    have hfrom : start.instant site.zone ≤ r.2.instant site.zone := hr.1.trans hr.2.1
    obtain ⟨q, hq, hle, hlt⟩ := hunion ⟨hfrom, hbefore, hcovered _ hfrom hbefore⟩
    rcases List.mem_cons.mp hq with rfl | hq
    · exact absurd hlt (lt_irrefl _)
    · exact absurd hle (not_le.mpr (hapart.1 _ (List.mem_map_of_mem hq)))

theorem single_of_mem (hwindows : ∀ w ∈ site.windows, w.start < w.stop)
    (h : Forward site.zone start stop)
    (hmem : (start, stop) ∈ excludedRanges site start stop key) :
    excludedRanges site start stop key = [(start, stop)] := by
  have hcovered : ∀ t, start.instant site.zone ≤ t → t < stop.instant site.zone →
      excludedAt site key t := fun t hfrom huntil =>
    ((within_excludedRanges h.comparable key t).mp ⟨_, hmem, hfrom, huntil⟩).2.2
  cases hranges : excludedRanges site start stop key with
  | nil => rw [hranges] at hmem; cases hmem
  | cons r rs =>
    have hnil := single_of_covered hwindows h hcovered hranges
    rw [hranges, hnil] at hmem
    rw [hnil, List.mem_singleton.mp hmem]

/-- The end of the last range, where each window touches it. -/
def lastEnd (site : Site) (stop : Aware) (e : Aware) (ws : List Window) : Aware :=
  ws.foldl (fun e w => .max site.zone e (.min site.zone (.utc w.stop) stop)) e

theorem mergeRanges_ne_nil {r : Aware × Aware} {ws : List Window} :
    mergeRanges site start stop (some r) ws ≠ [] := by
  induction ws generalizing r with
  | nil => simp [mergeRanges]
  | cons w ws ih =>
    obtain ⟨s, e⟩ := r
    rw [mergeRanges]
    split
    · simp
    · exact ih

theorem eq_of_mergeRanges_single {s e : Aware} {r : Aware × Aware} {ws : List Window}
    (h : mergeRanges site start stop (some (s, e)) ws = [r]) :
    r = (s, lastEnd site stop e ws) := by
  induction ws generalizing e with
  | nil => exact (List.singleton_inj.mp h).symm
  | cons w ws ih =>
    rw [mergeRanges] at h
    split at h
    · exact absurd (List.cons.inj h).2 mergeRanges_ne_nil
    · exact ih h

variable {b : ℤ}

/-- What a window contributes to the end: the bound itself only if it runs past it. -/
theorem min_stop_cases (w : Window) :
    (.zoned b : Aware).instant site.zone < w.stop ∧
        Aware.min site.zone (.utc w.stop) (.zoned b) = .zoned b ∨
      w.stop ≤ (.zoned b : Aware).instant site.zone ∧
        Aware.min site.zone (.utc w.stop) (.zoned b) = .utc w.stop := by
  have hlt : Aware.lt site.zone (.zoned b) (.utc w.stop) =
      decide ((Aware.zoned b).instant site.zone < w.stop) := lt_of_utc (.inr ⟨_, rfl⟩)
  rw [Aware.min, hlt]
  by_cases h : (Aware.zoned b).instant site.zone < w.stop
  · exact .inl ⟨h, if_pos (decide_eq_true h)⟩
  · exact .inr ⟨not_lt.mp h, if_neg (by simpa using h)⟩

theorem max_utc (t : Instant) (e : Aware) : Aware.max site.zone (.utc t) e =
    if t < e.instant site.zone then e else .utc t := by
  have hlt : Aware.lt site.zone (.utc t) e = decide (t < e.instant site.zone) :=
    lt_of_utc (.inl ⟨_, rfl⟩)
  rw [Aware.max, hlt]
  simp

/-- Once the end is the bound, or at its instant, it stays. -/
theorem lastEnd_of_reached {e : Aware} (he : e = .zoned b ∨
    e = .utc ((Aware.zoned b).instant site.zone)) (ws : List Window) :
    lastEnd site (.zoned b) e ws = e := by
  induction ws with
  | nil => rfl
  | cons w ws ih =>
    have hstays : Aware.max site.zone e (Aware.min site.zone (.utc w.stop) (.zoned b)) = e := by
      rcases he with rfl | rfl
      · rcases @min_stop_cases site b w with ⟨-, hmin⟩ | ⟨hle, hmin⟩
        · rw [hmin, Aware.max, if_neg (by simp [Aware.lt])]
        · have hlt : Aware.lt site.zone (.zoned b) (.utc w.stop) = false := by
            rw [lt_of_utc (.inr ⟨_, rfl⟩), decide_eq_false_iff_not]
            exact not_lt.mpr hle
          rw [hmin, Aware.max, hlt, if_neg Bool.false_ne_true]
      · rw [max_utc, if_neg]
        rcases @min_stop_cases site b w with ⟨-, hmin⟩ | ⟨hle, hmin⟩
        · rw [hmin]
          exact lt_irrefl _
        · rw [hmin]
          exact not_lt.mpr hle
    rw [lastEnd, List.foldl_cons, hstays]
    exact ih

/-- The last end is the bound where the first window that reaches it runs past it. -/
theorem lastEnd_eq_iff {t : Instant} (ht : t < (Aware.zoned b).instant site.zone)
    (ws : List Window) : lastEnd site (.zoned b) (.utc t) ws = .zoned b ↔
      ∃ w ∈ ws.find? fun w => (Aware.zoned b).instant site.zone ≤ w.stop,
        (Aware.zoned b).instant site.zone < w.stop := by
  induction ws generalizing t with
  | nil => simp [lastEnd]
  | cons w ws ih =>
    rw [lastEnd, List.foldl_cons, max_utc, List.find?_cons]
    change lastEnd site (.zoned b) _ ws = _ ↔ _
    rcases @min_stop_cases site b w with ⟨hpast, hmin⟩ | ⟨hle, hmin⟩
    · rw [hmin, if_pos ht, lastEnd_of_reached (.inl rfl), decide_eq_true hpast.le]
      simp [hpast]
    · rw [hmin]
      change lastEnd site (.zoned b) (if t < w.stop then _ else _) ws = _ ↔ _
      by_cases hreached : (Aware.zoned b).instant site.zone ≤ w.stop
      · have heq : w.stop = (Aware.zoned b).instant site.zone := le_antisymm hle hreached
        rw [if_pos (heq ▸ ht), heq, lastEnd_of_reached (.inr rfl)]
        simp [heq]
      · rw [decide_eq_false hreached]
        split_ifs
        · exact ih (not_le.mp hreached)
        · exact ih ht

variable {a : ℤ}

/-- The bounds are the ends of a range exactly where the windows span it. -/
theorem mem_excludedRanges_iff (hwindows : ∀ w ∈ site.windows, w.start < w.stop)
    (h : Forward site.zone (.zoned a) (.zoned b)) :
    ((.zoned a, .zoned b) : Aware × Aware) ∈ excludedRanges site (.zoned a) (.zoned b) key ↔
      Spanned site (.zoned a) (.zoned b) key := by
  have hcovered : ((.zoned a, .zoned b) : Aware × Aware) ∈
      excludedRanges site (.zoned a) (.zoned b) key →
        ∀ t, (Aware.zoned a).instant site.zone ≤ t → t < (Aware.zoned b).instant site.zone →
          excludedAt site key t := fun hmem t hfrom huntil =>
    ((within_excludedRanges h.comparable key t).mp ⟨_, hmem, hfrom, huntil⟩).2.2
  cases hws : excludedWindows site (.zoned a) (.zoned b) key with
  | nil => simp [Spanned, excludedRanges, hws, mergeRanges]
  | cons w ws =>
    have hbefore : w.start < (Aware.zoned b).instant site.zone :=
      (mem_excludedWindows.mp (hws ▸ List.mem_cons_self)).2.2.2.1
    have hranges : excludedRanges site (.zoned a) (.zoned b) key =
        mergeRanges site (.zoned a) (.zoned b)
          (some (Aware.max site.zone (.utc w.start) (.zoned a),
            Aware.min site.zone (.utc w.stop) (.zoned b))) ws := by
      rw [excludedRanges, hws, mergeRanges]
    have hend : lastEnd site (.zoned b) (Aware.min site.zone (.utc w.stop) (.zoned b)) ws =
        .zoned b ↔ ∃ w' ∈ (w :: ws).find? fun w => (Aware.zoned b).instant site.zone ≤ w.stop,
          (Aware.zoned b).instant site.zone < w'.stop := by
      have hmin : (Aware.min site.zone (.utc w.stop) (.zoned b)).instant site.zone =
          min w.stop ((Aware.zoned b).instant site.zone) :=
        instant_min (lt_of_utc (.inr ⟨_, rfl⟩))
      have hearlier : min w.stop ((Aware.zoned b).instant site.zone) - 1 <
          (Aware.zoned b).instant site.zone :=
        (sub_one_lt _).trans_le (min_le_right _ _)
      rw [← lastEnd_eq_iff hearlier, lastEnd, lastEnd, List.foldl_cons, max_utc, hmin,
        if_pos (sub_one_lt _)]
    have hstart : Aware.max site.zone (.utc w.start) (.zoned a) = .zoned a ↔
        w.start < (Aware.zoned a).instant site.zone := by
      rw [max_utc]
      split_ifs with hlt
      · simp [hlt]
      · simp [hlt]
    rw [Spanned, hws, ← hend]
    constructor
    · intro hmem
      have hsingle := single_of_mem hwindows h hmem
      have hends := eq_of_mergeRanges_single (hranges.symm.trans hsingle)
      rw [Prod.mk.injEq] at hends
      exact ⟨⟨w, rfl, hstart.mp hends.1.symm⟩, hcovered hmem, hends.2.symm⟩
    · rintro ⟨⟨w', hw', hlt⟩, hcover, hlast⟩
      cases hw'
      cases hall : excludedRanges site (.zoned a) (.zoned b) key with
      | nil => exact absurd (hranges.symm.trans hall) mergeRanges_ne_nil
      | cons r rs =>
        have hnil := single_of_covered hwindows h hcover hall
        rw [hnil] at hall ⊢
        rw [eq_of_mergeRanges_single (hranges.symm.trans hall), hlast, hstart.mpr hlt]
        exact List.mem_singleton_self _

/-! ## The measure -/

/-- The excluded time is the measure of what is excluded, and the clock's change where the windows
span the range. -/
theorem excludedTime_eq (hwindows : ∀ w ∈ site.windows, w.start < w.stop)
    (h : Forward site.zone start stop) :
    excludedTime site start stop key =
      (excludedInstants site start stop key).card + drift site key start stop := by
  have hends : ∀ r ∈ excludedRanges site start stop key, UtcOr start r.1 ∧ UtcOr stop r.2 :=
    ends_mergeRanges (by simp)
  have hsum := @sum_instants site start stop key hwindows h
  by_cases hwhole : ∃ a b, start = .zoned a ∧ stop = .zoned b ∧
      (start, stop) ∈ excludedRanges site start stop key
  · obtain ⟨a, b, rfl, rfl, hmem⟩ := hwhole
    have hsingle := single_of_mem hwindows h hmem
    rw [hsingle] at hsum
    rw [excludedTime, hsingle, ← hsum, drift, if_pos ((mem_excludedRanges_iff hwindows h).mp hmem)]
    simp [Aware.sub, Aware.instant]
  · have hdrift : drift site key start stop = 0 := by
      cases start with
      | utc t => rfl
      | zoned a =>
        cases stop with
        | utc t => rfl
        | zoned b =>
          rw [drift, if_neg]
          exact fun hspanned => hwhole
            ⟨a, b, rfl, rfl, (mem_excludedRanges_iff hwindows h).mpr hspanned⟩
    rw [hdrift, add_zero, ← hsum, excludedTime]
    refine congrArg List.sum (List.map_congr_left fun r hr => sub_eq (hends r hr).1 (hends r hr).2 ?_)
    rintro ⟨a, b, hstart, hstop, hs, he⟩
    have hr' : r = (start, stop) := Prod.ext hs he
    exact hwhole ⟨a, b, hstart, hstop, hr' ▸ hr⟩

theorem card_excludedInstants_add {cut : Aware}
    (hcut : start.instant site.zone ≤ cut.instant site.zone)
    (hstop : cut.instant site.zone ≤ stop.instant site.zone) :
    (excludedInstants site start cut key).card + (excludedInstants site cut stop key).card =
      (excludedInstants site start stop key).card := by
  rw [excludedInstants, excludedInstants, excludedInstants, ← Finset.Ico_union_Ico_eq_Ico hcut hstop,
    Finset.filter_union, Finset.card_union_of_disjoint]
  exact Finset.disjoint_filter_filter (Finset.Ico_disjoint_Ico_consecutive _ _ _)

/-- The monitor is excluded from the day before the clock goes forward to the day after. -/
def springSite : Site :=
  { berlinSite with
    windows := [⟨['s'], (20176 * 1440) * minute, (20179 * 1440) * minute, true⟩] }

end CwStation.Heartbeat
