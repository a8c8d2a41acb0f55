import CwStation.Verification.Heartbeats.Keeping
import Mathlib.Data.Int.ConditionallyCompleteOrder
import Mathlib.Data.Int.Interval

/-! # A monitor without failures

A day is shown whole when its minutes are no fewer than the intervals that the clock gives it. -/

namespace CwStation.Heartbeat

variable {site : Site}

/-! ## Minutes -/

/-- The whole minutes between a day's bounds, since 1970. -/
noncomputable def minutesOf (site : Site) (day : Day) : Finset ℤ :=
  Finset.Ico (-(-site.zone.midnight day / minute)) (-(-site.zone.midnight (day + 1) / minute))

/-- Those that have the day's date. -/
noncomputable def datedMinutes (site : Site) (day : Day) : Finset ℤ :=
  (minutesOf site day).filter fun m => site.zone.localDate (m * minute) = day

/-- Those in an excluded window. -/
noncomputable def excludedMinutes (site : Site) (key : Str) (day : Day) : Finset ℤ :=
  (minutesOf site day).filter fun m => excludedAt site key (m * minute)

/-- What the clock makes of a day up to a moment, without excluded windows. -/
def clockTime (site : Site) (key : Str) (day : Day) (t : Instant) : ℤ :=
  (if site.zone.midnight (day + 1) ≤ t then dayLength else t - site.zone.midnight day) -
    excludedTime site (dayBounds day).1 (Aware.min site.zone (dayBounds day).2 (.utc t)) key

/-- A day has a minute that is not excluded, and no fewer than the intervals on the clock. -/
def LongEnough (site : Site) (key : Str) (day : Day) (t : Instant) : Prop :=
  (excludedMinutes site key day).card < (datedMinutes site day).card ∧
    clockTime site key day t / (site.interval * second) + (excludedMinutes site key day).card ≤
      (datedMinutes site day).card

/-- Nothing of the day, by its date or by its bounds, is before the epoch. -/
def Since (site : Site) (epoch : Instant) (day : Day) : Prop :=
  ∀ t, site.zone.localDate t = day ∨
    site.zone.midnight day ≤ t ∧ t < site.zone.midnight (day + 1) → epoch ≤ t

/-- The beats of a monitor that was `ok` in every minute from its epoch on. One beat is recorded
for a minute, at the minute. -/
structure Flawless (site : Site) (key : Str) (epoch now : Instant) (beats : List Beat) : Prop where
  start : epochStart site key = some epoch
  whole : ∀ b ∈ beats, b.monitorKey = key → minute ∣ b.timestamp
  unique : ((beats.filter fun b => b.monitorKey = key).map Beat.timestamp).Nodup
  past : ∀ b ∈ beats, b.timestamp ≤ now
  beat : ∀ m : ℤ, epoch ≤ m * minute → m * minute ≤ now →
    ∃ b ∈ beats, b.monitorKey = key ∧ b.timestamp = m * minute ∧ b.status = .ok

theorem minute_pos' : 0 < minute := by decide

theorem mem_minutesOf {day : Day} {m : ℤ} : m ∈ minutesOf site day ↔
    site.zone.midnight day ≤ m * minute ∧ m * minute < site.zone.midnight (day + 1) := by
  have hle : ∀ t : Instant, -(-t / minute) ≤ m ↔ t ≤ m * minute := by
    intro t
    rw [neg_le, Int.le_ediv_iff_mul_le minute_pos', neg_mul, neg_le_neg_iff]
  rw [minutesOf, Finset.mem_Ico, hle, ← not_le, hle, not_le]

theorem mem_datedMinutes {day : Day} {m : ℤ} : m ∈ datedMinutes site day ↔
    (site.zone.midnight day ≤ m * minute ∧ m * minute < site.zone.midnight (day + 1)) ∧
      site.zone.localDate (m * minute) = day := by
  rw [datedMinutes, Finset.mem_filter, mem_minutesOf]

theorem mem_excludedMinutes {key : Str} {day : Day} {m : ℤ} : m ∈ excludedMinutes site key day ↔
    (site.zone.midnight day ≤ m * minute ∧ m * minute < site.zone.midnight (day + 1)) ∧
      excludedAt site key (m * minute) := by
  rw [excludedMinutes, Finset.mem_filter, mem_minutesOf]

/-! ## Flawless monitors -/

section Flawless

variable {key : Str} {epoch now : Instant} {beats : List Beat} {day : Day}

theorem LongEnough.lt {t : Instant} (h : LongEnough site key day t) :
    site.zone.midnight day < site.zone.midnight (day + 1) := by
  have hpos : 0 < (datedMinutes site day).card := Nat.zero_lt_of_lt h.1
  obtain ⟨m, hm⟩ := Finset.card_pos.mp hpos
  obtain ⟨⟨hstart, hstop⟩, -⟩ := mem_datedMinutes.mp hm
  exact hstart.trans_lt hstop

theorem max_dayStart (hepoch : epoch ≤ site.zone.midnight day) :
    Aware.max site.zone (dayBounds day).1 (.utc epoch) = (dayBounds day).1 := by
  have hlt : ¬Aware.lt site.zone (dayBounds day).1 (.utc epoch) = true := by
    rw [lt_of_utc (.inr ⟨epoch, rfl⟩), decide_eq_true_eq, not_lt]
    exact hepoch
  rw [Aware.max, if_neg hlt]

theorem min_dayEnd {t : Instant} (hover : site.zone.midnight (day + 1) ≤ t) :
    Aware.min site.zone (dayBounds day).2 (.utc t) = (dayBounds day).2 := by
  have hlt : ¬Aware.lt site.zone (.utc t) (dayBounds day).2 = true := by
    rw [lt_of_utc (.inl ⟨t, rfl⟩), decide_eq_true_eq, not_lt]
    exact hover
  rw [Aware.min, if_neg hlt]

theorem sub_dayStart (t : Instant) :
    Aware.sub site.zone (Aware.min site.zone (dayBounds day).2 (.utc t)) (dayBounds day).1 =
      if site.zone.midnight (day + 1) ≤ t then dayLength else t - site.zone.midnight day := by
  have hlt : Aware.lt site.zone (.utc t) (dayBounds day).2 =
      decide (t < site.zone.midnight (day + 1)) := lt_of_utc (.inl ⟨t, rfl⟩)
  rw [Aware.min, hlt]
  by_cases hover : site.zone.midnight (day + 1) ≤ t
  · rw [if_neg (by simpa using hover), if_pos hover]
    change (day + 1) * dayLength - day * dayLength = dayLength
    ring
  · rw [if_pos (by simpa using hover), if_neg hover]
    rfl

/-- What is expected of a day that is long enough. -/
theorem LongEnough.expected_le {t : Instant} (h : LongEnough site key day t)
    (hsince : Since site epoch day) :
    expectedIntervalsForDay site t day key (some epoch) ≤
      (datedMinutes site day).card - (excludedMinutes site key day).card := by
  have hstart := max_dayStart (hsince _ (.inr ⟨le_rfl, h.lt⟩))
  obtain ⟨hpos, hlong⟩ := h
  rw [clockTime, ← sub_dayStart] at hlong
  simp only [expectedIntervalsForDay, hstart]
  split
  · rw [max_le_iff]
    omega
  · omega

/-- What is expected of a day that is over. -/
theorem expected_over {t : Instant} (hepoch : epoch ≤ site.zone.midnight day)
    (hover : site.zone.midnight (day + 1) ≤ t) :
    expectedIntervalsForDay site t day key (some epoch) =
      max (clockTime site key day t / (site.interval * second)) 0 := by
  have hwall : Aware.lt site.zone (dayBounds day).1 (dayBounds day).2 = true := by
    refine decide_eq_true (mul_lt_mul_of_pos_right (Int.lt_succ day) ?_)
    decide
  simp only [expectedIntervalsForDay, max_dayStart hepoch]
  rw [clockTime, ← sub_dayStart, min_dayEnd hover, if_pos hwall]

/-- A day that is over is as long from then on. -/
theorem LongEnough.over {t t' : Instant} (h : LongEnough site key day t)
    (hover : site.zone.midnight (day + 1) ≤ t) (hover' : site.zone.midnight (day + 1) ≤ t') :
    LongEnough site key day t' := by
  rw [LongEnough, clockTime, if_pos hover, min_dayEnd hover] at h
  rw [LongEnough, clockTime, if_pos hover', min_dayEnd hover']
  exact h

/-- From the epoch on every beat is `ok`: a minute has one beat. -/
theorem Flawless.ok (h : Flawless site key epoch now beats) {b : Beat} (hb : b ∈ beats)
    (hkey : b.monitorKey = key) (hepoch : epoch ≤ b.timestamp) : b.status = .ok := by
  obtain ⟨m, hm⟩ := h.whole b hb hkey
  rw [mul_comm] at hm
  have hpast := h.past b hb
  rw [hm] at hepoch hpast
  obtain ⟨b', hb', hkey', htime, hok⟩ := h.beat m hepoch hpast
  have hmem : ∀ x ∈ beats, x.monitorKey = key → x ∈ beats.filter fun b => b.monitorKey = key :=
    fun x hx hxkey => List.mem_filter.mpr ⟨hx, decide_eq_true hxkey⟩
  have heq : b = b' := List.inj_on_of_nodup_map h.unique (hmem b hb hkey) (hmem b' hb' hkey')
    (hm.trans htime.symm)
  rw [heq]
  exact hok

theorem Flawless.allOk (h : Flawless site key epoch now beats) (hsince : Since site epoch day) :
    AllOk site key day beats := by
  intro b hb hday
  rcases hday with hdate | hbounds
  · obtain ⟨hkey, hdate⟩ := of_decide_eq_true hdate
    exact h.ok hb hkey (hsince _ (.inl hdate))
  · obtain ⟨hkey, hbounds⟩ := of_decide_eq_true hbounds
    exact h.ok hb hkey (hsince _ (.inr hbounds))

/-- The minute of a beat. -/
def Beat.minuteOf (b : Beat) : ℤ := b.timestamp / minute

/-- A day that is over has a beat for each minute of it. -/
theorem Flawless.card_dated_le (h : Flawless site key epoch now beats) (hsince : Since site epoch day)
    (hover : site.zone.midnight (day + 1) ≤ now) :
    ((datedMinutes site day).card : ℤ) ≤ countStatus .ok (beats.filter (datedOn site key day)) := by
  have hsub : datedMinutes site day ⊆
      (((beats.filter (datedOn site key day)).filter fun b => b.status = .ok).map
        Beat.minuteOf).toFinset := by
    intro m hm
    obtain ⟨hbounds, hdate⟩ := mem_datedMinutes.mp hm
    obtain ⟨b, hb, hkey, htime, hok⟩ := h.beat m (hsince _ (.inr hbounds)) (hbounds.2.le.trans hover)
    have hminute : b.minuteOf = m := by
      rw [Beat.minuteOf, htime]
      exact Int.mul_ediv_cancel m (ne_of_gt minute_pos')
    rw [← htime] at hbounds hdate
    rw [List.mem_toFinset, ← hminute]
    refine List.mem_map_of_mem (List.mem_filter.mpr ⟨List.mem_filter.mpr ⟨hb, ?_⟩, decide_eq_true hok⟩)
    exact decide_eq_true ⟨decide_eq_true ⟨hkey, hdate⟩, decide_eq_true ⟨hkey, hbounds⟩⟩
  have hcard := (Finset.card_le_card hsub).trans (List.toFinset_card_le _)
  rw [List.length_map, ← List.countP_eq_length_filter] at hcard
  exact Int.ofNat_le.mpr hcard

/-- A minute has no more than one beat. -/
theorem Flawless.countStatus_le (h : Flawless site key epoch now beats) {p : Beat → Bool}
    {minutes : Finset ℤ} (hp : ∀ b ∈ beats, p b = true → b.monitorKey = key)
    (hminute : ∀ m, ∀ b ∈ beats, p b = true → b.timestamp = m * minute → m ∈ minutes) :
    countStatus .ok (beats.filter p) ≤ minutes.card := by
  have hmul : ∀ b ∈ (beats.filter p).filter (fun b => b.status = .ok),
      b.minuteOf * minute = b.timestamp := by
    intro b hb
    obtain ⟨hmem, hpb⟩ := List.mem_filter.mp (List.mem_of_mem_filter hb)
    exact Int.ediv_mul_cancel (h.whole b hmem (hp b hmem hpb))
  have hsublist : ((beats.filter p).filter fun b => b.status = .ok).Sublist
      (beats.filter fun b => b.monitorKey = key) := by
    have hfilter : beats.filter p = (beats.filter fun b => b.monitorKey = key).filter p := by
      rw [List.filter_filter]
      apply List.filter_congr
      intro b hb
      cases hpb : p b with
      | false => rfl
      | true => simp [hp b hb hpb]
    rw [hfilter]
    exact List.filter_sublist.trans List.filter_sublist
  have htimes := h.unique.sublist (hsublist.map Beat.timestamp)
  have hnodup : (((beats.filter p).filter fun b => b.status = .ok).map Beat.minuteOf).Nodup := by
    refine (List.Nodup.of_map _ htimes).map_on fun b hb b' hb' heq => ?_
    refine List.inj_on_of_nodup_map htimes hb hb' ?_
    rw [← hmul b hb, ← hmul b' hb', heq]
  have hsub : (((beats.filter p).filter fun b => b.status = .ok).map Beat.minuteOf).toFinset ⊆
      minutes := by
    intro m hm
    obtain ⟨b, hb, rfl⟩ := List.mem_map.mp (List.mem_toFinset.mp hm)
    obtain ⟨hmem, hpb⟩ := List.mem_filter.mp (List.mem_of_mem_filter hb)
    exact hminute _ b hmem hpb (hmul b hb).symm
  have hcard := Finset.card_le_card hsub
  rw [List.toFinset_card_of_nodup hnodup, List.length_map, ← List.countP_eq_length_filter] at hcard
  exact Int.ofNat_le.mpr hcard

theorem Flawless.excluded_le (h : Flawless site key epoch now beats) :
    countStatus .ok (beats.filter (excludedOn site key day)) ≤ (excludedMinutes site key day).card := by
  refine h.countStatus_le (fun b _ hb => (of_decide_eq_true (of_decide_eq_true hb).1).1) ?_
  intro m b _ hb htime
  obtain ⟨hbounds, hwindow⟩ := of_decide_eq_true hb
  rw [mem_excludedMinutes, ← htime]
  exact ⟨(of_decide_eq_true hbounds).2, hwindow⟩

/-- What a history keeps of a day that is over. -/
theorem Flawless.kept_ge {events : List Event} (h : Flawless site key epoch now (beatsOf events))
    (hsince : Since site epoch day) (hover : site.zone.midnight (day + 1) ≤ now) :
    ((datedMinutes site day).card : ℤ) - (excludedMinutes site key day).card ≤
      kept site key day (history site ⟨[], []⟩ events) := by
  refine le_trans ?_ (kept_history key day ⟨[], []⟩ events)
  have hdated := h.card_dated_le hsince hover
  have hexcluded := @Flawless.excluded_le site key epoch now _ day h
  have hstored : stored [] key day .ok = 0 := rfl
  simp only [kept, unpruned, List.nil_append, hstored]
  linarith

/-- The map shows a day whole that is long enough. -/
theorem Flawless.shown {events : List Event} (h : Flawless site key epoch now (beatsOf events))
    (hover : site.zone.midnight (day + 1) ≤ now) (hsince : Since site epoch day)
    (hlong : LongEnough site key day now) {start stop : Day} (hstart : start ≤ day)
    (hstop : day ≤ stop) :
    (dailyUptimeMap site now (history site ⟨[], []⟩ events) key start stop).lookup day =
      some (some 100) := by
  have hkept := h.kept_ge hsince hover
  have hwritten : Written site key day Set.univ (history site ⟨[], []⟩ events) :=
    written_history (fun row hrow => by cases hrow) (h.allOk hsince) fun t _ _ => Set.mem_univ t
  have hok : AllOk site key day (history site ⟨[], []⟩ events).beats :=
    fun b hb => h.allOk hsince b (beats_history_subset _ _ hb)
  have hread := @kept_le_dayCounts site (history site ⟨[], []⟩ events) key start stop day hstart hstop
  have hpos : ((excludedMinutes site key day).card : ℤ) < (datedMinutes site day).card :=
    Int.ofNat_lt.mpr hlong.1
  rw [lookup_dailyUptimeMap hstart hstop, dayUptime_whole (Prod.ext rfl (dayCounts_ok hwritten hok))]
  · linarith
  · rw [h.start]
    exact (hlong.expected_le hsince).trans (hkept.trans hread)

/-- So does the row of a day that is folded, where no part of the day was folded too early. -/
theorem Flawless.row_whole {events : List Event} (h : Flawless site key epoch now (beatsOf events))
    (hover : site.zone.midnight (day + 1) ≤ now) (hsince : Since site epoch day)
    (hlong : LongEnough site key day now)
    (hfolds : ∀ t, .pruned t ∈ events → t < site.zone.midnight (day + 1) →
      FoldsAt site key day (beatsOf events) t → LongEnough site key day t)
    (hfolded : ¬∃ b ∈ (history site ⟨[], []⟩ events).beats, onDate site key day b = true) :
    (Table.get Daily.key (history site ⟨[], []⟩ events).daily (key, day)).map Daily.uptimePct =
      some 100 := by
  have hkept := h.kept_ge hsince hover
  have hwritten : Written site key day {t | LongEnough site key day t} (history site ⟨[], []⟩ events) := by
    refine written_history (fun row hrow => by cases hrow) (h.allOk hsince) fun t ht hold => ?_
    rcases lt_or_ge t (site.zone.midnight (day + 1)) with hearly | hlate
    · exact hfolds t ht hearly hold
    · exact hlong.over hover hlate
  have hpos := hlong.1
  -- nothing is left of the date, so that the row has all that is kept
  have hleft : countStatus .ok ((history site ⟨[], []⟩ events).beats.filter (datedOn site key day)) =
      0 := by
    apply countStatus_eq_zero
    intro b hb hdated
    exact absurd ⟨b, hb, (of_decide_eq_true hdated).1⟩ hfolded
  have hexcluded := countStatus_nonneg .ok
    ((history site ⟨[], []⟩ events).beats.filter (excludedOn site key day))
  rw [kept, hleft, stored] at hkept
  cases hget : Table.get Daily.key (history site ⟨[], []⟩ events).daily (key, day) with
  | none =>
    rw [hget] at hkept
    simp only [Option.map_none, Option.getD_none] at hkept
    omega
  | some row =>
    rw [hget] at hkept
    change _ ≤ row.okCount + 0 - _ at hkept
    obtain ⟨hfail, t, ht, hpct⟩ := hwritten row hget
    have hexpected : expectedIntervalsForDay site t day key (some epoch) ≤
        (datedMinutes site day).card - (excludedMinutes site key day).card :=
      LongEnough.expected_le ht hsince
    have hmax : max (row.okCount + row.failCount)
        (expectedIntervalsForDay site t day key (epochStart site key)) = row.okCount := by
      rw [hfail, add_zero, h.start]
      apply max_eq_left
      omega
    have hplaces : roundDigits 100 3 = 100 := by decide +kernel
    have hrow : 0 < row.okCount := by omega
    simp only [hmax] at hpct
    rw [Option.map_some, hpct, if_pos hrow.ne', percent_self hrow hplaces]

/-- Where the bounds of a day have the beats of its date, they have its minutes. -/
theorem Flawless.datedMinutes_eq (h : Flawless site key epoch now beats)
    (hplaced : AllPlaced site key beats) (hover : site.zone.midnight (day + 1) ≤ now)
    (hsince : Since site epoch day) : datedMinutes site day = minutesOf site day := by
  refine Finset.filter_true_of_mem fun m hm => ?_
  have hbounds := mem_minutesOf.mp hm
  obtain ⟨b, hb, hkey, htime, -⟩ := h.beat m (hsince _ (.inr hbounds)) (hbounds.2.le.trans hover)
  have hin : inBounds site key day b = true := by
    rw [← htime] at hbounds
    exact decide_eq_true ⟨hkey, hbounds⟩
  rw [← onDate_eq_inBounds (hplaced b hb)] at hin
  rw [← htime]
  exact (of_decide_eq_true hin).2

/-- A day has no more beats that count than minutes that are not excluded. -/
theorem Flawless.counted_le (h : Flawless site key epoch now beats) :
    countStatus .ok (beats.filter (countedOn site key day)) ≤
      (minutesOf site day).card - (excludedMinutes site key day).card := by
  have hcounted : ∀ b, countedOn site key day b = true → b.monitorKey = key ∧
      (site.zone.midnight day ≤ b.timestamp ∧ b.timestamp < site.zone.midnight (day + 1)) ∧
        ¬excludedAt site key b.timestamp := by
    intro b hb
    rw [countedOn, counted, decide_eq_true_eq] at hb
    exact ⟨hb.1, ⟨hb.2.1, hb.2.2.1⟩, hb.2.2.2⟩
  have hle : countStatus .ok (beats.filter (countedOn site key day)) ≤
      ((minutesOf site day).filter fun m => ¬excludedAt site key (m * minute)).card := by
    refine h.countStatus_le (fun b _ hb => (hcounted b hb).1) fun m b _ hb htime => ?_
    obtain ⟨-, hbounds, hfree⟩ := hcounted b hb
    rw [Finset.mem_filter, mem_minutesOf, ← htime]
    exact ⟨hbounds, hfree⟩
  have hsplit : (excludedMinutes site key day).card +
      ((minutesOf site day).filter fun m => ¬excludedAt site key (m * minute)).card =
        (minutesOf site day).card := Finset.card_filter_add_card_filter_not _
  omega

/-- Where the dates have the bounds' beats, a day that is shown whole was long enough, unless there
are so many intervals that one is rounded away. -/
theorem Flawless.longEnough {events : List Event} (h : Flawless site key epoch now (beatsOf events))
    (hplaced : AllPlaced site key (beatsOf events)) (hover : DayOver site now day)
    (hsince : Since site epoch day) {start stop : Day} (hstart : start ≤ day) (hstop : day ≤ stop)
    (hintervals : clockTime site key day now / (site.interval * second) ≤ 17280)
    (hwhole : (dailyUptimeMap site now (history site ⟨[], []⟩ events) key start stop).lookup day =
      some (some 100)) : LongEnough site key day now := by
  have htotal := fun status => @dayTotal_history site key ⟨[], []⟩ events hplaced day status
  have hok : dayTotal site (history site ⟨[], []⟩ events) key day .ok =
      countStatus .ok ((beatsOf events).filter (countedOn site key day)) :=
    (htotal .ok).2.trans (zero_add _)
  have hfail : dayTotal site (history site ⟨[], []⟩ events) key day .fail = 0 := by
    refine ((htotal .fail).2.trans (zero_add _)).trans ((h.allOk hsince).fails_eq_zero ?_)
    intro b hb
    rw [countedOn, counted, decide_eq_true_eq] at hb
    exact .inr (decide_eq_true ⟨hb.1, hb.2.1, hb.2.2.1⟩)
  have hcounted := @Flawless.counted_le site key epoch now _ day h
  have hnonneg := countStatus_nonneg .ok ((beatsOf events).filter (countedOn site key day))
  rw [lookup_dailyUptimeMap hstart hstop, dayUptime_eq now (htotal .ok).1 hstart hstop, hok, hfail]
    at hwhole
  generalize countStatus .ok ((beatsOf events).filter (countedOn site key day)) = ok at *
  simp only [add_zero, if_neg hover.1.ne, h.start] at hwhole
  split_ifs at hwhole with hday hzero
  · have hpercent := Option.some.inj (Option.some.inj hwhole)
    have hbounded : site.zone.midnight day < site.zone.midnight (day + 1) ∨ ok = 0 := by
      rw [or_iff_not_imp_left]
      intro hempty
      have hcard : minutesOf site day = ∅ := by
        rw [Finset.eq_empty_iff_forall_notMem]
        intro m hm
        have hbounds := mem_minutesOf.mp hm
        exact hempty (hbounds.1.trans_lt hbounds.2)
      rw [hcard, Finset.card_empty] at hcounted
      omega
    have hexpected : site.zone.midnight day < site.zone.midnight (day + 1) →
        expectedIntervalsForDay site now day key (some epoch) =
          max (clockTime site key day now / (site.interval * second)) 0 :=
      fun hlt => expected_over (hsince _ (.inr ⟨le_rfl, hlt⟩)) hover.2
    rcases le_or_gt (expectedIntervalsForDay site now day key (some epoch)) ok with hle | hlt
    · rw [max_eq_left hle] at hzero
      rw [hexpected (hbounded.resolve_right hzero)] at hle
      rw [LongEnough, h.datedMinutes_eq hplaced hover.2 hsince]
      have hclock := (le_max_left _ _).trans hle
      constructor <;> omega
    · have hlost : ok * 17280 ≤ max ok (expectedIntervalsForDay site now day key (some epoch)) *
          17279 := by
        rw [max_eq_right hlt.le]
        rcases hbounded with hbounded | hnone
        · have hmost : expectedIntervalsForDay site now day key (some epoch) ≤ 17280 := by
            rw [hexpected hbounded]
            exact max_le hintervals (by decide)
          omega
        · omega
      have hpos : 0 < max ok (expectedIntervalsForDay site now day key (some epoch)) :=
        lt_max_of_lt_right (hnonneg.trans_lt hlt)
      exact absurd hpercent (percent_lt hpos hlost).ne
  all_goals simp at hwhole

/-- In every run of the recorder and the pruner, and in every zone, a day that is long enough is
shown whole, and so is its row once it is folded. Where dates and bounds agree no other day is. -/
theorem flawless_shown_whole {events : List Event} (h : Flawless site key epoch now (beatsOf events))
    (hover : DayOver site now day) (hsince : Since site epoch day) {start stop : Day}
    (hstart : start ≤ day) (hstop : day ≤ stop) :
    (LongEnough site key day now →
      (dailyUptimeMap site now (history site ⟨[], []⟩ events) key start stop).lookup day =
          some (some 100) ∧
        ((∀ t, .pruned t ∈ events → t < site.zone.midnight (day + 1) →
            FoldsAt site key day (beatsOf events) t → LongEnough site key day t) →
          (∃ b ∈ (history site ⟨[], []⟩ events).beats, onDate site key day b = true) ∨
            (Table.get Daily.key (history site ⟨[], []⟩ events).daily (key, day)).map
              Daily.uptimePct = some 100)) ∧
      (AllPlaced site key (beatsOf events) →
        clockTime site key day now / (site.interval * second) ≤ 17280 →
        (dailyUptimeMap site now (history site ⟨[], []⟩ events) key start stop).lookup day =
          some (some 100) → LongEnough site key day now) := by
  refine ⟨fun hlong => ⟨h.shown hover.2 hsince hlong hstart hstop, fun hfolds => ?_⟩, ?_⟩
  · rw [or_iff_not_imp_left]
    exact h.row_whole hover.2 hsince hlong hfolds
  · intro hplaced hintervals
    exact h.longEnough hplaced hover hsince hstart hstop hintervals

end Flawless

/-! ## Days without maintenance -/

theorem card_minutesOf {day : Day}
    (hwhole : minute ∣ site.zone.midnight (day + 1) - site.zone.midnight day) :
    ((minutesOf site day).card : ℤ) =
      (site.zone.midnight (day + 1) - site.zone.midnight day) / minute := by
  obtain ⟨n, hn⟩ := hwhole
  have hlen : 0 ≤ site.zone.midnight (day + 1) - site.zone.midnight day :=
    sub_nonneg.mpr (site.zone.midnights day)
  have hsplit : -site.zone.midnight (day + 1) = -site.zone.midnight day + minute * -n := by linarith
  rw [hn] at hlen
  have hpos : 0 ≤ n := nonneg_of_mul_nonneg_right hlen minute_pos'
  rw [minutesOf, Int.card_Ico, hsplit, Int.add_mul_ediv_left _ _ (ne_of_gt minute_pos'), hn,
    Int.mul_ediv_cancel_left _ (ne_of_gt minute_pos'), Int.toNat_of_nonneg]
  · ring
  · linarith

/-- One interval a minute and no excluded window: a day of whole minutes is long enough when it is
no shorter than 24 hours. -/
theorem longEnough_iff {key : Str} {day : Day} {t : Instant} (hinterval : site.interval = 60)
    (hwindows : ∀ w ∈ site.windows, w.monitorKey = key → w.excludeFromSla = false)
    (hwhole : minute ∣ site.zone.midnight (day + 1) - site.zone.midnight day)
    (hdate : ∀ m ∈ minutesOf site day, site.zone.localDate (m * minute) = day)
    (hover : site.zone.midnight (day + 1) ≤ t) :
    LongEnough site key day t ↔
      dayLength ≤ site.zone.midnight (day + 1) - site.zone.midnight day := by
  have hdated : datedMinutes site day = minutesOf site day := Finset.filter_true_of_mem hdate
  have hexcluded : excludedMinutes site key day = ∅ := by
    rw [excludedMinutes, Finset.filter_eq_empty_iff]
    rintro m - ⟨w, hw, hkey, hsla, -⟩
    rw [hwindows w hw hkey] at hsla
    cases hsla
  have htime : ∀ start stop, excludedTime site start stop key = 0 := by
    intro start stop
    have hnone : excludedWindows site start stop key = [] := by
      rw [List.eq_nil_iff_forall_not_mem]
      intro w hw
      obtain ⟨hmem, hkey, hsla, -⟩ := mem_excludedWindows.mp hw
      rw [hwindows w hmem hkey] at hsla
      cases hsla
    rw [excludedTime, excludedRanges, hnone]
    rfl
  have hcard := card_minutesOf hwhole
  obtain ⟨n, hn⟩ := hwhole
  rw [hn, Int.mul_ediv_cancel_left _ (ne_of_gt minute_pos')] at hcard
  have hclock : dayLength / (site.interval * second) = 1440 := by
    rw [hinterval]
    decide
  have hday : dayLength = minute * 1440 := by decide
  rw [LongEnough, clockTime, htime, if_pos hover, sub_zero, hclock, hdated, hexcluded, hcard, hn,
    hday, Finset.card_empty, mul_le_mul_iff_right₀ minute_pos']
  omega

/-! ## Runs -/

/-- The beat of a minute. -/
def steadyBeat (m : ℤ) : Beat where
  pk := 0
  monitorKey := ['s']
  timestamp := m * minute
  status := .ok
  responseTimeMs := 5

/-- Each minute from one on. -/
def steady (first : ℤ) (n : ℕ) : List Event :=
  (List.range n).map fun i : ℕ => .recorded (steadyBeat (first + i))

theorem beatsOf_steady (first : ℤ) (n : ℕ) (moments : List Instant) :
    beatsOf (steady first n ++ moments.map Event.pruned) =
      (List.range n).map fun i : ℕ => steadyBeat (first + i) := by
  have hprunes : beatsOf (moments.map Event.pruned) = [] := by simp [beatsOf]
  have hbeats : beatsOf (steady first n) = (List.range n).map fun i : ℕ => steadyBeat (first + i) := by
    rw [beatsOf, steady, List.filterMap_map]
    exact congrFun List.filterMap_eq_map _
  rw [beatsOf, List.filterMap_append]
  change beatsOf _ ++ beatsOf _ = _
  rw [hprunes, hbeats, List.append_nil]

theorem flawless_steady {first : ℤ} {n : ℕ} (moments : List Instant)
    (hstart : epochStart site ['s'] = some (first * minute)) :
    Flawless site ['s'] (first * minute) ((first + n - 1) * minute)
      (beatsOf (steady first n ++ moments.map Event.pruned)) := by
  rw [beatsOf_steady]
  refine ⟨hstart, ?_, ?_, ?_, ?_⟩
  · intro b hb _
    obtain ⟨i, -, rfl⟩ := List.mem_map.mp hb
    exact Int.dvd_mul_left _ _
  · have htimes : (((List.range n).map fun i : ℕ => steadyBeat (first + i)).map
        Beat.timestamp).Nodup := by
      rw [List.map_map]
      refine List.nodup_range.map fun i j hij => ?_
      have hminute : first + (i : ℤ) = first + j := Int.eq_of_mul_eq_mul_right (ne_of_gt minute_pos') hij
      omega
    exact htimes.sublist (List.filter_sublist.map _)
  · intro b hb
    obtain ⟨i, hi, rfl⟩ := List.mem_map.mp hb
    have hlt := List.mem_range.mp hi
    have hle : first + (i : ℤ) ≤ first + n - 1 := by omega
    exact mul_le_mul_of_nonneg_right hle minute_pos'.le
  · intro m hm hm'
    have hfirst : first ≤ m := le_of_mul_le_mul_right hm minute_pos'
    have hlast : m ≤ first + n - 1 := le_of_mul_le_mul_right hm' minute_pos'
    refine ⟨steadyBeat m, List.mem_map.mpr ⟨(m - first).toNat, ?_, ?_⟩, rfl, rfl, rfl⟩
    · rw [List.mem_range]
      omega
    · congr 1
      omega

def utcSite : Site where
  zone := .utc
  retentionDays := 7
  interval := 60
  windows := []
  epochs := [(['s'], 0 * minute)]
  interval_pos := minute_pos

theorem utc_midnight (d : Day) : utcSite.zone.midnight d = d * dayLength := sub_zero _

theorem utc_localDate (t : Instant) : utcSite.zone.localDate t = t / dayLength :=
  congrArg (· / dayLength) (add_zero t)

theorem utc_date {t : Instant} {d : Day} (hstart : utcSite.zone.midnight d ≤ t)
    (hstop : t < utcSite.zone.midnight (d + 1)) : utcSite.zone.localDate t = d := by
  rw [utc_midnight] at hstart hstop
  rw [utc_localDate]
  refine le_antisymm (Int.lt_add_one_iff.mp (Int.ediv_lt_of_lt_mul (by decide) hstop)) ?_
  exact Int.le_ediv_of_mul_le (by decide) hstart

/-- Nine days in UTC; the first two are folded at the end. -/
theorem utc_day_whole :
    (dailyUptimeMap utcSite (12960 * minute)
        (history utcSite ⟨[], []⟩ (steady 0 12961 ++ [12960 * minute].map Event.pruned)) ['s'] 0 8).lookup
          1 = some (some 100) ∧
      ((∃ b ∈ (history utcSite ⟨[], []⟩
          (steady 0 12961 ++ [12960 * minute].map Event.pruned)).beats,
            onDate utcSite ['s'] 1 b = true) ∨
        (Table.get Daily.key (history utcSite ⟨[], []⟩
          (steady 0 12961 ++ [12960 * minute].map Event.pruned)).daily (['s'], 1)).map
            Daily.uptimePct = some 100) := by
  have h : Flawless utcSite ['s'] (0 * minute) (12960 * minute)
      (beatsOf (steady 0 12961 ++ [12960 * minute].map Event.pruned)) := by
    simpa using @flawless_steady utcSite 0 12961 [12960 * minute] rfl
  have hstop : utcSite.zone.midnight (1 + 1) ≤ 12960 * minute := by
    rw [utc_midnight]
    decide
  have hsince : Since utcSite (0 * minute) 1 := by
    intro t ht
    rcases ht with hdate | hbounds
    · rw [utc_localDate] at hdate
      have hpos : 0 < dayLength := by decide
      rw [zero_mul]
      by_contra hneg
      have hday := Int.ediv_lt_of_lt_mul hpos ((not_le.mp hneg).trans_eq (zero_mul _).symm)
      rw [hdate] at hday
      exact absurd hday (by decide)
    · refine le_trans ?_ hbounds.1
      rw [utc_midnight]
      decide
  have hlength : utcSite.zone.midnight (1 + 1) - utcSite.zone.midnight 1 = minute * 1440 := by
    rw [utc_midnight, utc_midnight]
    decide
  have hnone : ∀ w ∈ utcSite.windows, w.monitorKey = ['s'] → w.excludeFromSla = false := by
    intro w hw
    cases hw
  have hdate : ∀ m ∈ minutesOf utcSite 1, utcSite.zone.localDate (m * minute) = 1 :=
    fun m hm => utc_date (mem_minutesOf.mp hm).1 (mem_minutesOf.mp hm).2
  have hlong : LongEnough utcSite ['s'] 1 (12960 * minute) := by
    rw [longEnough_iff rfl hnone ⟨1440, hlength⟩ hdate hstop, hlength]
    decide
  have hover : DayOver utcSite (12960 * minute) 1 := by
    refine ⟨?_, hstop⟩
    rw [utc_localDate]
    decide
  have hbefore : (0 : Day) ≤ 1 := by decide
  have hafter : (1 : Day) ≤ 8 := by decide
  obtain ⟨hshown, hrow⟩ := (flawless_shown_whole h hover hsince hbefore hafter).1 hlong
  refine ⟨hshown, hrow fun t ht hearly => ?_⟩
  -- the one prune comes after the day
  have hprune : t = 12960 * minute := by simpa [steady] using ht
  rw [hprune] at hearly
  exact absurd hearly (not_lt.mpr hstop)

/-- Central Europe in 2025: on 30 March the clock goes from 02:00 to 03:00. -/
def berlin : Zone where
  first := 60 * minute
  changes := [(1743296400 * second, 120 * minute)]
  midnights d := by
    have hday : dayLength = 86400000000 := by decide
    have hminute : minute = 60000000 := by decide
    simp only [wallOffsetFrom, hday, hminute]
    split_ifs <;> linarith

def berlinSite : Site where
  zone := berlin
  retentionDays := 7
  interval := 60
  windows := []
  epochs := [(['s'], 29054819 * minute)]
  interval_pos := minute_pos

/-- Where the clock is not set back, the bounds of a date have what is of the date. -/
theorem berlin_bounds (t : Instant) : berlin.midnight (berlin.localDate t) ≤ t ∧
    t < berlin.midnight (berlin.localDate t + 1) := by
  have hday : dayLength = 86400000000 := by decide
  have hminute : minute = 60000000 := by decide
  have hsecond : second = 1000000 := by decide
  simp only [Zone.localDate, Zone.midnight, Zone.ofWall, berlin, offsetFrom, wallOffsetFrom, hday,
    hminute, hsecond]
  unfold Day Instant at *
  split_ifs <;> constructor <;> omega

theorem berlin_placed (beats : List Beat) : AllPlaced berlinSite ['s'] beats :=
  fun b _ _ => decide_eq_true ⟨rfl, berlin_bounds b.timestamp⟩

/-- The day has 23 hours, each minute of which is `ok`, and is not shown whole. -/
theorem spring_day_below : Flawless berlinSite ['s'] (29054819 * minute) (29056200 * minute)
      (beatsOf (steady 29054819 1382)) ∧
    berlin.localDate (29054819 * minute) < 20177 ∧ DayOver berlinSite (29056200 * minute) 20177 ∧
    (dailyUptimeMap berlinSite (29056200 * minute) (history berlinSite ⟨[], []⟩ (steady 29054819 1382))
      ['s'] 20177 20177).lookup 20177 ≠ some (some 100) := by
  have h : Flawless berlinSite ['s'] (29054819 * minute) (29056200 * minute)
      (beatsOf (steady 29054819 1382)) := by
    simpa using @flawless_steady berlinSite 29054819 1382 [] rfl
  have hstart : berlinSite.zone.midnight 20177 = 29054820 * minute := by decide +kernel
  have hstop : berlinSite.zone.midnight (20177 + 1) = 29056200 * minute := by decide +kernel
  have hover : DayOver berlinSite (29056200 * minute) 20177 := ⟨by decide +kernel, hstop.le⟩
  have hsince : Since berlinSite (29054819 * minute) 20177 := by
    have hepoch : 29054819 * minute ≤ berlinSite.zone.midnight 20177 := by
      rw [hstart]
      decide
    intro t ht
    rcases ht with hdate | hbounds
    · have hbounds := (berlin_bounds t).1
      rw [show berlin.localDate t = 20177 from hdate] at hbounds
      exact hepoch.trans hbounds
    · exact hepoch.trans hbounds.1
  refine ⟨h, by decide +kernel, hover, fun hwhole => ?_⟩
  have hlong := h.longEnough (berlin_placed _) hover hsince le_rfl le_rfl (by decide +kernel) hwhole
  have hdate : ∀ m ∈ minutesOf berlinSite 20177, berlinSite.zone.localDate (m * minute) = 20177 := by
    intro m hm
    have hbounds := mem_minutesOf.mp hm
    have hplaced := berlin_bounds (m * minute)
    exact eq_of_midnights hplaced.1 hplaced.2 hbounds.1 hbounds.2
  have hlength : berlinSite.zone.midnight (20177 + 1) - berlinSite.zone.midnight 20177 =
      minute * 1380 := by
    rw [hstart, hstop]
    decide
  have hnone : ∀ w ∈ berlinSite.windows, w.monitorKey = ['s'] → w.excludeFromSla = false := by
    intro w hw
    cases hw
  have hshort := (longEnough_iff rfl hnone ⟨1380, hlength⟩ hdate hstop.le).mp hlong
  rw [hlength] at hshort
  exact absurd hshort (by decide)

end CwStation.Heartbeat
