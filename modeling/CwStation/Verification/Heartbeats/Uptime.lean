import CwStation.Verification.Heartbeats.Days

/-! # Uptime across prunes

What a day has of a status, in its summary and in the table together, stays the same. -/

namespace CwStation.Heartbeat

variable {site : Site}

/-! ## What a prune writes -/

/-- The key of a group's row. -/
def Group.key (g : Group) : Str × Day := (g.monitorKey, g.date)

/-- The row that a group makes of what was there. -/
def foldedRow (site : Site) (now : Instant) (old : List Beat) (g : Group) (row : Option Daily) :
    Daily :=
  let expected := expectedIntervalsForDay site now g.date g.monitorKey (epochStart site g.monitorKey)
  addBatch (row.getD (freshDaily g expected)) g (countExcluded site g old) expected

theorem get_writeSummary {now : Instant} {old : List Beat} {daily daily' : List Daily} {g : Group}
    (h : writeSummary site now old daily g = .ok daily') (k : Str × Day) :
    Table.get Daily.key daily' k =
      if k = g.key then
        some (foldedRow site now old g (Table.get Daily.key daily k))
      else Table.get Daily.key daily k := by
  have hwrite : put (foldedRow site now old g (Table.get Daily.key daily g.key)) daily = daily' := by
    simp only [writeSummary] at h
    split at h
    · exact Except.ok.inj h
    · cases h
  have hkey : (foldedRow site now old g (Table.get Daily.key daily g.key)).key = g.key := by
    rw [foldedRow, key_addBatch]
    cases hget : Table.get Daily.key daily g.key with
    | none => rfl
    | some row => exact Table.key_of_get hget
  rw [← hwrite, get_put, hkey]
  by_cases hk : k = g.key
  · rw [if_pos hk, if_pos hk, hk]
  · rw [if_neg hk, if_neg hk]

/-- The summaries of the old beats' days are written from what was there, the others left. -/
theorem get_writeDailySummaries {now : Instant} {old : List Beat} {daily daily' : List Daily}
    (h : writeDailySummaries site now old daily = .ok daily') (key : Str) (day : Day) :
    Table.get Daily.key daily' (key, day) =
      if (key, day) ∈ groupKeys site old then
        some (foldedRow site now old (groupOf site old key day) (Table.get Daily.key daily (key, day)))
      else Table.get Daily.key daily (key, day) := by
  have hkeys : (dailyStats site old).map Group.key = groupKeys site old := by
    rw [dailyStats, List.map_map]
    exact List.map_id _
  have hnodup : ((dailyStats site old).map Group.key).Nodup := by
    rw [hkeys]
    exact nodup_groupKeys site old
  have hwrite : ∀ daily daily' g, writeSummary site now old daily g = .ok daily' →
      ∀ k, Table.get Daily.key daily' k =
        if k = g.key then some (foldedRow site now old g (Table.get Daily.key daily k))
        else Table.get Daily.key daily k := fun _ _ _ => get_writeSummary
  obtain ⟨hmem, hother⟩ := Table.get_foldlM hwrite hnodup h
  by_cases hk : (key, day) ∈ groupKeys site old
  · rw [if_pos hk]
    exact hmem (groupOf site old key day) (List.mem_map_of_mem hk)
  · rw [if_neg hk]
    rw [← hkeys] at hk
    exact hother _ hk

/-- A prune leaves the tables as they are, or moves the old beats into the summaries. -/
theorem prune_cases (now : Instant) (db : Db) :
    (pruneOldHeartbeats site now db).2 = db ∨
      ∃ daily, writeDailySummaries site now
          (oldRecords (now - site.retentionDays * dayLength) db.beats) db.daily = .ok daily ∧
        (pruneOldHeartbeats site now db).2 =
          { beats := db.beats.filter fun b => ¬b.timestamp < now - site.retentionDays * dayLength
            daily := daily } := by
  rw [pruneOldHeartbeats]
  by_cases hold : oldRecords (now - site.retentionDays * dayLength) db.beats = []
  · simp [hold]
  · cases hwrite : writeDailySummaries site now
        (oldRecords (now - site.retentionDays * dayLength) db.beats) db.daily with
    | error e => simp [hold]
    | ok daily => simp [hold]

/-! ## What a day has -/

/-- The summary's count of a status. -/
def stored (daily : List Daily) (key : Str) (day : Day) (status : Status) : ℤ :=
  ((Table.get Daily.key daily (key, day)).map (Daily.count status)).getD 0

/-- The summary's count, and what the beats that are left come to. -/
def dayTotal (site : Site) (db : Db) (key : Str) (day : Day) (status : Status) : ℤ :=
  stored db.daily key day status + countStatus status (db.beats.filter (countedOn site key day))

/-- The day has a summary or a beat. -/
def HasDay (site : Site) (db : Db) (key : Str) (day : Day) : Prop :=
  (Table.get Daily.key db.daily (key, day)).isSome = true ∨ ∃ b ∈ db.beats, onDate site key day b = true

theorem countStatus_split (status : Status) (p q : Beat → Bool) (beats : List Beat) :
    countStatus status (beats.filter p) =
      countStatus status ((beats.filter q).filter p) +
        countStatus status ((beats.filter fun b => !q b).filter p) := by
  unfold countStatus
  induction beats with
  | nil => rfl
  | cons b beats ih =>
    cases hp : p b <;> cases hq : q b <;>
      simp only [List.filter_cons, hp, hq, List.countP_cons, if_true, if_false, Bool.not_true,
        Bool.not_false, Bool.false_eq_true] <;>
      push_cast at ih ⊢ <;> omega

theorem onDate_of_countedOn {b : Beat} {key : Str} {day : Day} (h : b.monitorKey = key → Placed site b)
    (hb : countedOn site key day b = true) : onDate site key day b = true := by
  rw [countedOn, counted, decide_eq_true_eq] at hb
  rw [onDate_eq_inBounds h, inBounds, decide_eq_true_eq]
  exact ⟨hb.1, hb.2.1, hb.2.2.1⟩

/-- A day without beats has none that count. -/
theorem filter_countedOn_eq_nil {beats : List Beat} {key : Str} {day : Day}
    (h : AllPlaced site key beats) (hnone : ¬∃ b ∈ beats, onDate site key day b = true) :
    beats.filter (countedOn site key day) = [] := by
  rw [List.filter_eq_nil_iff]
  intro b hb hcounted
  exact hnone ⟨b, hb, onDate_of_countedOn (h b hb) hcounted⟩

theorem count_foldedRow (now : Instant) (old : List Beat) (g : Group) (row : Option Daily)
    (status : Status) :
    (foldedRow site now old g row).count status =
      (row.map (Daily.count status)).getD 0 + slaCount g (countExcluded site g old) status := by
  rw [foldedRow, count_addBatch]
  cases row with
  | none => cases status <;> rfl
  | some row => rfl

theorem stored_write {now : Instant} {old : List Beat} {daily daily' : List Daily} {key : Str}
    (h : AllPlaced site key old) (hwrite : writeDailySummaries site now old daily = .ok daily')
    (day : Day) (status : Status) :
    stored daily' key day status =
      stored daily key day status + countStatus status (old.filter (countedOn site key day)) := by
  have hget := get_writeDailySummaries hwrite key day
  unfold stored
  by_cases hk : (key, day) ∈ groupKeys site old
  · rw [hget, if_pos hk, Option.map_some, Option.getD_some, count_foldedRow, slaCount_eq h]
  · have hnone : ¬∃ b ∈ old, onDate site key day b = true := by
      rintro ⟨b, hb, hdate⟩
      exact hk ((mem_groupKeys site).mpr ⟨b, hb, (onDate_iff site).mp hdate⟩)
    rw [hget, if_neg hk, filter_countedOn_eq_nil h hnone]
    exact (add_zero _).symm

theorem AllPlaced.filter {key : Str} {beats : List Beat} (h : AllPlaced site key beats)
    (p : Beat → Bool) : AllPlaced site key (beats.filter p) :=
  fun b hb => h b (List.mem_of_mem_filter hb)

/-- A prune keeps what each day has. -/
theorem dayTotal_prune {db : Db} {key : Str} (h : AllPlaced site key db.beats) (now : Instant)
    (day : Day) (status : Status) :
    dayTotal site (pruneOldHeartbeats site now db).2 key day status =
      dayTotal site db key day status := by
  rcases prune_cases now db with hsame | ⟨daily, hwrite, hprune⟩
  · rw [hsame]
  · have hsplit := countStatus_split status (countedOn site key day)
      (fun b => b.timestamp < now - site.retentionDays * dayLength) db.beats
    rw [hprune, dayTotal, dayTotal, stored_write (h.filter _) hwrite, hsplit]
    simp only [decide_not]
    ring

theorem hasDay_prune (now : Instant) (db : Db) (key : Str) (day : Day) :
    HasDay site (pruneOldHeartbeats site now db).2 key day ↔ HasDay site db key day := by
  rcases prune_cases now db with hsame | ⟨daily, hwrite, hprune⟩
  · rw [hsame]
  · have hget := get_writeDailySummaries hwrite key day
    have hold : (key, day) ∈ groupKeys site (oldRecords (now - site.retentionDays * dayLength) db.beats) ↔
        ∃ b ∈ db.beats, b.timestamp < now - site.retentionDays * dayLength ∧
          onDate site key day b = true := by
      simp only [mem_groupKeys, oldRecords, List.mem_filter, decide_eq_true_eq, onDate_iff, and_assoc]
    rw [hprune]
    unfold HasDay
    rw [hget]
    simp only [List.mem_filter, decide_not, Bool.not_eq_true', decide_eq_false_iff_not]
    by_cases hk : (key, day) ∈ groupKeys site (oldRecords (now - site.retentionDays * dayLength) db.beats)
    · obtain ⟨b, hb, -, hdate⟩ := hold.mp hk
      rw [if_pos hk]
      exact iff_of_true (.inl rfl) (.inr ⟨b, hb, hdate⟩)
    · rw [if_neg hk]
      apply or_congr_right
      constructor
      · rintro ⟨b, ⟨hb, -⟩, hdate⟩
        exact ⟨b, hb, hdate⟩
      · rintro ⟨b, hb, hdate⟩
        exact ⟨b, ⟨hb, fun hlt => hk (hold.mpr ⟨b, hb, hlt, hdate⟩)⟩, hdate⟩

/-! ## Histories -/

theorem history_cons (db : Db) (e : Event) (events : List Event) :
    history site db (e :: events) = history site (db.after site e) events := rfl

theorem beatsOf_cons (e : Event) (events : List Event) :
    beatsOf (e :: events) = beatsOf [e] ++ beatsOf events := by
  cases e <;> rfl

theorem countStatus_append (status : Status) (l l' : List Beat) :
    countStatus status (l ++ l') = countStatus status l + countStatus status l' := by
  rw [countStatus, List.countP_append]
  push_cast
  rfl

theorem AllPlaced.prune {key : Str} {db : Db} (h : AllPlaced site key db.beats) (now : Instant) :
    AllPlaced site key (pruneOldHeartbeats site now db).2.beats := by
  rcases prune_cases now db with hsame | ⟨daily, -, hprune⟩
  · rw [hsame]
    exact h
  · rw [hprune]
    exact h.filter _

/-- What each day has after a history is what it would have had without prunes. -/
theorem dayTotal_history {key : Str} {db : Db} {events : List Event}
    (h : AllPlaced site key (db.beats ++ beatsOf events)) (day : Day) (status : Status) :
    AllPlaced site key (history site db events).beats ∧
      dayTotal site (history site db events) key day status =
        dayTotal site (unpruned db events) key day status := by
  induction events generalizing db with
  | nil =>
    have hdb : unpruned db [] = db := by simp [unpruned, beatsOf]
    rw [hdb]
    exact ⟨by simpa [beatsOf, history] using h, rfl⟩
  | cons e events ih =>
    rw [history_cons]
    cases e with
    | recorded b =>
      have hbeats : db.beats ++ beatsOf (.recorded b :: events) =
          (db.after site (.recorded b)).beats ++ beatsOf events := by
        rw [Db.after, beatsOf_cons, List.append_assoc]
        rfl
      rw [hbeats] at h
      have hdb : unpruned db (.recorded b :: events) =
          unpruned (db.after site (.recorded b)) events := by
        rw [unpruned, hbeats]
        rfl
      rw [hdb]
      exact ih h
    | pruned now =>
      rw [beatsOf_cons, show beatsOf [Event.pruned now] = [] from rfl, List.nil_append] at h
      have hdb : AllPlaced site key db.beats := fun b hb => h b (List.mem_append_left _ hb)
      have hrest : AllPlaced site key ((db.after site (.pruned now)).beats ++ beatsOf events) := by
        intro b hb
        rcases List.mem_append.mp hb with hb | hb
        · exact hdb.prune now b hb
        · exact h b (List.mem_append_right _ hb)
      obtain ⟨hplaced, htotal⟩ := ih hrest
      have hprune := dayTotal_prune hdb now day status
      refine ⟨hplaced, htotal.trans ?_⟩
      rw [dayTotal, dayTotal] at hprune ⊢
      rw [unpruned, unpruned, List.filter_append, List.filter_append, countStatus_append,
        countStatus_append, beatsOf_cons, ← add_assoc, ← add_assoc]
      exact congrArg (· + countStatus status ((beatsOf events).filter _)) hprune

theorem hasDay_history (db : Db) (events : List Event) (key : Str) (day : Day) :
    HasDay site (history site db events) key day ↔ HasDay site (unpruned db events) key day := by
  induction events generalizing db with
  | nil =>
    have hdb : unpruned db [] = db := by simp [unpruned, beatsOf]
    rw [hdb]
    rfl
  | cons e events ih =>
    rw [history_cons, ih]
    have hbeats : ∀ db : Db, HasDay site (unpruned db events) key day ↔ HasDay site db key day ∨
        ∃ b ∈ beatsOf events, onDate site key day b = true := by
      intro db
      simp only [HasDay, unpruned, List.mem_append, or_and_right, exists_or, or_assoc]
    cases e with
    | recorded b =>
      rw [unpruned, Db.after, unpruned, beatsOf_cons, ← List.append_assoc]
      rfl
    | pruned now =>
      rw [hbeats, Db.after, hasDay_prune, ← hbeats]
      rfl

/-! ## The uptime of a day -/

instance (site : Site) (db : Db) (key : Str) (day : Day) : Decidable (HasDay site db key day) :=
  inferInstanceAs (Decidable (_ ∨ _))

section Reading

variable {db : Db} {key : Str} {start stop day : Day}

/-- In the days that are asked for, the rows of a date are the beats of that date. -/
theorem hasRaw_iff (h : AllPlaced site key db.beats) (hstart : start ≤ day) (hstop : day ≤ stop) :
    hasRaw site db key start stop day = true ↔ ∃ b ∈ db.beats, onDate site key day b = true := by
  rw [hasRaw, List.any_eq_true]
  constructor
  · rintro ⟨b, hb, hraw⟩
    rw [decide_eq_true_eq] at hraw
    exact ⟨b, hb, hraw.1⟩
  · rintro ⟨b, hb, hdate⟩
    have hbounds := hdate
    rw [onDate_eq_inBounds (h b hb), inBounds, decide_eq_true_eq] at hbounds
    refine ⟨b, hb, decide_eq_true ⟨hdate, ?_, ?_⟩⟩
    · exact (midnight_mono site.zone hstart).trans hbounds.2.1
    · exact hbounds.2.2.trans_le (midnight_mono site.zone (Int.add_le_add_right hstop 1))

theorem dayCounts_stored (db : Db) (key : Str) (start stop day : Day) :
    dayCounts site db key start stop day =
      if hasRaw site db key start stop day = true then
        (dayTotal site db key day .ok, dayTotal site db key day .ok + dayTotal site db key day .fail)
      else (stored db.daily key day .ok,
        stored db.daily key day .ok + stored db.daily key day .fail) := by
  have hraw : nonMaintenanceCounts site db.beats (dayBounds day).1 (dayBounds day).2 key =
      (countStatus .ok (db.beats.filter (countedOn site key day)),
        ((db.beats.filter (countedOn site key day)).length : ℤ)) :=
    nonMaintenanceCounts_eq (comparable_dayBounds site.zone day) db.beats key
  have hcounts : dayCounts site db key start stop day =
      if hasRaw site db key start stop day then
        let raw := nonMaintenanceCounts site db.beats (dayBounds day).1 (dayBounds day).2 key
        (stored db.daily key day .ok + raw.1,
          stored db.daily key day .ok + stored db.daily key day .fail + raw.2)
      else (stored db.daily key day .ok,
        stored db.daily key day .ok + stored db.daily key day .fail) := by
    unfold dayCounts stored
    cases Table.get Daily.key db.daily (key, day) <;> rfl
  rw [hcounts, hraw]
  by_cases hhas : hasRaw site db key start stop day = true
  · rw [if_pos hhas, if_pos hhas, ← countStatus_add, dayTotal, dayTotal]
    refine Prod.ext rfl ?_
    change _ + _ + (_ + _) = _ + _ + (_ + _)
    ring
  · rw [if_neg hhas, if_neg hhas]

theorem dayCounts_eq (h : AllPlaced site key db.beats) (hstart : start ≤ day) (hstop : day ≤ stop) :
    dayCounts site db key start stop day =
      (dayTotal site db key day .ok, dayTotal site db key day .ok + dayTotal site db key day .fail) := by
  rw [dayCounts_stored]
  by_cases hhas : hasRaw site db key start stop day = true
  · rw [if_pos hhas]
  · have hnone := filter_countedOn_eq_nil h fun hday => hhas ((hasRaw_iff h hstart hstop).mpr hday)
    rw [if_neg hhas, dayTotal, dayTotal, hnone]
    simp [countStatus]

theorem dayUptime_eq (now : Instant) (h : AllPlaced site key db.beats) (hstart : start ≤ day)
    (hstop : day ≤ stop) :
    dayUptime site now db key start stop day =
      if HasDay site db key day then
        let ok := dayTotal site db key day .ok
        let observed := ok + dayTotal site db key day .fail
        let denominator := if day = site.zone.localDate now then observed
          else max observed (expectedIntervalsForDay site now day key (epochStart site key))
        if denominator ≠ 0 then some (percent ok denominator 2) else none
      else none := by
  rw [dayUptime, dayCounts_eq h hstart hstop]
  simp only [hasRaw_iff h hstart hstop]
  rfl

end Reading

/-- A day is over at a moment: it is before today, and its bounds end no later. -/
def DayOver (site : Site) (now : Instant) (day : Day) : Prop :=
  day < site.zone.localDate now ∧ site.zone.midnight (day + 1) ≤ now

/-- What is expected of a day that is over is the same from then on. -/
theorem expectedIntervals_over {now now' : Instant} {day : Day} (h : DayOver site now day)
    (h' : DayOver site now' day) (key : Str) (epoch : Option Instant) :
    expectedIntervalsForDay site now day key epoch =
      expectedIntervalsForDay site now' day key epoch := by
  have hstop : ∀ t, DayOver site t day →
      Aware.min site.zone (dayBounds day).2 (.utc t) = (dayBounds day).2 := by
    intro t ht
    have hlt : ¬Aware.lt site.zone (.utc t) (dayBounds day).2 = true := by
      rw [lt_of_utc (.inl ⟨t, rfl⟩), decide_eq_true_eq, not_lt]
      exact ht.2
    rw [Aware.min, if_neg hlt]
  rw [expectedIntervalsForDay, expectedIntervalsForDay]
  simp only [hstop now h, hstop now' h']

/-- The entries of a map of days at one day. -/
theorem lookup_days {f f' : Day → Option ℚ} {start day : Day} {l : List ℕ}
    (h : ∀ i ∈ l, start + i = day → f day = f' day) :
    (l.map fun i : ℕ => (start + (i : ℤ), f (start + i))).lookup day =
      (l.map fun i : ℕ => (start + (i : ℤ), f' (start + i))).lookup day := by
  induction l with
  | nil => rfl
  | cons i l ih =>
    rw [List.map_cons, List.map_cons, List.lookup_cons, List.lookup_cons,
      ih fun j hj => h j (.tail _ hj)]
    by_cases hi : start + (i : ℤ) = day
    · rw [hi, h i (.head _) hi]
    · have hne : (day == start + (i : ℤ)) = false := beq_eq_false_iff_ne.mpr (Ne.symm hi)
      rw [hne]

/-- Where each beat is between the bounds of its date, a prune changes no day's uptime: not at
one moment, and from the day's end on at no other. -/
theorem dailyUptimeMap_history {db : Db} {events : List Event} {key : Str}
    (h : AllPlaced site key (db.beats ++ beatsOf events)) (now : Instant) (start stop : Day) :
    dailyUptimeMap site now (history site db events) key start stop =
        dailyUptimeMap site now (unpruned db events) key start stop ∧
      ∀ before day, DayOver site before day → DayOver site now day →
        (dailyUptimeMap site now (history site db events) key start stop).lookup day =
          (dailyUptimeMap site before (unpruned db events) key start stop).lookup day := by
  have hplaced := (dayTotal_history h 0 .ok).1
  have htotal := fun day status => (dayTotal_history h day status).2
  have hunpruned : AllPlaced site key (unpruned db events).beats := h
  have hday : ∀ t : Instant, ∀ day, start ≤ day → day ≤ stop →
      dayUptime site t (history site db events) key start stop day =
        dayUptime site t (unpruned db events) key start stop day := by
    intro t day hstart hstop
    rw [dayUptime_eq t hplaced hstart hstop, dayUptime_eq t hunpruned hstart hstop]
    simp only [htotal, hasDay_history]
  have hinside : ∀ i : ℕ, i ∈ List.range (stop - start + 1).toNat →
      start ≤ start + (i : ℤ) ∧ start + (i : ℤ) ≤ stop := by
    intro i hi
    have hlt := Int.lt_toNat.mp (List.mem_range.mp hi)
    constructor <;> linarith
  have hsame : dailyUptimeMap site now (history site db events) key start stop =
      dailyUptimeMap site now (unpruned db events) key start stop := by
    apply List.map_congr_left
    intro i hi
    rw [hday now _ (hinside i hi).1 (hinside i hi).2]
  refine ⟨hsame, fun before day hbefore hnow => ?_⟩
  rw [hsame]
  refine @lookup_days (dayUptime site now (unpruned db events) key start stop)
    (dayUptime site before (unpruned db events) key start stop) start day _ fun i hi hi' => ?_
  obtain ⟨hstart, hstop⟩ := hi' ▸ hinside i hi
  have hne : ∀ t, DayOver site t day → day ≠ site.zone.localDate t := fun t ht => ne_of_lt ht.1
  rw [dayUptime_eq now hunpruned hstart hstop, dayUptime_eq before hunpruned hstart hstop]
  simp only [hne now hnow, hne before hbefore, if_false, expectedIntervals_over hnow hbefore]

/-- The autumn of 2010 in St. John's: at 00:01 of 7 November the clock goes back to 23:01. -/
def stJohns : Zone where
  first := -150 * minute
  changes := [(1289097060 * second, -210 * minute)]
  midnights d := by
    have hday : dayLength = 86400000000 := by decide
    have hminute : minute = 60000000 := by decide
    simp only [wallOffsetFrom, hday, hminute]
    split_ifs <;> linarith

theorem minute_pos : (0 : ℤ) < 60 := by decide

def stJohnsSite : Site where
  zone := stJohns
  retentionDays := 7
  interval := 60
  windows := []
  epochs := []
  interval_pos := minute_pos

/-- A beat at 23:10 of 6 November, when the clock has gone back. -/
def lateBeat : Beat where
  pk := 1
  monitorKey := ['s']
  timestamp := 1289097600 * second
  status := .ok
  responseTimeMs := 5

/-- The beats of the day before are beyond the bounds of that day, so that the readers of the
table leave out what the summary counts. -/
theorem uptime_changes_of_fold : ¬∀ day, day < stJohnsSite.zone.localDate (1290254400 * second) →
    (dailyUptimeMap stJohnsSite (1290254400 * second)
        (history stJohnsSite ⟨[], []⟩ [.recorded lateBeat, .pruned (1290254400 * second)]) ['s']
        14919 14920).lookup day =
      (dailyUptimeMap stJohnsSite (1290254400 * second)
        (unpruned ⟨[], []⟩ [.recorded lateBeat, .pruned (1290254400 * second)]) ['s']
        14919 14920).lookup day := by
  intro h
  have hday := h 14919 (by decide)
  revert hday
  decide +kernel

/-- A beat at noon. -/
def noonBeat : Beat := { lateBeat with timestamp := 1289052000 * second }

theorem uptime_of_noon :
    dailyUptimeMap stJohnsSite (1290254400 * second)
        (history stJohnsSite ⟨[], []⟩ [.recorded noonBeat, .pruned (1290254400 * second)]) ['s']
        14919 14920 =
      dailyUptimeMap stJohnsSite (1290254400 * second) ⟨[noonBeat], []⟩ ['s'] 14919 14920 := by
  have hplaced : AllPlaced stJohnsSite ['s']
      (([] : List Beat) ++ beatsOf [.recorded noonBeat, .pruned (1290254400 * second)]) := by
    intro b hb _
    have hnoon : b = noonBeat := List.mem_singleton.mp hb
    rw [hnoon]
    decide +kernel
  exact (@dailyUptimeMap_history stJohnsSite ⟨[], []⟩ _ ['s'] hplaced (1290254400 * second)
    14919 14920).1

end CwStation.Heartbeat
