import CwStation.Verification.Heartbeats.Uptime
import CwStation.Verification.Python.Rounding

/-! # What is kept of a day

The folds take a beat by its date and the readers by the bounds of the day. What both have of a day
is never lost, in any zone. -/

namespace CwStation.Heartbeat

variable {site : Site}

/-! ## What a day keeps -/

/-- The beats between a day's bounds that are excluded. -/
def excludedOn (site : Site) (key : Str) (day : Day) (b : Beat) : Bool :=
  inBounds site key day b ∧ excludedAt site key b.timestamp

/-- The beats of a day by its date and by its bounds. -/
def datedOn (site : Site) (key : Str) (day : Day) (b : Beat) : Bool :=
  onDate site key day b ∧ inBounds site key day b

theorem countStatus_nonneg (status : Status) (beats : List Beat) : 0 ≤ countStatus status beats :=
  Int.natCast_nonneg _

theorem countStatus_mono {p q : Beat → Bool} {beats : List Beat} (status : Status)
    (h : ∀ b ∈ beats, p b = true → q b = true) :
    countStatus status (beats.filter p) ≤ countStatus status (beats.filter q) := by
  rw [countStatus, countStatus, List.countP_filter, List.countP_filter]
  refine Int.ofNat_le.mpr (List.countP_mono_left fun b hb hp => ?_)
  rw [Bool.and_eq_true] at hp ⊢
  exact ⟨hp.1, h b hb hp.2⟩

theorem countStatus_eq_zero {p : Beat → Bool} {beats : List Beat} {status : Status}
    (h : ∀ b ∈ beats, p b = true → b.status ≠ status) : countStatus status (beats.filter p) = 0 := by
  rw [countStatus, List.countP_eq_zero.mpr]
  · rfl
  · intro b hb
    rw [decide_eq_true_eq]
    exact h b (List.mem_of_mem_filter hb) (List.mem_filter.mp hb).2

/-- What a group adds, by the beats. -/
theorem slaCount_eq_sub (old : List Beat) (key : Str) (day : Day) (status : Status) :
    slaCount (groupOf site old key day) (countExcluded site (groupOf site old key day) old) status =
      countStatus status (old.filter (onDate site key day)) -
        countStatus status (old.filter (excludedOn site key day)) := by
  have hdate : (groupOf site old key day).date = day := rfl
  have hkey : (groupOf site old key day).monitorKey = key := rfl
  rw [slaCount_groupOf, excluded_eq, hdate, hkey, countStatus_filter status (excludedOn site key day),
    List.countP_filter, sub_right_inj, Nat.cast_inj, List.countP_filter, List.countP_filter]
  apply List.countP_congr
  intro b _
  simp only [excludedOn, inBounds, Bool.and_eq_true, decide_eq_true_eq]
  tauto

/-- What a prune adds to the summary of a day. -/
theorem stored_write_eq {now : Instant} {old : List Beat} {daily daily' : List Daily}
    (h : writeDailySummaries site now old daily = .ok daily') (key : Str) (day : Day)
    (status : Status) :
    stored daily' key day status = stored daily key day status +
      if (key, day) ∈ groupKeys site old then
        countStatus status (old.filter (onDate site key day)) -
          countStatus status (old.filter (excludedOn site key day))
      else 0 := by
  rw [stored, stored, get_writeDailySummaries h key day]
  by_cases hk : (key, day) ∈ groupKeys site old
  · rw [if_pos hk, if_pos hk, Option.map_some, Option.getD_some, count_foldedRow, slaCount_eq_sub]
  · rw [if_neg hk, if_neg hk, add_zero]

theorem filter_onDate_eq_nil {old : List Beat} {key : Str} {day : Day}
    (h : (key, day) ∉ groupKeys site old) : old.filter (onDate site key day) = [] := by
  rw [List.filter_eq_nil_iff]
  intro b hb hdate
  exact h ((mem_groupKeys site).mpr ⟨b, hb, (onDate_iff site).mp hdate⟩)

/-- The `ok` beats that a day has for sure: the summary's, and those that are left of its date
and in its bounds, without the excluded ones. -/
def kept (site : Site) (key : Str) (day : Day) (db : Db) : ℤ :=
  stored db.daily key day .ok + countStatus .ok (db.beats.filter (datedOn site key day)) -
    countStatus .ok (db.beats.filter (excludedOn site key day))

theorem countStatus_datedOn_le (beats : List Beat) (key : Str) (day : Day) :
    countStatus .ok (beats.filter (datedOn site key day)) ≤
      countStatus .ok (beats.filter (onDate site key day)) :=
  countStatus_mono .ok fun _ _ h => (of_decide_eq_true h).1

theorem kept_prune (now : Instant) (key : Str) (day : Day) (db : Db) :
    kept site key day db ≤ kept site key day (pruneOldHeartbeats site now db).2 := by
  rcases prune_cases now db with hsame | ⟨daily, hwrite, hprune⟩
  · rw [hsame]
  · have hdated := countStatus_split .ok (datedOn site key day)
      (fun b => b.timestamp < now - site.retentionDays * dayLength) db.beats
    have hexcluded := countStatus_split .ok (excludedOn site key day)
      (fun b => b.timestamp < now - site.retentionDays * dayLength) db.beats
    have hle := @countStatus_datedOn_le site (oldRecords (now - site.retentionDays * dayLength) db.beats)
      key day
    have hnonneg := countStatus_nonneg .ok ((oldRecords (now - site.retentionDays * dayLength)
      db.beats).filter (excludedOn site key day))
    have hstored := stored_write_eq hwrite key day .ok
    rw [kept, kept, hprune, hdated, hexcluded]
    by_cases hk : (key, day) ∈ groupKeys site (oldRecords (now - site.retentionDays * dayLength) db.beats)
    · rw [if_pos hk] at hstored
      simp only [hstored, decide_not, oldRecords] at hle hnonneg ⊢
      linarith
    · -- nothing of the date is old, so that nothing is taken away
      have hzero : countStatus .ok [] = 0 := rfl
      rw [filter_onDate_eq_nil hk, hzero] at hle
      rw [if_neg hk] at hstored
      simp only [hstored, decide_not, oldRecords] at hle hnonneg ⊢
      linarith

theorem kept_history (key : Str) (day : Day) (db : Db) (events : List Event) :
    kept site key day (unpruned db events) ≤ kept site key day (history site db events) := by
  induction events generalizing db with
  | nil => simp [unpruned, beatsOf, history]
  | cons e events ih =>
    rw [history_cons]
    refine le_trans ?_ (ih _)
    cases e with
    | recorded b =>
      have hdb : unpruned db (.recorded b :: events) =
          unpruned (db.after site (.recorded b)) events := by
        rw [unpruned, unpruned, Db.after, beatsOf_cons, ← List.append_assoc]
        rfl
      rw [hdb]
    | pruned now =>
      have hnone : beatsOf (.pruned now :: events) = beatsOf events := rfl
      have hprune := @kept_prune site now key day db
      simp only [kept, unpruned, Db.after, hnone, List.filter_append, countStatus_append]
        at hprune ⊢
      linarith

/-! ## The rows -/

/-- The row of a day counts no failure, and its uptime is from one of the moments. -/
def Written (site : Site) (key : Str) (day : Day) (moments : Set Instant) (db : Db) : Prop :=
  ∀ row ∈ Table.get Daily.key db.daily (key, day), row.failCount = 0 ∧ ∃ t ∈ moments,
    let denominator := max (row.okCount + row.failCount)
      (expectedIntervalsForDay site t day key (epochStart site key))
    row.uptimePct = if denominator ≠ 0 then percent row.okCount denominator 3 else 0

/-- The beats of a day, by its date or by its bounds, are `ok`. -/
def AllOk (site : Site) (key : Str) (day : Day) (beats : List Beat) : Prop :=
  ∀ b ∈ beats, onDate site key day b = true ∨ inBounds site key day b = true → b.status = .ok

/-- A beat of the day's date is old at the moment. -/
def FoldsAt (site : Site) (key : Str) (day : Day) (beats : List Beat) (now : Instant) : Prop :=
  ∃ b ∈ beats, onDate site key day b = true ∧ b.timestamp < now - site.retentionDays * dayLength

theorem AllOk.fails_eq_zero {key : Str} {day : Day} {beats : List Beat} {p : Beat → Bool}
    (h : AllOk site key day beats)
    (hp : ∀ b, p b = true → onDate site key day b = true ∨ inBounds site key day b = true) :
    countStatus .fail (beats.filter p) = 0 := by
  apply countStatus_eq_zero
  intro b hb hpb
  rw [h b hb (hp b hpb)]
  exact nofun

theorem beats_prune_subset (now : Instant) (db : Db) :
    (pruneOldHeartbeats site now db).2.beats ⊆ db.beats := by
  rcases prune_cases now db with hsame | ⟨daily, -, hprune⟩
  · rw [hsame]
    exact List.Subset.refl _
  · rw [hprune]
    exact List.filter_subset_self _

theorem Written.prune {key : Str} {day : Day} {moments : Set Instant} {db : Db} {now : Instant}
    (h : Written site key day moments db) (hok : AllOk site key day db.beats)
    (hnow : FoldsAt site key day db.beats now → now ∈ moments) :
    Written site key day moments (pruneOldHeartbeats site now db).2 := by
  rcases prune_cases now db with hsame | ⟨daily, hwrite, hprune⟩
  · rw [hsame]
    exact h
  · intro row hrow
    rw [hprune, get_writeDailySummaries hwrite key day] at hrow
    by_cases hk : (key, day) ∈ groupKeys site (oldRecords (now - site.retentionDays * dayLength) db.beats)
    · rw [if_pos hk] at hrow
      have hsub : AllOk site key day (oldRecords (now - site.retentionDays * dayLength) db.beats) :=
        fun b hb => hok b (List.mem_of_mem_filter hb)
      have hfail := @count_foldedRow site now (oldRecords (now - site.retentionDays * dayLength) db.beats)
        (groupOf site (oldRecords (now - site.retentionDays * dayLength) db.beats) key day)
        (Table.get Daily.key db.daily (key, day)) .fail
      rw [slaCount_eq_sub, hsub.fails_eq_zero fun _ => .inl,
        hsub.fails_eq_zero fun _ hb => .inr (of_decide_eq_true hb).1, Option.mem_some.mp hrow] at hfail
      have hprior : ((Table.get Daily.key db.daily (key, day)).map (Daily.count .fail)).getD 0 = 0 := by
        cases hget : Table.get Daily.key db.daily (key, day) with
        | none => rfl
        | some prior => exact (h prior hget).1
      refine ⟨hfail.trans (by rw [hprior]; rfl), now, hnow ?_, ?_⟩
      · obtain ⟨b, hb, hdate⟩ := (mem_groupKeys site).mp hk
        exact ⟨b, List.mem_of_mem_filter hb, (onDate_iff site).mpr hdate,
          of_decide_eq_true (List.mem_filter.mp hb).2⟩
      · rw [← Option.mem_some.mp hrow]
        rfl
    · rw [if_neg hk] at hrow
      exact h row hrow

theorem written_history {key : Str} {day : Day} {moments : Set Instant} {db : Db}
    {events : List Event} (h : Written site key day moments db)
    (hok : AllOk site key day (db.beats ++ beatsOf events))
    (hmoments : ∀ t, .pruned t ∈ events →
      FoldsAt site key day (db.beats ++ beatsOf events) t → t ∈ moments) :
    Written site key day moments (history site db events) := by
  induction events generalizing db with
  | nil => exact h
  | cons e events ih =>
    rw [history_cons]
    cases e with
    | recorded b =>
      have hbeats : db.beats ++ beatsOf (.recorded b :: events) =
          (db.after site (.recorded b)).beats ++ beatsOf events := by
        rw [Db.after, beatsOf_cons, List.append_assoc]
        rfl
      rw [hbeats] at hok hmoments
      exact ih h hok fun t ht => hmoments t (.tail _ ht)
    | pruned now =>
      have hnone : beatsOf (.pruned now :: events) = beatsOf events := rfl
      rw [hnone] at hok hmoments
      have hsub : (pruneOldHeartbeats site now db).2.beats ++ beatsOf events ⊆
          db.beats ++ beatsOf events := by
        rw [List.append_subset]
        exact ⟨fun b hb => List.mem_append_left _ (beats_prune_subset now db hb),
          List.subset_append_right _ _⟩
      refine ih (h.prune (fun b hb => hok b (List.mem_append_left _ hb)) ?_)
        (fun b hb => hok b (hsub hb)) ?_
      · rintro ⟨b, hb, hold⟩
        exact hmoments now (.head _) ⟨b, List.mem_append_left _ hb, hold⟩
      · rintro t ht ⟨b, hb, hold⟩
        exact hmoments t (.tail _ ht) ⟨b, hsub hb, hold⟩

theorem beats_history_subset (db : Db) (events : List Event) :
    (history site db events).beats ⊆ db.beats ++ beatsOf events := by
  induction events generalizing db with
  | nil => simp [history]
  | cons e events ih =>
    intro b hb
    have hrest := ih _ hb
    rw [List.mem_append] at hrest
    cases e with
    | recorded b' => simpa [Db.after, beatsOf, or_assoc] using hrest
    | pruned now =>
      rw [List.mem_append]
      exact hrest.imp_left fun hold => beats_prune_subset now db hold

/-! ## What is read -/

section Reading

variable {db : Db} {key : Str} {start stop day : Day}

theorem countStatus_inBounds (beats : List Beat) (key : Str) (day : Day) (status : Status) :
    countStatus status (beats.filter (inBounds site key day)) =
      countStatus status (beats.filter (excludedOn site key day)) +
        countStatus status (beats.filter (countedOn site key day)) := by
  rw [countStatus_split status _ (fun b => excludedAt site key b.timestamp), List.filter_filter,
    List.filter_filter]
  have hcounted : (fun b => inBounds site key day b && !decide (excludedAt site key b.timestamp)) =
      countedOn site key day := by
    funext b
    simp [inBounds, countedOn, counted, Bool.and_assoc]
  have hexcluded : (fun b => inBounds site key day b && decide (excludedAt site key b.timestamp)) =
      excludedOn site key day := by
    funext b
    simp [excludedOn]
  rw [hcounted, hexcluded]

/-- The readers have no less than what is kept. -/
theorem kept_le_dayCounts (hstart : start ≤ day) (hstop : day ≤ stop) :
    kept site key day db ≤ (dayCounts site db key start stop day).1 := by
  have hexcluded := countStatus_nonneg .ok (db.beats.filter (excludedOn site key day))
  rw [dayCounts_stored, kept]
  by_cases hhas : hasRaw site db key start stop day = true
  · have hinside : countStatus .ok (db.beats.filter (datedOn site key day)) ≤
        countStatus .ok (db.beats.filter (inBounds site key day)) :=
      countStatus_mono .ok fun _ _ h => (of_decide_eq_true h).2
    rw [countStatus_inBounds] at hinside
    rw [if_pos hhas, dayTotal]
    linarith
  · -- a beat that is left of the date and in the bounds is among those asked for
    have hnone : countStatus .ok (db.beats.filter (datedOn site key day)) = 0 := by
      apply countStatus_eq_zero
      intro b hb hdated
      obtain ⟨hdate, hbounds⟩ := of_decide_eq_true hdated
      have hwithin := (of_decide_eq_true hbounds).2
      refine absurd (List.any_eq_true.mpr ⟨b, hb, decide_eq_true ⟨hdate, ?_, ?_⟩⟩) hhas
      · exact (midnight_mono site.zone hstart).trans hwithin.1
      · exact hwithin.2.trans_le (midnight_mono site.zone (Int.add_le_add_right hstop 1))
    rw [if_neg hhas]
    linarith

theorem stored_fail {moments : Set Instant} (h : Written site key day moments db) :
    stored db.daily key day .fail = 0 := by
  rw [stored]
  cases hget : Table.get Daily.key db.daily (key, day) with
  | none => rfl
  | some row => exact (h row hget).1

/-- Without failures all that is observed is `ok`. -/
theorem dayCounts_ok {moments : Set Instant} (h : Written site key day moments db)
    (hok : AllOk site key day db.beats) :
    (dayCounts site db key start stop day).2 = (dayCounts site db key start stop day).1 := by
  have hfail : countStatus .fail (db.beats.filter (countedOn site key day)) = 0 := by
    apply hok.fails_eq_zero
    intro b hb
    rw [countedOn, counted, decide_eq_true_eq] at hb
    exact .inr (decide_eq_true ⟨hb.1, hb.2.1, hb.2.2.1⟩)
  rw [dayCounts_stored]
  by_cases hhas : hasRaw site db key start stop day = true
  · rw [if_pos hhas, dayTotal, dayTotal, stored_fail h, hfail]
    simp
  · rw [if_neg hhas, stored_fail h, add_zero]

theorem percent_self {n : ℤ} (h : 0 < n) {places : ℕ} (hplaces : roundDigits 100 places = 100) :
    percent n n places = 100 := by
  have hone : (n : ℚ) / n = 1 := div_self (Int.cast_ne_zero.mpr h.ne')
  have hhundred : nearestFloat 100 = 100 := by decide +kernel
  rw [percent, hone, nearestFloat_one, one_mul, hhundred, hplaces, hhundred, min_self]

theorem roundDigits_two_le {q : ℚ} (h : q < 19999 / 200) : roundDigits q 2 ≤ 9999 / 100 := by
  have hpow : (10 : ℚ) ^ 2 = 100 := by norm_num
  have habs := (abs_le.mp (abs_roundHalfEven_sub (q * 100))).2
  have hlt : (roundHalfEven (q * 100) : ℚ) < (10000 : ℤ) := by
    push_cast
    linarith
  have hint : roundHalfEven (q * 100) ≤ 9999 := Int.lt_add_one_iff.mp (Int.cast_lt.mp hlt)
  have hcast : (roundHalfEven (q * 100) : ℚ) ≤ 9999 := by exact_mod_cast hint
  rw [roundDigits, hpow]
  linarith

/-- One in 17280 is not rounded away. -/
theorem percent_lt {ok denominator : ℤ} (hpos : 0 < denominator)
    (h : ok * 17280 ≤ denominator * 17279) : percent ok denominator 2 < 100 := by
  have hle : (ok : ℚ) / denominator ≤ 131065 / 131072 := by
    have hcast : (ok : ℚ) * 17280 ≤ denominator * 17279 := by exact_mod_cast h
    have hden : (0 : ℚ) < denominator := Int.cast_pos.mpr hpos
    rw [div_le_iff₀ hden]
    linarith
  have hratio : nearestFloat ((ok : ℚ) / denominator) ≤ 131065 / 131072 :=
    nearestFloat_le (by decide +kernel) hle
  have hscaled : nearestFloat (nearestFloat ((ok : ℚ) / denominator) * 100) ≤ 131065 / 131072 * 100 :=
    nearestFloat_le (by decide +kernel) (mul_le_mul_of_nonneg_right hratio (by norm_num))
  have hround := roundDigits_two_le (hscaled.trans_lt (by norm_num))
  have hnear : nearestFloat (25599 / 256) = 25599 / 256 := by decide +kernel
  have hfloat := nearestFloat_le hnear (hround.trans (by norm_num))
  rw [percent]
  exact (min_le_left _ _).trans_lt (hfloat.trans_lt (by norm_num))

theorem dayUptime_whole {now : Instant} {ok : ℤ}
    (hcounts : dayCounts site db key start stop day = (ok, ok)) (hok : 0 < ok)
    (hexpected : expectedIntervalsForDay site now day key (epochStart site key) ≤ ok) :
    dayUptime site now db key start stop day = some 100 := by
  have hday : (Table.get Daily.key db.daily (key, day)).isSome ∨
      hasRaw site db key start stop day := by
    by_contra hnone
    obtain ⟨hrow, hraw⟩ := not_or.mp hnone
    have hget := Option.not_isSome_iff_eq_none.mp hrow
    rw [dayCounts_stored, if_neg hraw, stored, hget] at hcounts
    exact hok.ne (congrArg Prod.fst hcounts)
  have hdenominator : (if day = site.zone.localDate now then ok else
      max ok (expectedIntervalsForDay site now day key (epochStart site key))) = ok := by
    rw [max_eq_left hexpected, ite_self]
  have hplaces : roundDigits 100 2 = 100 := by decide +kernel
  rw [dayUptime, if_pos hday, hcounts]
  simp only [hdenominator]
  rw [if_pos hok.ne', percent_self hok hplaces]

theorem lookup_dailyUptimeMap {now : Instant} (hstart : start ≤ day) (hstop : day ≤ stop) :
    (dailyUptimeMap site now db key start stop).lookup day =
      some (dayUptime site now db key start stop day) := by
  have hgraph : ∀ l : List ℕ, (∃ i ∈ l, start + (i : ℤ) = day) →
      (l.map fun i : ℕ => (start + (i : ℤ), dayUptime site now db key start stop (start + i))).lookup
        day = some (dayUptime site now db key start stop day) := by
    intro l hl
    induction l with
    | nil => simp at hl
    | cons i l ih =>
      rw [List.map_cons, List.lookup_cons]
      by_cases hi : start + (i : ℤ) = day
      · simp [hi]
      · have hne : (day == start + (i : ℤ)) = false := beq_eq_false_iff_ne.mpr (Ne.symm hi)
        rw [hne]
        exact ih (by simpa [hi] using hl)
  refine hgraph _ ⟨(day - start).toNat, List.mem_range.mpr ?_, ?_⟩ <;> unfold Day at * <;> omega

end Reading

end CwStation.Heartbeat
