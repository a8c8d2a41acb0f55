import CwStation.Model.Pruning
import CwStation.Verification.Heartbeats.Folding

/-! # Each beat is folded once

A prune adds up what it has read, and deletes what it finds. As long as no other prune reads its
daily stats between a prune's reading of them and its commit, the two are the same beats. -/

namespace CwStation.Heartbeat

open Requests

variable {site : Site}

/-! ## Between the stats and the commit -/

/-- The prune has read its daily stats and not committed. -/
def Point.isFolding : Point → Bool
  | .check | .stats | .done _ => false
  | _ => true

def batch (g : Group) : ℤ := g.okCount + g.failCount

/-- What is still to be added to the summaries that the transaction sees. -/
def Place.owed (p : Place) (s : Shared) : ℤ :=
  match p.point with
  | .countSpan g groups _ _ _ | .countSpanOk g groups _ _ _ | .get g groups _ | .create g groups _ =>
      batch g + (groups.map batch).sum
  | .save row groups =>
      row.folded - ((Table.get Daily.key (p.visible s) row.key).map Daily.folded).getD 0 +
        (groups.map batch).sum
  | _ => 0

/-- The beats that are to be deleted are those that were counted. -/
def Place.Aimed (site : Site) (p : Place) (s : Shared) : Prop :=
  match p.point with
  | .delete pks => pks = (p.old site s).map Beat.pk
  | .commit => p.doomed = (p.old site s).map Beat.pk
  | _ => True

/-- What a transaction holds while it folds: the summaries it sees, with what they are owed, make
up for the beats it is about. -/
structure Folds (site : Site) (p : Place) (s : Shared) : Prop where
  unique : Table.Unique Daily.key (p.visible s)
  sum : ((p.visible s).map Daily.folded).sum + p.owed s =
    (s.db.daily.map Daily.folded).sum + (p.old site s).length
  aimed : p.Aimed site s

/-- Constraints of the tables. -/
structure Db.Sound (db : Db) : Prop where
  beats : (db.beats.map Beat.pk).Nodup
  daily : Table.Unique Daily.key db.daily

variable {p : Place} {s s' : Shared}

/-- At the counts of a group, or behind them, the group and those behind it are owed. -/
theorem owed_countSpans {g : Group} {groups : List Group} {excluded : Excluded}
    {spans : List (Aware × Aware)} (hpoint : p.point = countSpans g groups excluded spans) :
    p.owed s = batch g + (groups.map batch).sum := by
  unfold Place.owed
  rw [hpoint]
  cases spans <;> rfl

theorem owed_nextGroup {groups : List Group} (hpoint : p.point = nextGroup site groups) :
    p.owed s = (groups.map batch).sum := by
  cases groups with
  | nil =>
    unfold Place.owed
    rw [hpoint]
    rfl
  | cons g groups => exact owed_countSpans hpoint

theorem folding_nextGroup (groups : List Group) : (nextGroup site groups).isFolding = true := by
  cases groups with
  | nil => rfl
  | cons g groups =>
    rw [nextGroup]
    cases spansOf site g <;> rfl

theorem aimed_nextGroup {groups : List Group} (hpoint : p.point = nextGroup site groups) :
    p.Aimed site s := by
  unfold Place.Aimed
  rw [hpoint]
  cases groups with
  | nil => trivial
  | cons g groups =>
    rw [nextGroup]
    cases spansOf site g <;> trivial

/-- A transaction's view rests on the tables alone. -/
theorem Folds.moved (h : Folds site p s) (hdb : s'.db = s.db) {point : Point}
    (howed : ({ p with point := point } : Place).owed s = p.owed s)
    (haimed : ({ p with point := point } : Place).Aimed site s) :
    Folds site { p with point := point } s' := by
  have hvisible : ({ p with point := point } : Place).visible s' = p.visible s := by
    rw [Place.visible, hdb]
    rfl
  have hold : ({ p with point := point } : Place).old site s' = p.old site s := by
    rw [Place.old, hdb]
    rfl
  have howed' : ({ p with point := point } : Place).owed s' = p.owed s := by
    rw [← howed]
    unfold Place.owed
    simp only [hvisible]
    rfl
  refine ⟨?_, ?_, ?_⟩
  · rw [hvisible]
    exact h.unique
  · rw [hvisible, hold, howed', hdb]
    exact h.sum
  · unfold Place.Aimed at haimed ⊢
    simp only [hold]
    exact haimed

theorem Folds.frame (h : Folds site p s) (hdb : s'.db = s.db) : Folds site p s' :=
  h.moved hdb rfl h.aimed

/-- Old beats are found again by their keys. -/
theorem filter_old (hpks : (s.db.beats.map Beat.pk).Nodup) :
    (s.db.beats.filter fun b => b.pk ∈ (p.old site s).map Beat.pk) = p.old site s := by
  rw [Place.old, oldRecords]
  apply List.filter_congr
  intro b hb
  apply decide_eq_decide.mpr
  constructor
  · intro hmem
    obtain ⟨b', hb', hpk⟩ := List.mem_map.mp hmem
    have hunique : Table.Unique Beat.pk s.db.beats := hpks
    have hsame := hunique.eq_of_key (List.mem_of_mem_filter hb') hb hpk
    rw [← hsame]
    exact of_decide_eq_true (List.mem_filter.mp hb').2
  · intro hlt
    exact List.mem_map_of_mem (List.mem_filter.mpr ⟨hb, decide_eq_true hlt⟩)

/-- The stats, read at the start, are what the prune owes. -/
theorem folds_stats (hsound : s.db.Sound) (hwrites : p.writes = []) :
    Folds site { p with point := nextGroup site (dailyStats site (p.old site s)) } s := by
  have hvisible : ∀ point, ({ p with point := point } : Place).visible s = s.db.daily := by
    intro point
    rw [Place.visible, hwrites]
    rfl
  refine ⟨?_, ?_, aimed_nextGroup rfl⟩
  · rw [hvisible]
    exact hsound.daily
  · rw [hvisible, owed_nextGroup rfl]
    congr 1
    exact sum_dailyStats site _

/-- A row is written to. -/
theorem Folds.written (h : Folds site p s) {p' : Place} (row : Daily) (hdb : s'.db = s.db)
    (hnow : p'.now = p.now) (hwrites : p'.writes = p.writes ++ [row])
    (howed : p'.owed s =
      p.owed s + ((Table.get Daily.key (p.visible s) row.key).map Daily.folded).getD 0 - row.folded)
    (haimed : p'.Aimed site s) : Folds site p' s' := by
  have hvisible : p'.visible s = put row (p.visible s) := by
    rw [Place.visible, hwrites, List.foldl_append]
    rfl
  have hold : p'.old site s = p.old site s := by
    rw [Place.old, Place.cutoff, hnow]
    rfl
  have hput : Folds site p' s := by
    refine ⟨?_, ?_, haimed⟩
    · rw [hvisible]
      exact unique_put row h.unique
    · have hsum := h.sum
      rw [hvisible, howed, sum_put Daily.folded row h.unique, hold]
      omega
  exact hput.frame hdb

/-- A statement of a transaction that folds keeps the account, up to its commit. -/
theorem folds_statement (h : Folds site p s) (hsound : s.db.Sound)
    (hfolding : p.point.isFolding = true) (hcommit : p.point ≠ .commit) :
    (statement site p s).2.db = s.db ∧ ((statement site p s).1.point.isFolding = true →
      Folds site (statement site p s).1 (statement site p s).2) := by
  have howed := h.sum
  have haimed := h.aimed
  unfold statement
  unfold Place.Aimed at haimed
  cases hpoint : p.point with
  | check | stats | done _ =>
    rw [hpoint] at hfolding
    cases hfolding
  | commit => exact absurd hpoint hcommit
  | countSpan g groups span spans excluded =>
    refine ⟨rfl, fun _ => h.moved rfl ?_ trivial⟩
    simp only [Place.owed, hpoint]
  | countSpanOk g groups span spans excluded =>
    refine ⟨rfl, fun _ => h.moved rfl ?_ ?_⟩
    · refine (owed_countSpans rfl).trans ?_
      simp only [Place.owed, hpoint]
    · cases spans <;> trivial
  | get g groups excluded =>
    dsimp only
    cases hget : Table.get Daily.key (p.visible s) (g.monitorKey, g.date) with
    | none =>
      refine ⟨rfl, fun _ => h.moved rfl ?_ trivial⟩
      simp only [Place.owed, hpoint]
    | some row =>
      refine ⟨rfl, fun _ => h.moved rfl ?_ trivial⟩
      have hkey := Table.key_of_get hget
      have hvisible : ∀ point, ({ p with point := point } : Place).visible s = p.visible s :=
        fun _ => rfl
      simp only [Place.owed, hpoint, summed, key_addBatch, folded_addBatch, hvisible, hkey, hget,
        Option.map_some, Option.getD_some, batch]
      ring
  | create g groups excluded =>
    dsimp only
    by_cases hlocked : (freshDaily g (p.expected site g)).key ∈ s.rowLocks
    · rw [if_pos hlocked]
      exact ⟨rfl, fun _ => h⟩
    · rw [if_neg hlocked]
      cases hget : Table.get Daily.key (p.visible s) (freshDaily g (p.expected site g)).key with
      | some row =>
        rw [if_pos (by simp)]
        refine ⟨rfl, fun _ => h.moved rfl ?_ trivial⟩
        simp only [Place.owed, hpoint]
      | none =>
        rw [if_neg (by simp)]
        refine ⟨rfl, fun _ => h.written (freshDaily g (p.expected site g)) ?_ ?_ ?_ ?_ trivial⟩
        any_goals rfl
        rw [hget]
        simp only [Place.owed, hpoint, summed, key_addBatch, folded_addBatch, Place.visible,
          List.foldl_append, List.foldl_cons, List.foldl_nil, get_put, if_true]
        simp [batch, Daily.folded, freshDaily]
  | save row groups =>
    dsimp only
    by_cases hlocked : row.key ∈ s.rowLocks ∧ row.key ∉ p.writes.map Daily.key
    · rw [if_pos hlocked]
      exact ⟨rfl, fun _ => h⟩
    · rw [if_neg hlocked]
      by_cases hvalid : row.isValid = true
      · rw [if_pos hvalid]
        refine ⟨rfl, fun _ => h.written row ?_ ?_ ?_ ?_ (aimed_nextGroup rfl)⟩
        any_goals rfl
        refine (owed_nextGroup rfl).trans ?_
        simp only [Place.owed, hpoint]
        ring
      · rw [if_neg hvalid]
        exact ⟨rfl, fun hdone => by cases hdone⟩
  | collect =>
    refine ⟨rfl, fun _ => h.moved rfl ?_ rfl⟩
    simp only [Place.owed, hpoint]
  | delete pks =>
    dsimp only
    rw [hpoint] at haimed
    by_cases hlocked : ∃ pk ∈ pks, pk ∈ s.beatLocks
    · rw [if_pos hlocked]
      exact ⟨rfl, fun _ => h⟩
    · rw [if_neg hlocked]
      refine ⟨rfl, fun _ => ?_⟩
      have hdoomed : (s.db.beats.filter fun b => b.pk ∈ pks).map Beat.pk =
          (p.old site s).map Beat.pk := by
        rw [show pks = _ from haimed, filter_old hsound.beats]
      refine ⟨h.unique, ?_, hdoomed⟩
      have hzero : p.owed s = 0 := by simp only [Place.owed, hpoint]
      rw [hzero] at howed
      exact howed

theorem length_kept (beats : List Beat) (cutoff : Instant) :
    (beats.filter fun b => ¬b.timestamp < cutoff).length + (oldRecords cutoff beats).length =
      beats.length := by
  have hsplit : beats.length = (beats.filter fun b => b.timestamp < cutoff).length +
      (beats.filter fun b => !decide (b.timestamp < cutoff)).length :=
    List.length_eq_length_filter_add _
  simp only [← decide_not] at hsplit
  rw [oldRecords]
  omega

/-- A prune that folds goes on to fold, or is done. -/
theorem statement_point (hfolding : p.point.isFolding = true) :
    (statement site p s).1.point.isFolding = true ∨ (statement site p s).1.point.isDone = true := by
  unfold statement
  cases hpoint : p.point with
  | check | stats | done _ =>
    rw [hpoint] at hfolding
    cases hfolding
  | countSpan _ _ _ _ _ | collect => exact .inl rfl
  | countSpanOk g groups span spans excluded => cases spans <;> exact .inl rfl
  | get g groups excluded =>
    dsimp only
    cases Table.get Daily.key (p.visible s) (g.monitorKey, g.date) <;> exact .inl rfl
  | create g groups excluded =>
    dsimp only
    split_ifs
    · exact .inl hfolding
    · exact .inl rfl
    · exact .inl rfl
  | save row groups =>
    dsimp only
    split_ifs
    · exact .inl hfolding
    · exact .inl (folding_nextGroup groups)
    · exact .inr rfl
  | delete pks =>
    dsimp only
    split_ifs
    · exact .inl hfolding
    · exact .inl rfl
  | commit => exact .inr rfl

/-- The beats that a commit leaves are those that were not counted. -/
theorem filter_kept (hpks : (s.db.beats.map Beat.pk).Nodup) :
    (s.db.beats.filter fun b => b.pk ∉ (p.old site s).map Beat.pk) =
      s.db.beats.filter fun b => ¬b.timestamp < p.cutoff site := by
  apply List.filter_congr
  intro b hb
  have hmem : b ∈ (s.db.beats.filter fun b => b.pk ∈ (p.old site s).map Beat.pk) ↔
      b ∈ p.old site s := by rw [filter_old hpks]
  rw [Place.old, oldRecords, List.mem_filter, List.mem_filter] at hmem
  simp only [hb, true_and, decide_eq_true_eq] at hmem
  apply decide_eq_decide.mpr
  rw [not_iff_not]
  exact hmem

/-- At its commit the summaries make up for the beats that go. -/
theorem folds_commit (h : Folds site p s) (hsound : s.db.Sound) (hpoint : p.point = .commit) :
    (statement site p s).2.db.tally = s.db.tally ∧ (statement site p s).2.db.Sound ∧
      (statement site p s).1.point.isDone = true := by
  have hsum := h.sum
  have haimed := h.aimed
  simp only [Place.Aimed, hpoint] at haimed
  have hzero : p.owed s = 0 := by simp only [Place.owed, hpoint]
  have hdb : (statement site p s).2.db =
      { beats := s.db.beats.filter fun b => ¬b.timestamp < p.cutoff site, daily := p.visible s } := by
    unfold statement
    simp only [hpoint, haimed]
    rw [filter_kept hsound.beats]
  have hlength := length_kept s.db.beats (p.cutoff site)
  refine ⟨?_, ?_, ?_⟩
  · rw [hdb]
    unfold Db.tally
    unfold Place.old at hsum
    dsimp only
    omega
  · rw [hdb]
    exact ⟨hsound.beats.sublist ((List.filter_sublist).map _), h.unique⟩
  · unfold statement
    simp only [hpoint]
    rfl

/-! ## Prunes beside one another -/

/-- When a prune reads its stats, no other has read its own and not committed. -/
def Alone (y : Server Instant Place Shared) : Turn Instant → Prop
  | .start _ => True
  | .run i => ∀ r ∈ y.requests[i]?, r.2.point = .stats → ∀ j < y.requests.length, i ≠ j →
      ∀ q ∈ y.requests[j]?, q.2.point.isFolding = false

instance (y : Server Instant Place Shared) (turn : Turn Instant) : Decidable (Alone y turn) :=
  match turn with
  | .start _ => isTrue trivial
  | .run _ => inferInstanceAs (Decidable (∀ r ∈ _, _))

/-- All turns of a run are taken so. -/
def Apart (site : Site) (y : Server Instant Place Shared) : List (Turn Instant) → Prop
  | [] => True
  | turn :: turns => Alone y turn ∧ Apart site (y.step startPrune (statement site) turn) turns

instance decidableApart (site : Site) (y : Server Instant Place Shared) :
    (turns : List (Turn Instant)) → Decidable (Apart site y turns)
  | [] => isTrue trivial
  | turn :: turns =>
      have := decidableApart site (y.step startPrune (statement site) turn) turns
      inferInstanceAs (Decidable (_ ∧ _))

/-- What holds of a prune beside the tables. -/
structure Held (site : Site) (s : Shared) (p : Place) : Prop where
  folds : p.point.isFolding = true → Folds site p s
  ready : p.point = .check ∨ p.point = .stats → p.writes = []

/-- The tables are sound and count as many beats as ever, and one prune folds at most. -/
abbrev Counted (site : Site) (total : ℤ) : Server Instant Place Shared → Prop :=
  Server.Invariant (fun s => s.db.Sound ∧ s.db.tally = total) (fun s _ p => Held site s p)
    fun _ p _ q => ¬(p.point.isFolding = true ∧ q.point.isFolding = true)

theorem Held.frame (h : Held site s p) (hdb : s'.db = s.db) : Held site s' p :=
  ⟨fun hfolding => (h.folds hfolding).frame hdb, h.ready⟩

theorem free_statement {total : ℤ} {y : Server Instant Place Shared} (hy : Counted site total y)
    {i : ℕ} (halone : Alone y (.run i)) {now : Instant} (hi : y.requests[i]? = some (now, p)) :
    Server.Free (statement site) (fun s => s.db.Sound ∧ s.db.tally = total)
      (fun s _ p => Held site s p)
      (fun _ p _ q => ¬(p.point.isFolding = true ∧ q.point.isFolding = true)) y i now p := by
  have hheld : Held site y.state p := hy.request hi
  -- a statement that leaves the tables leaves the others their accounts
  have hquiet : (statement site p y.state).2.db = y.state.db →
      Held site (statement site p y.state).2 (statement site p y.state).1 →
      (∀ {j : ℕ} {now' q}, i ≠ j → y.requests[j]? = some (now', q) →
        ¬((statement site p y.state).1.point.isFolding = true ∧ q.point.isFolding = true)) →
      Server.Free (statement site) (fun s => s.db.Sound ∧ s.db.tally = total)
        (fun s _ p => Held site s p)
        (fun _ p _ q => ¬(p.point.isFolding = true ∧ q.point.isFolding = true)) y i now p := by
    intro hdb hown hpair
    refine ⟨?_, hown, fun hij hj => (hy.request hj).frame hdb, hpair⟩
    rw [hdb]
    exact hy.state
  by_cases hfolding : p.point.isFolding = true
  · by_cases hcommit : p.point = .commit
    · obtain ⟨htally, hsound, hdone⟩ := folds_commit (hheld.folds hfolding) hy.state.1 hcommit
      have hended : (statement site p y.state).1.point.isFolding = false := by
        cases hresult : (statement site p y.state).1.point <;> rw [hresult] at hdone <;>
          first | rfl | cases hdone
      refine ⟨⟨hsound, htally.trans hy.state.2⟩, ⟨fun h => ?_, fun h => ?_⟩, ?_, fun _ _ h => ?_⟩
      · rw [hended] at h
        cases h
      · rcases h with h | h <;> rw [h] at hdone <;> cases hdone
      · intro j now' q hij hj
        have hother : Held site y.state q := hy.request hj
        exact ⟨fun h => absurd ⟨hfolding, h⟩ (hy.pair hij hi hj), hother.ready⟩
      · rw [hended] at h
        cases h.1
    · obtain ⟨hdb, hfolds⟩ := folds_statement (hheld.folds hfolding) hy.state.1 hfolding hcommit
      refine hquiet hdb ⟨hfolds, fun h => ?_⟩ fun hij hj h => hy.pair hij hi hj ⟨hfolding, h.2⟩
      have hnext : (statement site p y.state).1.point.isFolding = true ∨
          (statement site p y.state).1.point.isDone = true := statement_point hfolding
      rcases h with h | h <;> rw [h] at hnext <;> rcases hnext with hnext | hnext <;> cases hnext
  · cases hpoint : p.point with
    | check =>
      have hstep : statement site p y.state =
          ({ p with point := if p.old site y.state = [] then .done (.ok 0) else .stats },
            y.state) := by
        unfold statement
        simp only [hpoint]
        split_ifs <;> rfl
      have hfalse : (statement site p y.state).1.point.isFolding = false := by
        rw [hstep]
        dsimp only
        split_ifs <;> rfl
      refine hquiet (by rw [hstep]) ⟨fun h => ?_, fun _ => ?_⟩ fun _ _ h => ?_
      · rw [hfalse] at h
        cases h
      · rw [hstep]
        exact hheld.ready (.inl hpoint)
      · rw [hfalse] at h
        cases h.1
    | stats =>
      have hstep : statement site p y.state =
          ({ p with point := nextGroup site (dailyStats site (p.old site y.state)) }, y.state) := by
        unfold statement
        simp only [hpoint]
      have hfolds : Folds site _ y.state := folds_stats hy.state.1 (hheld.ready (.inr hpoint))
      refine hquiet (by rw [hstep]) ⟨fun _ => by rw [hstep]; exact hfolds, fun h => ?_⟩ ?_
      · have htrue : (nextGroup site (dailyStats site (p.old site y.state))).isFolding = true :=
          folding_nextGroup _
        rw [hstep] at h
        dsimp only at h
        rcases h with h | h <;> rw [h] at htrue <;> cases htrue
      · intro j now' q hij hj h
        have hlt : j < y.requests.length := (List.getElem?_eq_some_iff.mp hj).1
        rw [halone (now, p) hi hpoint j hlt hij (now', q) hj] at h
        cases h.2
    | done r =>
      have hstep : statement site p y.state = (p, y.state) := by
        unfold statement
        simp only [hpoint]
      refine hquiet (by rw [hstep]) (by rw [hstep]; exact hheld) fun hij hj => ?_
      rw [hstep]
      exact hy.pair hij hi hj
    | _ => exact absurd (by rw [hpoint]; rfl) hfolding

theorem counted_run {total : ℤ} {y : Server Instant Place Shared} (hy : Counted site total y)
    {turns : List (Turn Instant)} (hturns : Apart site y turns) :
    Counted site total (y.run startPrune (statement site) turns) := by
  induction turns generalizing y with
  | nil => exact hy
  | cons turn turns ih =>
    apply ih _ hturns.2
    have hsymm : ∀ (_ : Instant) (p : Place) (_ : Instant) (q : Place),
        ¬(p.point.isFolding = true ∧ q.point.isFolding = true) →
          ¬(q.point.isFolding = true ∧ p.point.isFolding = true) :=
      fun _ _ _ _ h h' => h h'.symm
    cases turn with
    | start now =>
      refine hy.start hsymm ⟨fun h => (by cases h), fun _ => rfl⟩ fun _ h => ?_
      cases h.1
    | run i => exact hy.run hsymm fun now p hi => free_statement hy hturns.1 hi

theorem counted_start {db : Db} (hdb : db.Sound) :
    Counted site db.tally ({ state := { db := db } } : Server Instant Place Shared) where
  state := ⟨hdb, rfl⟩
  request hi := by simp at hi
  pair _ hi _ := by simp at hi

/-- Prunes that do not read their stats between another's reading of its own and its commit fold
each beat once, in every state they come to. -/
theorem beats_folded_once {db : Db} (hdb : db.Sound) {turns : List (Turn Instant)}
    (hturns : Apart site { state := { db := db } } turns) :
    (prunes site db turns).state.db.tally = db.tally :=
  (counted_run (counted_start hdb) hturns).state.2

/-! ### One beat -/

def weekSite : Site where
  zone := .utc
  retentionDays := 7
  interval := 60
  windows := []
  epochs := []
  interval_pos := by decide

def oneBeat : Db where
  beats := [{ pk := 1, monitorKey := "site".toList, timestamp := 0, status := .ok,
              responseTimeMs := 20 }]
  daily := []

def aWeekLater : Instant := 8 * dayLength

/-- Both prunes read their stats, and the second goes on when the first has committed. -/
def racingTurns : List (Turn Instant) :=
  [.start aWeekLater, .start aWeekLater, .run 0, .run 0, .run 1, .run 1] ++
    List.replicate 6 (.run 0) ++ List.replicate 5 (.run 1)

theorem beat_folded_twice :
    (∀ r ∈ (prunes weekSite oneBeat racingTurns).requests, r.2.point.isDone = true) ∧
      oneBeat.tally = 1 ∧ (prunes weekSite oneBeat racingTurns).state.db.tally = 2 := by
  decide +kernel

/-- One prune after the other. -/
def queuedTurns : List (Turn Instant) :=
  [.start aWeekLater, .start aWeekLater] ++ List.replicate 8 (.run 0) ++ List.replicate 8 (.run 1)

theorem oneBeat_sound : oneBeat.Sound where
  beats := by decide
  daily := List.nodup_nil

theorem beat_folded_once : (prunes weekSite oneBeat queuedTurns).state.db.tally = oneBeat.tally :=
  beats_folded_once oneBeat_sound (by decide +kernel)

end CwStation.Heartbeat
