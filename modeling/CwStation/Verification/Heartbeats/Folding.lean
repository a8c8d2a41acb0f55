import CwStation.Library.Intervals
import CwStation.Model.Pruning
import Mathlib.Tactic.Linarith
import Mathlib.Tactic.Ring

/-! # What a fold counts

The rows of `daily_stats` count every beat once, whatever is excluded, and a batch adds to a
summary what its group counts. -/

namespace CwStation.Heartbeat

variable (site : Site)

/-! ## Groups -/

theorem nodup_groupKeys (beats : List Beat) : (groupKeys site beats).Nodup :=
  (List.perm_insertionSort _ _).nodup_iff.mpr (List.nodup_dedup _)

theorem mem_groupKeys {beats : List Beat} {k : Str × Day} :
    k ∈ groupKeys site beats ↔
      ∃ b ∈ beats, (b.monitorKey, site.zone.localDate b.timestamp) = k := by
  rw [groupKeys, (List.perm_insertionSort _ _).mem_iff, List.mem_dedup, List.mem_map]

theorem onDate_iff {key : Str} {day : Day} {b : Beat} : onDate site key day b = true ↔
    (b.monitorKey, site.zone.localDate b.timestamp) = (key, day) := by
  simp [onDate]

theorem countStatus_add (beats : List Beat) :
    countStatus .ok beats + countStatus .fail beats = beats.length := by
  unfold countStatus
  induction beats with
  | nil => rfl
  | cons b beats ih =>
    cases hstatus : b.status <;>
      simp only [List.countP_cons, hstatus, decide_true, decide_false, List.length_cons,
        reduceCtorEq, if_true, if_false, Bool.false_eq_true] <;>
      push_cast at ih ⊢ <;> omega

theorem groupOf_counts (beats : List Beat) (key : Str) (day : Day) :
    (groupOf site beats key day).okCount + (groupOf site beats key day).failCount =
      (beats.countP (onDate site key day) : ℕ) := by
  rw [groupOf, countStatus_add, List.countP_eq_length_filter]

/-- Every beat is in one group. -/
theorem sum_dailyStats (beats : List Beat) :
    ((dailyStats site beats).map fun g => g.okCount + g.failCount).sum = beats.length := by
  have hone : ∀ b ∈ beats, (((groupKeys site beats).map fun k => onDate site k.1 k.2).countP
      fun c => c b) = 1 := by
    intro b hb
    rw [List.countP_map]
    have hcount : (groupKeys site beats).countP ((fun c => c b) ∘ fun k => onDate site k.1 k.2) =
        (groupKeys site beats).count (b.monitorKey, site.zone.localDate b.timestamp) := by
      rw [List.count]
      apply List.countP_congr
      intro k _
      rw [Function.comp, onDate_iff, beq_iff_eq]
      exact eq_comm
    rw [hcount, List.count_eq_one_of_mem (nodup_groupKeys site beats)]
    exact (mem_groupKeys site).mpr ⟨b, hb, rfl⟩
  have hsum := Counting.sum_countP_of_partition _ beats hone
  rw [List.map_map] at hsum
  rw [dailyStats, List.map_map, ← hsum]
  clear hsum hone
  induction groupKeys site beats with
  | nil => rfl
  | cons k keys ih =>
    rw [List.map_cons, List.sum_cons, ih, List.map_cons, List.sum_cons]
    push_cast
    rw [Function.comp, groupOf_counts site beats k.1 k.2]
    rfl

/-! ## Rows -/

variable {daily : List Daily}

theorem get_put (row : Daily) (daily : List Daily) (k : Str × Day) :
    Table.get Daily.key (put row daily) k =
      if k = row.key then some row else Table.get Daily.key daily k := by
  unfold put
  cases hget : Table.get Daily.key daily row.key with
  | none =>
    rw [if_neg (by simp), Table.get_append]
    by_cases hk : k = row.key
    · subst hk
      simp [hget]
    · rw [if_neg hk, if_neg (Ne.symm hk), Option.or_none]
  | some old =>
    rw [if_pos (by simp), Table.get_alter_of fun _ _ => rfl]
    by_cases hk : k = row.key
    · subst hk
      simp [hget]
    · rw [if_neg hk, if_neg hk]

theorem unique_put (row : Daily) (h : Table.Unique Daily.key daily) :
    Table.Unique Daily.key (put row daily) := by
  unfold put
  cases hget : Table.get Daily.key daily row.key with
  | none =>
    rw [if_neg (by simp)]
    exact h.append hget
  | some old =>
    rw [if_pos (by simp), Table.Unique, Table.alter, List.map_map]
    have hkeys : (daily.map (Daily.key ∘ fun r => if r.key = row.key then row else r)) =
        daily.map Daily.key := by
      apply List.map_congr_left
      intro r _
      by_cases hr : r.key = row.key
      · simp [hr]
      · simp [hr]
    rw [hkeys]
    exact h

/-- A row that is put in replaces what was there in every sum. -/
theorem sum_put (f : Daily → ℤ) (row : Daily) (h : Table.Unique Daily.key daily) :
    ((put row daily).map f).sum =
      (daily.map f).sum - ((Table.get Daily.key daily row.key).map f).getD 0 + f row := by
  unfold put
  cases hget : Table.get Daily.key daily row.key with
  | none =>
    rw [if_neg (by simp)]
    simp
  | some old =>
    rw [if_pos (by simp)]
    induction daily with
    | nil => cases hget
    | cons r daily ih =>
      rw [Table.Unique, List.map_cons, List.nodup_cons] at h
      by_cases hr : r.key = row.key
      · have hold : r = old := by
          simpa [Table.get, List.find?_cons, hr] using hget
        have hrest : Table.alter Daily.key row.key (fun _ => row) daily = daily := by
          rw [Table.alter]
          conv_rhs => rw [← List.map_id daily]
          apply List.map_congr_left
          intro x hx
          have hne : x.key ≠ row.key := by
            rw [← hr]
            exact fun hk => h.1 (hk ▸ List.mem_map_of_mem hx)
          rw [if_neg hne]
          rfl
        have hhead : Table.alter Daily.key row.key (fun _ => row) (r :: daily) =
            row :: Table.alter Daily.key row.key (fun _ => row) daily := by
          simp [Table.alter, hr]
        rw [hhead, hrest]
        simp only [List.map_cons, List.sum_cons, Option.map_some, Option.getD_some, hold]
        ring
      · have hget' : Table.get Daily.key daily row.key = some old := by
          simpa [Table.get, List.find?_cons, hr] using hget
        have hhead : Table.alter Daily.key row.key (fun _ => row) (r :: daily) =
            r :: Table.alter Daily.key row.key (fun _ => row) daily := by
          simp [Table.alter, hr]
        rw [hhead, List.map_cons, List.sum_cons, ih h.2 hget']
        simp only [List.map_cons, List.sum_cons, Option.map_some, Option.getD_some]
        ring

/-- A batch adds what its group counts, whatever of it is excluded. -/
theorem folded_addBatch (row : Daily) (g : Group) (excluded : Excluded) (expected : ℤ) :
    (addBatch row g excluded expected).folded = row.folded + (g.okCount + g.failCount) := by
  simp only [addBatch, Daily.folded]
  ring

theorem key_addBatch (row : Daily) (g : Group) (excluded : Excluded) (expected : ℤ) :
    (addBatch row g excluded expected).key = row.key := rfl

end CwStation.Heartbeat
