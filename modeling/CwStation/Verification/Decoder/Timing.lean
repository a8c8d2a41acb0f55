import Mathlib.Tactic.Linarith
import CwStation.Verification.Decoder.Runs

/-! # The dit estimate over exact time

The clock of a running decoder moves forward, so every mark has a positive length, and
an estimate made from positive marks is positive. -/

namespace CwStation

open Emit

namespace DecodeState

/-! ## The moving estimate and the bootstrap estimate -/

theorem elementKind_rat (dit dur : ℚ) :
    elementKind dit dur = if dur < 2 * dit then .dit else .dah := rfl

theorem adaptDit_rat (dit dur : ℚ) :
    adaptDit dit dur =
      if dur < 2 * dit then 4 / 5 * dit + 1 / 5 * dur else 4 / 5 * dit + 1 / 5 * (dur / 3) := by
  unfold adaptDit
  rw [elementKind_rat]
  by_cases h : dur < 2 * dit
  · simp only [h, ite_true]
    rfl
  · simp only [h, ite_false]
    rfl

theorem adaptDit_pos {dit dur : ℚ} (hdit : 0 < dit) (hdur : 0 < dur) : 0 < adaptDit dit dur := by
  have hthird : 0 < dur / 3 := div_pos hdur (by norm_num)
  rw [adaptDit_rat]
  split <;> linarith

theorem foldl_min_spec (xs : List ℚ) (a : ℚ) :
    (xs.foldl PyFloat.min a = a ∨ xs.foldl PyFloat.min a ∈ xs) ∧ xs.foldl PyFloat.min a ≤ a ∧
      ∀ x ∈ xs, xs.foldl PyFloat.min a ≤ x := by
  induction xs generalizing a with
  | nil => simp
  | cons x xs ih =>
    obtain ⟨hmem, hle, hall⟩ := ih (PyFloat.min a x)
    have hmin : PyFloat.min a x ≤ a ∧ PyFloat.min a x ≤ x ∧
        (PyFloat.min a x = a ∨ PyFloat.min a x = x) := by
      unfold PyFloat.min
      by_cases hx : x < a
      · simp [hx, hx.le]
      · simp [hx, le_of_not_gt hx]
    refine ⟨?_, hle.trans hmin.1, ?_⟩
    · rcases hmem with h | h
      · rcases hmin.2.2 with h' | h'
        · exact .inl (h.trans h')
        · exact .inr (by rw [List.foldl_cons, h, h']; simp)
      · exact .inr (List.mem_cons_of_mem x h)
    · intro y hy
      rcases List.mem_cons.mp hy with rfl | hy
      · exact hle.trans hmin.2.1
      · exact hall y hy

/-- `min(marks)`. -/
def shortest (marks : List ℚ) : ℚ := marks.foldl PyFloat.min (marks.headD PyFloat.nan)

theorem shortest_spec {marks : List ℚ} (hne : marks ≠ []) :
    shortest marks ∈ marks ∧ ∀ m ∈ marks, shortest marks ≤ m := by
  obtain ⟨hmem, -, hall⟩ := foldl_min_spec marks (marks.headD PyFloat.nan)
  refine ⟨?_, hall⟩
  rcases hmem with h | h
  · rw [shortest, h]
    cases marks with
    | nil => exact absurd rfl hne
    | cons m rest => simp
  · exact h

theorem mem_ditCluster {marks : List ℚ} {m : ℚ} :
    m ∈ ditCluster marks ↔ m ∈ marks ∧ m ≤ 8 / 5 * shortest marks := by
  simp [ditCluster, shortest]

/-- What holds of every mark of the cluster and of means holds of the estimate. -/
theorem estimateDit_of_cluster {P : ℚ → Prop} (hmean : ∀ a b, P a → P b → P ((a + b) / 2))
    {marks : List ℚ} (hne : marks ≠ []) (hpos : ∀ m ∈ marks, 0 < m)
    (h : ∀ m ∈ ditCluster marks, P m) : P (estimateDit marks) := by
  obtain ⟨hmem, -⟩ := shortest_spec hne
  have hlo := hpos _ hmem
  have hcluster : shortest marks ∈ ditCluster marks := mem_ditCluster.mpr ⟨hmem, by linarith⟩
  exact Median.median_of_forall hmean (List.ne_nil_of_mem hcluster) h

theorem estimateDit_pos {marks : List ℚ} (hne : marks ≠ []) (hpos : ∀ m ∈ marks, 0 < m) :
    0 < estimateDit marks := by
  refine estimateDit_of_cluster (P := fun q => 0 < q) ?_ hne hpos ?_
  · intro a b ha hb
    linarith
  · intro m hm
    exact hpos m (mem_ditCluster.mp hm).1

/-! ## Positive lengths -/

/-- Every estimate in use and every buffered mark is positive. -/
structure Timed (d : DecodeState ℚ) : Prop where
  dit_pos : ∀ dit, d.dit = some dit → 0 < dit
  runs_pos : ∀ t dur, (true, t, dur) ∈ d.bootRuns → 0 < dur

theorem Timed.congr {d d' : DecodeState ℚ} (h : Timed d) (heq : d'.books = d.books) : Timed d' := by
  simp only [books, Prod.mk.injEq] at heq
  refine ⟨?_, ?_⟩
  · rw [heq.1]
    exact h.dit_pos
  · rw [heq.2.1]
    exact h.runs_pos

theorem replay_dit_pos {d d' : DecodeState ℚ} {runs : List (BootRun ℚ)} {out : List (CharEvent ℚ)}
    {dit : ℚ} (hd : d.dit = some dit) (hdit : 0 < dit)
    (hruns : ∀ t dur, (true, t, dur) ∈ runs → 0 < dur)
    (h : emitAll replayRun d runs = .ok (out, d')) : ∃ dit', d'.dit = some dit' ∧ 0 < dit' := by
  induction runs generalizing d dit out with
  | nil =>
    rw [emitAll_nil, Except.ok.injEq, Prod.mk.injEq] at h
    exact ⟨dit, h.2 ▸ hd, hdit⟩
  | cons run rest ih =>
    obtain ⟨on, t, dur⟩ := run
    obtain ⟨first, mid, tail, hfirst, hrest, rfl⟩ := emitAll_cons_eq_ok.mp h
    have htail : ∀ t dur, (true, t, dur) ∈ rest → 0 < dur :=
      fun t dur hm => hruns t dur (List.mem_cons_of_mem _ hm)
    cases on with
    | true =>
      have hdur : 0 < dur := hruns t dur (by simp)
      simp only [replayRun, addElement_of_dit hd, bind, Except.bind, Except.ok.injEq,
        Prod.mk.injEq] at hfirst
      obtain ⟨-, rfl⟩ := hfirst
      exact ih rfl (adaptDit_pos hdit hdur) htail hrest
    | false =>
      exact ih ((spaceLogic_keeps hd hfirst).1) hdit htail hrest

theorem replayBoot_timed {d d' : DecodeState ℚ} {out : List (CharEvent ℚ)} (h : Timed d)
    (hd : d.dit.isSome = true) (hok : replayBoot d = .ok (out, d')) : Timed d' := by
  obtain ⟨dit, hdit⟩ := Option.isSome_iff_exists.mp hd
  simp only [replayBoot, bind_eq_ok, Except.ok.injEq, Prod.exists, Prod.mk.injEq] at hok
  obtain ⟨out', e, hrun, -, rfl⟩ := hok
  obtain ⟨dit', he, hpos⟩ := replay_dit_pos (d := updateWpm d) hdit (h.dit_pos dit hdit) h.runs_pos hrun
  refine ⟨?_, by simp⟩
  intro dit'' hsome
  change e.dit = some dit'' at hsome
  rw [he, Option.some.injEq] at hsome
  exact hsome ▸ hpos

/-- The marks of the bootstrap buffer are positive when its runs are. -/
theorem Timed.bootMarks_pos {d : DecodeState ℚ} (h : Timed d) (hb : Booked d) :
    ∀ m ∈ d.bootMarks, 0 < m := by
  intro m hm
  rw [hb.buffered, List.mem_map] at hm
  obtain ⟨⟨t, dur⟩, hmem, rfl⟩ := hm
  obtain ⟨⟨on, t', dur'⟩, hrun, hmark⟩ := List.mem_filterMap.mp hmem
  cases on with
  | false => cases hmark
  | true =>
    simp only [bootMark, Option.some.injEq, Prod.mk.injEq] at hmark
    exact hmark.2 ▸ h.runs_pos t' dur' hrun

theorem onMarkEnd_timed {d d' : DecodeState ℚ} {out : List (CharEvent ℚ)} {t dur : ℚ}
    (hb : Booked d) (h : Timed d) (hdur : 0 < dur)
    (hok : onMarkEnd t dur d = .ok (out, d')) : Timed d' := by
  cases hd : d.dit with
  | none =>
    have hrec : (recordMark t dur d).dit = none := hd
    simp only [onMarkEnd, hrec] at hok
    have hruns : ∀ t' dur', (true, t', dur') ∈ d.bootRuns ++ [(true, t, dur)] → 0 < dur' := by
      intro t' dur' hm
      rcases List.mem_append.mp hm with hm | hm
      · exact h.runs_pos t' dur' hm
      · simp only [List.mem_singleton, Prod.mk.injEq] at hm
        exact hm.2.2 ▸ hdur
    have hbuf : Timed (bufferMark t dur (recordMark t dur d)) := ⟨h.dit_pos, hruns⟩
    have hmarks := hbuf.bootMarks_pos (bufferMark_booked hb hd t dur)
    have hne : (bufferMark t dur (recordMark t dur d)).bootMarks ≠ [] := by simp [bufferMark]
    split at hok
    · refine replayBoot_timed ⟨?_, hruns⟩ rfl hok
      intro dit hsome
      rw [← Option.some.inj hsome]
      exact estimateDit_pos hne hmarks
    · cases hok
      exact hbuf
  | some dit =>
    have hrec : (recordMark t dur d).dit = some dit := hd
    simp only [onMarkEnd, hrec, addElement_of_dit hrec, bind, Except.bind, Except.ok.injEq,
      Prod.mk.injEq] at hok
    obtain ⟨-, rfl⟩ := hok
    refine ⟨?_, h.runs_pos⟩
    intro dit' hsome
    rw [← Option.some.inj hsome]
    exact adaptDit_pos (h.dit_pos dit hd) hdur

theorem onSpaceEnd_timed {d d' : DecodeState ℚ} {out : List (CharEvent ℚ)} {dur : ℚ}
    (h : Timed d) (hok : onSpaceEnd dur d = .ok (out, d')) : Timed d' := by
  cases hd : d.dit with
  | none =>
    simp only [onSpaceEnd, hd, Except.ok.injEq, Prod.mk.injEq] at hok
    obtain ⟨-, rfl⟩ := hok
    split
    · exact h
    · refine ⟨by simp, ?_⟩
      intro t' dur' hm
      rcases List.mem_append.mp hm with hm | hm
      · exact h.runs_pos t' dur' hm
      · simp at hm
  | some dit =>
    simp only [onSpaceEnd, hd] at hok
    obtain ⟨hdit, hruns⟩ := spaceLogic_keeps hd hok
    refine ⟨?_, ?_⟩
    · rw [hdit, ← hd]
      exact h.dit_pos
    · rw [hruns]
      exact h.runs_pos

end DecodeState

end CwStation
