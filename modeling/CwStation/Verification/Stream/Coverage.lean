import CwStation.Library.Buffers
import CwStation.Model.Stream

/-! # Streamed batches cover a growing result exactly once -/

namespace CwStation

open Cursor

variable {F : Type}

/-- Appending to the lists a streamer reads; the two envelope lists grow together. The
other fields may change in any way. -/
structure DecodeResult.Grows (r r' : DecodeResult F) : Prop where
  chars : r.chars <+: r'.chars
  keyRuns : r.keyRuns <+: r'.keyRuns
  envT : r.envelopeT <+: r'.envelopeT
  envMag : r.envelopeMag <+: r'.envelopeMag
  together : r'.envelopeT.length + r.envelopeMag.length =
    r'.envelopeMag.length + r.envelopeT.length

/-- A batch with something in it, and one envelope time for each magnitude. -/
structure Batch.Proper (b : Batch F) : Prop where
  paired : b.envT.length = b.envMag.length
  inhabited : b.chars ≠ [] ∨ b.keyRuns ≠ [] ∨ b.envT ≠ []

namespace ResultStreamer

/-- The invariant: each list has been taken up to its cursor. -/
structure Covered (r : DecodeResult F) (st : ResultStreamer F) (sent : List (Batch F)) :
    Prop where
  paired : r.envelopeT.length = r.envelopeMag.length
  chars : Follows (sent.flatMap Batch.chars) st.chars r.chars
  runs : Follows (sent.flatMap Batch.keyRuns) st.runs r.keyRuns
  envT : Follows (sent.flatMap Batch.envT) st.env r.envelopeT
  envMag : Follows (sent.flatMap Batch.envMag) st.env r.envelopeMag
  proper : ∀ b ∈ sent, b.Proper

theorem Covered.grow {r r' : DecodeResult F} {st : ResultStreamer F} {sent : List (Batch F)}
    (h : Covered r st sent) (hgrow : r.Grows r') : Covered r' st sent := by
  refine ⟨?_, h.chars.grow hgrow.chars, h.runs.grow hgrow.keyRuns, h.envT.grow hgrow.envT,
    h.envMag.grow hgrow.envMag, h.proper⟩
  have htogether := hgrow.together
  have hpaired := h.paired
  omega

variable [PyFloat F] {u : Unicode} {r : DecodeResult F} {st : ResultStreamer F}
  {sent : List (Batch F)}

theorem diff_eq_none : diff u r st = none ↔
    r.chars.drop st.chars = [] ∧ r.keyRuns.drop st.runs = [] ∧ r.envelopeT.drop st.env = [] := by
  simp [diff]

theorem diff_eq_some {st' : ResultStreamer F} {b : Batch F} (h : diff u r st = some (b, st')) :
    b = ⟨r.chars.drop st.chars, r.keyRuns.drop st.runs, r.envelopeT.drop st.env,
      r.envelopeMag.drop st.env, batchMeta u r st⟩ ∧
    st' = { st with
      chars := r.chars.length, runs := r.keyRuns.length, env := r.envelopeT.length } ∧
    (b.chars ≠ [] ∨ b.keyRuns ≠ [] ∨ b.envT ≠ []) := by
  unfold diff at h
  dsimp only at h
  split at h
  · cases h
  · rename_i hnew
    simp only [Option.some.injEq, Prod.mk.injEq] at h
    obtain ⟨rfl, rfl⟩ := h
    refine ⟨rfl, rfl, ?_⟩
    rwa [not_and_or, not_and_or] at hnew

/-- One tick: it sends nothing, or the batch `_diff` makes. -/
theorem tick_cases (u : Unicode) (force : Bool) (r : DecodeResult F) (st : ResultStreamer F) :
    ((tick u force r st).1 = [] ∧ (tick u force r st).2.chars = st.chars ∧
      (tick u force r st).2.runs = st.runs ∧ (tick u force r st).2.env = st.env ∧
      (force = true → diff u r st = none)) ∨
    ∃ b st', diff u r st = some (b, st') ∧ (tick u force r st).1 = [b] ∧
      (tick u force r st).2.chars = st'.chars ∧ (tick u force r st).2.runs = st'.runs ∧
      (tick u force r st).2.env = st'.env := by
  by_cases hwait : (!force && decide (streamTime r - st.lastFlush < st.intervalS)) = true
  · left
    have hforce : force ≠ true := by
      rintro rfl
      cases hwait
    simp only [tick, hwait, ite_true]
    exact ⟨trivial, trivial, trivial, trivial, fun h => absurd h hforce⟩
  · simp only [tick, hwait, Bool.false_eq_true, ite_false]
    cases hdiff : diff u r st with
    | none => exact .inl ⟨rfl, rfl, rfl, rfl, fun _ => rfl⟩
    | some found => exact .inr ⟨found.1, found.2, rfl, rfl, rfl, rfl, rfl⟩

theorem tick_covered (h : Covered r st sent) (force : Bool) :
    Covered r (tick u force r st).2 (sent ++ (tick u force r st).1) := by
  rcases tick_cases u force r st with ⟨hout, hchars, hruns, henv, -⟩ |
    ⟨b, st', hdiff, hout, hchars, hruns, henv⟩
  · rw [hout, List.append_nil]
    refine ⟨h.paired, ?_, ?_, ?_, ?_, h.proper⟩
    · exact hchars ▸ h.chars
    · exact hruns ▸ h.runs
    · exact henv ▸ h.envT
    · exact henv ▸ h.envMag
  · obtain ⟨rfl, rfl, hne⟩ := diff_eq_some hdiff
    rw [hout]
    refine ⟨h.paired, ?_, ?_, ?_, ?_, ?_⟩
    · rw [hchars, List.flatMap_append, List.flatMap_singleton]
      exact h.chars.take
    · rw [hruns, List.flatMap_append, List.flatMap_singleton]
      exact h.runs.take
    · rw [henv, List.flatMap_append, List.flatMap_singleton]
      exact h.envT.take
    · rw [henv, h.paired, List.flatMap_append, List.flatMap_singleton]
      exact h.envMag.take
    · intro b hb
      rcases List.mem_append.mp hb with hb | hb
      · exact h.proper b hb
      · rw [List.mem_singleton.mp hb]
        refine ⟨?_, hne⟩
        rw [List.length_drop, List.length_drop, h.paired]

/-- A forced tick leaves nothing behind. -/
theorem tick_true_takes_all (u : Unicode) (r : DecodeResult F) (st : ResultStreamer F) :
    r.chars.drop (tick u true r st).2.chars = [] ∧
    r.keyRuns.drop (tick u true r st).2.runs = [] ∧
    r.envelopeT.drop (tick u true r st).2.env = [] := by
  rcases tick_cases u true r st with ⟨-, hchars, hruns, henv, hnone⟩ |
    ⟨b, st', hdiff, -, hchars, hruns, henv⟩
  · rw [hchars, hruns, henv]
    exact diff_eq_none.mp (hnone rfl)
  · obtain ⟨-, rfl, -⟩ := diff_eq_some hdiff
    simp [hchars, hruns, henv]

/-- A result that grows while a streamer created on it is ticked, with the batches sent. -/
inductive Watched (u : Unicode) :
    DecodeResult F → ResultStreamer F → List (Batch F) → Prop
  | start {r : DecodeResult F} (intervalS : F) (source feedId : Str) :
      r.envelopeT.length = r.envelopeMag.length → Watched u r (init intervalS source feedId) []
  | grow {r r' : DecodeResult F} {st : ResultStreamer F} {sent : List (Batch F)} :
      Watched u r st sent → r.Grows r' → Watched u r' st sent
  | tick {r : DecodeResult F} {st : ResultStreamer F} {sent : List (Batch F)} (force : Bool) :
      Watched u r st sent →
      Watched u r (tick u force r st).2 (sent ++ (tick u force r st).1)

theorem Watched.covered (h : Watched u r st sent) : Covered r st sent := by
  induction h with
  | start intervalS source feedId hpaired =>
    exact ⟨hpaired, .start _, .start _, .start _, .start _, by simp⟩
  | grow _ hgrow ih => exact ih.grow hgrow
  | tick force _ ih => exact tick_covered ih force

/-- After a flush the batches, taken together, are the lists of the result. -/
theorem watched_flush_covers (h : Watched u r st sent) :
    let all := sent ++ (flush u r st).1
    all.flatMap Batch.chars = r.chars ∧ all.flatMap Batch.keyRuns = r.keyRuns ∧
    all.flatMap Batch.envT = r.envelopeT ∧ all.flatMap Batch.envMag = r.envelopeMag ∧
    ∀ b ∈ all, b.Proper := by
  have hcovered : Covered r (flush u r st).2 (sent ++ (flush u r st).1) := tick_covered h.covered true
  obtain ⟨hchars, hruns, henvT⟩ := tick_true_takes_all u r st
  have henvMag : r.envelopeMag.drop (flush u r st).2.env = [] := by
    rw [List.drop_eq_nil_iff, ← h.covered.paired]
    exact List.drop_eq_nil_iff.mp henvT
  exact ⟨hcovered.chars.complete hchars, hcovered.runs.complete hruns,
    hcovered.envT.complete henvT, hcovered.envMag.complete henvMag, hcovered.proper⟩

/-- A result with two envelope blocks and one key run. -/
def smallResult : DecodeResult ℚ where
  keyRuns := [⟨true, 0, 60⟩]
  envelopeT := [0, 1 / 250]
  envelopeMag := [1, 1 / 2]
  sampleRate := 8000
  toneHz := 600
  wpmFinal := 0

theorem smallResult_covered :
    Watched .ascii smallResult (tick .ascii false { smallResult with keyRuns := [] }
      (init 0 [] [])).2 (tick .ascii false { smallResult with keyRuns := [] } (init 0 [] [])).1 ∧
    ((tick .ascii false { smallResult with keyRuns := [] } (init 0 [] [])).1 ++
      (flush .ascii smallResult (tick .ascii false { smallResult with keyRuns := [] }
        (init 0 [] [])).2).1).flatMap Batch.keyRuns = smallResult.keyRuns := by
  have hstart : Watched .ascii { smallResult with keyRuns := [] } (init 0 [] []) [] :=
    .start 0 [] [] rfl
  have hgrow : DecodeResult.Grows { smallResult with keyRuns := [] } smallResult :=
    ⟨List.prefix_rfl, List.nil_prefix, List.prefix_rfl, List.prefix_rfl, rfl⟩
  have h := (hstart.tick false).grow hgrow
  exact ⟨h, (watched_flush_covers h).2.1⟩

end ResultStreamer

end CwStation
