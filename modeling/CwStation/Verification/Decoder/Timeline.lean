import CwStation.Library.Intervals
import CwStation.Library.Trackers
import CwStation.Model.Floats
import CwStation.Verification.Decoder.Accounts

/-! # The tape of a decode runs forward

Before rounding. Marks are recorded when they end, characters when the gap behind them ends, and
those of the bootstrap much later, with the times their runs were buffered with; all of them come
out in the order of time. -/

namespace CwStation

open Emit Timeline
open PyFloat (lit)

/-- The end of a key run. -/
def KeyRun.tEnd (run : KeyRun Unrounded) : Unrounded := run.tStart + run.durMs / 1000

namespace DecodeState

variable {d d' : DecodeState Unrounded} {out : List (CharEvent Unrounded)}
  {t e dur tS : Unrounded}

/-! ## Characters -/

/-- The characters lie one behind the other up to `t`, and the pending one is behind them. -/
structure Told (t : Unrounded) (d : DecodeState Unrounded) : Prop where
  chars : Laid CharEvent.tStart CharEvent.tEnd d.result.chars t
  pending : d.cur ≠ [] →
    d.curStart ≤ t ∧ Laid CharEvent.tStart CharEvent.tEnd d.result.chars d.curStart

theorem Told.mono (h : Told t d) (hle : t ≤ e) : Told e d where
  chars := h.chars.mono hle
  pending := fun hcur => ⟨(h.pending hcur).1.trans hle, (h.pending hcur).2⟩

theorem Told.addElement {dit : Unrounded} (h : Told t d) (hdit : d.dit = some dit)
    (hok : addElement t dur d = .ok d') : Told t d' := by
  rw [addElement_of_dit hdit, Except.ok.injEq] at hok
  subst hok
  refine ⟨h.chars, fun _ => ?_⟩
  by_cases hcur : d.cur = []
  · simp only [if_pos hcur]
    exact ⟨le_rfl, h.chars⟩
  · simp only [if_neg hcur]
    exact h.pending hcur

theorem Told.flushCur (h : Told t d) : Told t (flushCur t d).2 := by
  by_cases hcur : d.cur = []
  · rw [flushCur_nil hcur]
    exact h
  · obtain ⟨hstart, hbefore⟩ := h.pending hcur
    simp only [DecodeState.flushCur, if_neg hcur]
    exact ⟨hbefore.append le_rfl hstart, fun hne => absurd rfl hne⟩

theorem Told.flushWord (h : Told t d) (hcur : d.cur = []) : Told t (flushWord t d).2 := by
  unfold DecodeState.flushWord
  split
  · exact h
  · exact ⟨h.chars.append le_rfl le_rfl, fun hne => absurd hcur hne⟩

theorem Told.flushChar (h : Told t d) (word : Bool) : Told t (flushChar t word d).2 := by
  cases word with
  | false => exact h.flushCur
  | true =>
    rw [flushChar_true]
    exact h.flushCur.flushWord (flushChar_cur t false d)

theorem Told.spaceLogic {dit : Unrounded} (h : Told t d) (hdit : d.dit = some dit)
    (hok : spaceLogic dur t d = .ok (out, d')) : Told t d' := by
  rw [spaceLogic_of_dit hdit, Except.ok.injEq] at hok
  split at hok
  · cases hok
    exact h
  · obtain rfl : (DecodeState.flushChar t (decide ¬dur < lit 5 * dit) d).2 = d' :=
      congrArg Prod.snd hok
    exact h.flushChar _

/-! ## Bootstrap -/

/-- The end of a buffered run. -/
def BootRun.stop (run : BootRun Unrounded) : Unrounded := run.2.1 + run.2.2

/-- The buffered runs lie one behind the other, behind what has been told. -/
def Buffered (e : Unrounded) (d : DecodeState Unrounded) : Prop :=
  ∃ t, Told t d ∧ Stacked (fun run => run.2.1) BootRun.stop t d.bootRuns e

theorem Told.replayRun {run : BootRun Unrounded} {dit : Unrounded} (h : Told t d)
    (hdit : d.dit = some dit) (hstart : t ≤ run.2.1) (hrun : run.2.1 ≤ BootRun.stop run)
    (hok : replayRun d run = .ok (out, d')) : Told (BootRun.stop run) d' ∧ d'.dit.isSome = true := by
  obtain ⟨on, tStart, dur⟩ := run
  cases on with
  | true =>
    simp only [DecodeState.replayRun, bind_eq_ok, Except.ok.injEq, Prod.mk.injEq] at hok
    obtain ⟨k, hadd, -, rfl⟩ := hok
    refine ⟨((h.mono hstart).addElement hdit hadd).mono hrun, ?_⟩
    rw [addElement_of_dit hdit, Except.ok.injEq] at hadd
    rw [← hadd, Option.isSome_some]
  | false =>
    refine ⟨(h.mono (hstart.trans hrun)).spaceLogic hdit hok, ?_⟩
    rw [(spaceLogic_keeps hdit hok).1, Option.isSome_some]

theorem Told.replay {runs : List (BootRun Unrounded)} (h : Told t d) (hdit : d.dit.isSome = true)
    (hruns : Stacked (fun run => run.2.1) BootRun.stop t runs e)
    (hok : emitAll DecodeState.replayRun d runs = .ok (out, d')) : Told e d' := by
  induction runs generalizing d t out with
  | nil =>
    rw [emitAll_nil, Except.ok.injEq, Prod.mk.injEq] at hok
    rw [← hok.2]
    exact h.mono hruns
  | cons run rest ih =>
    obtain ⟨first, mid, tail, hfirst, hrest, -⟩ := emitAll_cons_eq_ok.mp hok
    obtain ⟨dit, hsome⟩ := Option.isSome_iff_exists.mp hdit
    obtain ⟨hmid, hdit'⟩ := h.replayRun hsome hruns.1 hruns.2.1 hfirst
    exact ih hmid hdit' hruns.2.2 hrest

theorem Buffered.replayBoot (h : Buffered e d) (hdit : d.dit.isSome = true)
    (hok : replayBoot d = .ok (out, d')) : Told e d' ∧ d'.bootRuns = [] := by
  obtain ⟨t, htold, hruns⟩ := h
  simp only [DecodeState.replayBoot, bind_eq_ok, Except.ok.injEq, Prod.exists, Prod.mk.injEq] at hok
  obtain ⟨out', k, hrun, -, rfl⟩ := hok
  have hstart : Told t (updateWpm d) := ⟨htold.chars, htold.pending⟩
  have hk : Told e k := hstart.replay hdit hruns hrun
  exact ⟨⟨hk.chars, hk.pending⟩, rfl⟩

theorem Told.buffered (h : Told t d) (hruns : d.bootRuns = []) : Buffered t d :=
  ⟨t, h, by rw [hruns]; exact le_rfl⟩

theorem Buffered.told (h : Buffered e d) : Told e d := by
  obtain ⟨t, htold, hruns⟩ := h
  exact htold.mono hruns.le

/-! ## Ends of marks and spaces -/

theorem Buffered.onMarkEnd (h : Buffered t d) (hb : Booked d) (hdur : 0 ≤ dur)
    (hok : onMarkEnd t dur d = .ok (out, d')) : Buffered (t + dur) d' := by
  have hend : t ≤ t + dur := le_add_of_nonneg_right hdur
  cases hd : d.dit with
  | none =>
    have hrec : (recordMark t dur d).dit = none := hd
    simp only [DecodeState.onMarkEnd, hrec] at hok
    obtain ⟨t', htold, hruns⟩ := h
    split at hok
    · obtain ⟨htold', hruns'⟩ := Buffered.replayBoot
        (d := { bufferMark t dur (recordMark t dur d) with
          dit := some (estimateDit (bufferMark t dur (recordMark t dur d)).bootMarks) })
        ⟨t', ⟨htold.chars, htold.pending⟩, hruns.append le_rfl hend⟩ rfl hok
      exact htold'.buffered hruns'
    · cases hok
      exact ⟨t', ⟨htold.chars, htold.pending⟩, hruns.append le_rfl hend⟩
  | some dit =>
    have hrec : (recordMark t dur d).dit = some dit := hd
    have hruns : d.bootRuns = [] := hb.known (by rw [hd, Option.isSome_some])
    have htold := h.told
    simp only [DecodeState.onMarkEnd, hrec, bind_eq_ok, Except.ok.injEq, Prod.mk.injEq] at hok
    obtain ⟨k, hadd, -, rfl⟩ := hok
    have hk := Told.addElement (d := recordMark t dur d) ⟨htold.chars, htold.pending⟩ hrec hadd
    refine (hk.mono hend).buffered ?_
    rw [addElement_of_dit hrec, Except.ok.injEq] at hadd
    rw [← hadd]
    exact hruns

theorem Buffered.onSpaceEnd (h : Buffered d.runStartS d) (hb : Booked d) (hdur : 0 ≤ dur)
    (hok : onSpaceEnd dur d = .ok (out, d')) : Buffered (d.runStartS + dur) d' := by
  have hend : d.runStartS ≤ d.runStartS + dur := le_add_of_nonneg_right hdur
  cases hd : d.dit with
  | none =>
    simp only [DecodeState.onSpaceEnd, hd, Except.ok.injEq, Prod.mk.injEq] at hok
    obtain ⟨-, rfl⟩ := hok
    obtain ⟨t, htold, hruns⟩ := h
    split
    · exact ⟨t, htold, hruns.mono hend⟩
    · exact ⟨t, ⟨htold.chars, htold.pending⟩, hruns.append le_rfl hend⟩
  | some dit =>
    have hruns : d.bootRuns = [] := hb.known (by rw [hd, Option.isSome_some])
    simp only [DecodeState.onSpaceEnd, hd] at hok
    refine ((h.told.mono hend).spaceLogic hd hok).buffered ?_
    rw [(spaceLogic_keeps hd hok).2, hruns]

/-! ## Key runs -/

/-- The key runs are marks that last, one behind the other up to `t`. -/
structure Marked (t : Unrounded) (d : DecodeState Unrounded) : Prop where
  laid : Laid KeyRun.tStart KeyRun.tEnd d.result.keyRuns t
  lasting : ∀ run ∈ d.result.keyRuns, run.on = true ∧ 0 < run.durMs

theorem Marked.congr (h : Marked t d) (heq : d'.traces = d.traces) : Marked t d' := by
  simp only [traces, Prod.mk.injEq] at heq
  refine ⟨?_, ?_⟩
  · rw [heq.2.2.2.2]
    exact h.laid
  · rw [heq.2.2.2.2]
    exact h.lasting

theorem Marked.mono (h : Marked t d) (hle : t ≤ e) : Marked e d :=
  ⟨h.laid.mono hle, h.lasting⟩

theorem Marked.recordMark (h : Marked t d) (hdur : 0 < dur) :
    Marked (t + dur) (recordMark t dur d) := by
  have hend : KeyRun.tEnd ⟨true, t, dur * lit 1000⟩ = t + dur := by
    simp only [KeyRun.tEnd, Unrounded.lit_eq]
    push_cast
    ring
  refine ⟨?_, ?_⟩
  · have hlaid := h.laid.append (x := ⟨true, t, dur * lit 1000⟩) le_rfl
      (by rw [hend]; exact le_add_of_nonneg_right hdur.le)
    rwa [hend] at hlaid
  · intro run hrun
    rcases List.mem_append.mp hrun with hold | hnew
    · exact h.lasting run hold
    · rw [List.mem_singleton.mp hnew]
      refine ⟨rfl, ?_⟩
      simp only [Unrounded.lit_eq, Unrounded.round_eq]
      positivity

/-! ## Blocks -/

/-- Between two blocks: everything recorded is over by the start of the run that is heard. -/
structure Timely (tS : Unrounded) (d : DecodeState Unrounded) : Prop where
  start_le : d.runStartS ≤ tS
  clock : d.state = true → d.runStartS < tS
  marked : Marked d.runStartS d
  buffered : Buffered d.runStartS d

theorem Timely.recount (h : Timely tS d) (cand : Bool) : Timely tS (recount cand d) := by
  obtain ⟨t, htold, hruns⟩ := h.buffered
  exact ⟨h.start_le, h.clock, ⟨h.marked.laid, h.marked.lasting⟩,
    t, ⟨htold.chars, htold.pending⟩, hruns⟩

theorem Timely.commit {cand : Bool} (h : Timely tS d) (hb : Booked d)
    (hok : commit cand tS d = .ok (out, d')) :
    d'.runStartS = tS ∧ Marked tS d' ∧ Buffered tS d' := by
  have hend : d.runStartS + (tS - d.runStartS) = tS := add_sub_cancel _ _
  cases hs : d.state with
  | true =>
    simp only [DecodeState.commit, hs, ite_true, bind_eq_ok, Except.ok.injEq, Prod.exists,
      Prod.mk.injEq] at hok
    obtain ⟨out', k, hmark, -, rfl⟩ := hok
    have hdur : 0 < tS - d.runStartS := sub_pos.mpr (h.clock hs)
    have hmarked := (h.marked.recordMark hdur).congr (onMarkEnd_traces hmark)
    have hbuffered := h.buffered.onMarkEnd hb hdur.le hmark
    rw [hend] at hmarked hbuffered
    obtain ⟨t, htold, hruns⟩ := hbuffered
    exact ⟨rfl, ⟨hmarked.laid, hmarked.lasting⟩, t, ⟨htold.chars, htold.pending⟩, hruns⟩
  | false =>
    simp only [DecodeState.commit, hs, Bool.false_eq_true, ite_false, bind_eq_ok,
      Except.ok.injEq, Prod.exists, Prod.mk.injEq] at hok
    obtain ⟨out', k, hspace, -, rfl⟩ := hok
    have hdur : 0 ≤ tS - d.runStartS := sub_nonneg.mpr h.start_le
    have hmarked := (h.marked.mono h.start_le).congr (onSpaceEnd_traces hspace)
    have hbuffered := h.buffered.onSpaceEnd hb hdur hspace
    rw [hend] at hbuffered
    obtain ⟨t, htold, hruns⟩ := hbuffered
    exact ⟨rfl, ⟨hmarked.laid, hmarked.lasting⟩, t, ⟨htold.chars, htold.pending⟩, hruns⟩

theorem Timely.levelled (h : Timely tS d) (log10 : Unrounded → Unrounded) (mag ratio : Unrounded) :
    Timely tS (levelled log10 mag tS ratio d).2 := by
  obtain ⟨t, htold, hruns⟩ := h.buffered
  exact ⟨h.start_le, h.clock, ⟨h.marked.laid, h.marked.lasting⟩,
    t, ⟨htold.chars, htold.pending⟩, hruns⟩

/-- A block that is behind its time when the next one begins. -/
theorem Timely.debounce {cand : Bool} (h : Timely tS d) (hb : Booked d) (hlater : tS < e)
    (hok : debounce cand tS d = .ok (out, d')) : Timely e d' := by
  by_cases hcand : cand = d.state
  · rw [debounce_of_eq hcand, Except.ok.injEq, Prod.mk.injEq] at hok
    obtain ⟨-, rfl⟩ := hok
    obtain ⟨t, htold, hruns⟩ := h.buffered
    exact ⟨h.start_le.trans hlater.le, fun _ => h.start_le.trans_lt hlater,
      ⟨h.marked.laid, h.marked.lasting⟩, t, ⟨htold.chars, htold.pending⟩, hruns⟩
  · rw [debounce_of_ne hcand] at hok
    have hcounted := h.recount cand
    split at hok
    · obtain ⟨hstart, hmarked, hbuffered⟩ := hcounted.commit (hb.congr rfl) hok
      refine ⟨hstart ▸ hlater.le, fun _ => hstart ▸ hlater, ?_, ?_⟩
      · rwa [hstart]
      · rwa [hstart]
    · simp only [Except.ok.injEq, Prod.mk.injEq] at hok
      obtain ⟨-, rfl⟩ := hok
      exact ⟨hcounted.start_le.trans hlater.le, fun _ => hcounted.start_le.trans_lt hlater,
        hcounted.marked, hcounted.buffered⟩

/-! ## The envelope -/

/-- The envelope is between its trackers, and is shown as its place between them. -/
structure Enclosed (d : DecodeState Unrounded) : Prop where
  between : ∀ env, d.env = some env → ∃ peak floor, d.peak = some peak ∧ d.floor = some floor ∧
    floor ≤ env ∧ env ≤ peak
  shown : ∀ m ∈ d.result.envelopeMag, 0 ≤ m ∧ m ≤ 1

theorem envAfter_le_peakAfter (h : d.cfg.peakRelease ≤ 1) (mag : Unrounded) :
    envAfter mag d ≤ peakAfter mag d :=
  Trackers.le_above h

theorem floorAfter_le_envAfter (h : d.cfg.floorRise ≤ 1) (mag : Unrounded) :
    floorAfter mag d ≤ envAfter mag d :=
  Trackers.below_le h

theorem spread_eq (mag : Unrounded) :
    spread mag d = max (peakAfter mag d - floorAfter mag d) (lit (1 / 1000000000)) :=
  (max_def_lt _ _).symm

theorem Enclosed.levelled (h : Enclosed d) (hpeak : d.cfg.peakRelease ≤ 1)
    (hfloor : d.cfg.floorRise ≤ 1) (log10 : Unrounded → Unrounded) (mag ratio : Unrounded) :
    Enclosed (levelled log10 mag tS ratio d).2 := by
  have habove := envAfter_le_peakAfter hpeak mag
  have hbelow := floorAfter_le_envAfter hfloor mag
  refine ⟨?_, ?_⟩
  · rintro env ⟨⟩
    exact ⟨_, _, rfl, rfl, hbelow, habove⟩
  · intro m hm
    rcases List.mem_append.mp hm with hold | hnew
    · exact h.shown m hold
    · have hpos : (0 : Unrounded) < lit (1 / 1000000000) := by
        rw [Unrounded.lit_eq]
        norm_num
      rw [List.mem_singleton.mp hnew, Unrounded.round_eq, spread_eq]
      exact Trackers.share_mem hpos hbelow habove

theorem Enclosed.congr (h : Enclosed d) (heq : d'.meters = d.meters) : Enclosed d' := by
  simp only [meters, Prod.mk.injEq] at heq
  obtain ⟨henv, hpeak, hfloor, hmag⟩ := heq
  refine ⟨?_, ?_⟩
  · rw [henv, hpeak, hfloor]
    exact h.between
  · rw [hmag]
    exact h.shown

/-! ## The end of a stream -/

/-- Everything recorded is over by `t`, whatever is still buffered or pending. -/
structure Closed (t : Unrounded) (d : DecodeState Unrounded) : Prop where
  marked : Marked t d
  buffered : Buffered t d
  enclosed : Enclosed d

theorem Timely.closeMark (h : Timely d.now d) (hb : Booked d) (henclosed : Enclosed d)
    (hok : closeMark d = .ok d') : Closed d.now d' := by
  have hend : d.runStartS + (d.now - d.runStartS) = d.now := add_sub_cancel _ _
  cases hs : d.state with
  | true =>
    simp only [DecodeState.closeMark, hs, ite_true, bind_eq_ok, Except.ok.injEq, Prod.exists] at hok
    obtain ⟨out, k, hmark, rfl⟩ := hok
    have hdur : 0 < d.now - d.runStartS := sub_pos.mpr (h.clock hs)
    have hmarked := (h.marked.recordMark hdur).congr (onMarkEnd_traces hmark)
    have hbuffered := h.buffered.onMarkEnd hb hdur.le hmark
    have hmeters := meters_of_traces (onMarkEnd_traces hmark)
    rw [hend] at hmarked hbuffered
    obtain ⟨t, htold, hruns⟩ := hbuffered
    exact ⟨⟨hmarked.laid, hmarked.lasting⟩, ⟨t, ⟨htold.chars, htold.pending⟩, hruns⟩,
      henclosed.congr hmeters⟩
  | false =>
    simp only [DecodeState.closeMark, hs, Bool.false_eq_true, ite_false, Except.ok.injEq] at hok
    subst hok
    obtain ⟨t, htold, hruns⟩ := h.buffered
    exact ⟨h.marked.mono h.start_le, ⟨t, htold, hruns.mono h.start_le⟩, henclosed⟩

theorem Closed.finishBoot (h : Closed t d) (hok : finishBoot d = .ok (out, d')) :
    Marked t d' ∧ Told t d' ∧ Enclosed d' := by
  unfold DecodeState.finishBoot at hok
  split at hok
  · obtain ⟨t', htold, hruns⟩ := h.buffered
    have hbuffered : Buffered t { d with dit := some (estimateDit d.bootMarks) } :=
      ⟨t', ⟨htold.chars, htold.pending⟩, hruns⟩
    have heq : d'.traces = d.traces := (replayBoot_traces hok).trans rfl
    exact ⟨h.marked.congr heq, (hbuffered.replayBoot rfl hok).1, h.enclosed.congr (meters_of_traces heq)⟩
  · simp only [Except.ok.injEq, Prod.mk.injEq] at hok
    exact hok.2 ▸ ⟨h.marked, h.buffered.told, h.enclosed⟩

end DecodeState

/-- The marks of a result last and are apart, its characters are told one behind the other, and
none of it is ahead of the stream. The envelope is shown as a share. -/
structure DecodeResult.Forward (r : DecodeResult Unrounded) (now : Unrounded) : Prop where
  lasting : ∀ run ∈ r.keyRuns, run.on = true ∧ 0 < run.durMs
  runs : Laid KeyRun.tStart KeyRun.tEnd r.keyRuns now
  chars : Laid CharEvent.tStart CharEvent.tEnd r.chars now
  shown : ∀ m ∈ r.envelopeMag, 0 ≤ m ∧ m ≤ 1

namespace DecodeState

variable {d d' : DecodeState Unrounded} {out : List (CharEvent Unrounded)}

theorem Timely.forward (h : Timely d.now d) (henclosed : Enclosed d) :
    d.result.Forward d.now where
  lasting := h.marked.lasting
  runs := h.marked.laid.mono h.start_le
  chars := (h.buffered.told.mono h.start_le).chars
  shown := henclosed.shown

theorem Timely.flush (h : Timely d.now d) (hs : Sound d) (henclosed : Enclosed d)
    (hok : flush d = .ok (out, d')) : d'.result.Forward d.now := by
  simp only [DecodeState.flush, hs.unflushed, Bool.false_eq_true, ite_false, bind_eq_ok,
    Except.ok.injEq, Prod.exists, Prod.mk.injEq] at hok
  obtain ⟨k, hclose, boot, k', hboot, -, rfl⟩ := hok
  obtain ⟨hmarked, htold, hshown⟩ := (h.closeMark hs.toBooked henclosed hclose).finishBoot hboot
  have heq := flushChar_traces d.now true k'
  have hruns := hmarked.congr heq
  exact ⟨hruns.lasting, hruns.laid, (htold.flushChar true).chars, (hshown.congr (meters_of_traces heq)).shown⟩

end DecodeState

namespace CWDecoder

open DecodeState

variable {S : Type} {dsp : Dsp Unrounded S} {fs : ℕ} {c : CWConfig Unrounded}
  {d d' : CWDecoder Unrounded S} {out : List (CharEvent Unrounded)}

/-! ## Runs -/

/-- Between two blocks of a decoder whose trackers do not overshoot. -/
structure Forward (d : CWDecoder Unrounded S) : Prop where
  fs_pos : 0 < d.fs
  block_pos : 0 < d.block
  release_le : d.cfg.peakRelease ≤ 1
  rise_le : d.cfg.floorRise ≤ 1
  timely : Timely d.now d.toDecodeState
  enclosed : Enclosed d.toDecodeState

theorem Fresh.forward (h : Fresh fs c d) (hrelease : c.peakRelease ≤ 1) (hrise : c.floorRise ≤ 1)
    (henv : d.env = none) (hmag : d.result.envelopeMag = []) : Forward d := by
  have hb := h.books_eq
  simp only [books, Prod.mk.injEq] at hb
  obtain ⟨-, hruns, -, hcur, hchars, -, hkeys, -⟩ := hb
  have hnow : d.now = d.runStartS := by
    simp [DecodeState.now, h.tSamples_eq, h.runStart_eq]
  refine ⟨h.fs_eq ▸ h.fs_pos, h.block_pos, h.cfg_eq ▸ hrelease, h.cfg_eq ▸ hrise, ?_, ?_⟩
  · refine ⟨hnow.ge, by simp [h.state_eq], ⟨?_, by simp [hkeys]⟩, ?_⟩
    · rw [hkeys]
      exact laid_nil
    · refine Told.buffered ⟨?_, fun hne => absurd hcur hne⟩ hruns
      rw [hchars]
      exact laid_nil
  · exact ⟨by simp [henv], by simp [hmag]⟩

theorem now_lt_next (h : Forward d) :
    d.now < { d.toDecodeState with tSamples := d.tSamples + d.block }.now := by
  have hfs : (0 : Unrounded) < d.fs := by exact_mod_cast h.fs_pos
  have hblock : (0 : Unrounded) < d.block := by exact_mod_cast h.block_pos
  simp only [DecodeState.now, Unrounded.lit_eq]
  push_cast
  rw [div_lt_div_iff_of_pos_right hfs]
  linarith

theorem Forward.block {blk : List S} (h : Forward d) (hs : Sound d.toDecodeState)
    (hblk : processBlock dsp d blk = .ok (out, d')) : Forward d' := by
  have hlater := now_lt_next h
  simp only [processBlock, bind_eq_ok, Except.ok.injEq, Prod.exists, Prod.mk.injEq] at hblk
  obtain ⟨out', k, hstep, -, rfl⟩ := hblk
  have hkeeps := step_keeps hs hstep
  obtain ⟨-, -, lv, e, hlv, -⟩ := step_sound hs hstep
  simp only [step, hlv, bind, Except.bind] at hstep
  obtain ⟨ratio, hlevels⟩ := levels_eq_ok hlv
  obtain ⟨rfl, rfl⟩ := Prod.mk.inj hlevels
  have hbooks : (levelled dsp.log10 (dsp.toneMag d.fs d.twTone blk) d.now ratio
      d.toDecodeState).2.books = d.books := rfl
  have htimely := (h.timely.levelled dsp.log10 (dsp.toneMag d.fs d.twTone blk) ratio).debounce
    (hs.toBooked.congr hbooks) hlater hstep
  have henclosed := (h.enclosed.levelled h.release_le h.rise_le dsp.log10
    (dsp.toneMag d.fs d.twTone blk) ratio).congr (debounce_meters hstep)
  obtain ⟨t, htold, hruns⟩ := htimely.buffered
  refine ⟨hkeeps.1 ▸ h.fs_pos, h.block_pos, hkeeps.2 ▸ h.release_le, hkeeps.2 ▸ h.rise_le, ?_,
    henclosed.congr rfl⟩
  have hnow : DecodeState.now { k with tSamples := d.tSamples + d.block } =
      DecodeState.now { d.toDecodeState with tSamples := d.tSamples + d.block } := by
    simp only [DecodeState.now, hkeeps.1]
  rw [hnow]
  exact ⟨htimely.start_le, htimely.clock, ⟨htimely.marked.laid, htimely.marked.lasting⟩,
    t, ⟨htold.chars, htold.pending⟩, hruns⟩

theorem Reached.forward (h : Reached dsp fs c d) (hrelease : c.peakRelease ≤ 1)
    (hrise : c.floorRise ≤ 1) : Forward d := by
  induction h with
  | init hinit =>
    refine (init_fresh hinit).forward hrelease hrise ?_ ?_
    all_goals
      simp only [CWDecoder.init, bind_eq_ok, Except.ok.injEq] at hinit
      obtain ⟨block, -, twTone, -, ratio, -, debounce, -, rfl⟩ := hinit
      rfl
  | listen _ happend ih =>
    obtain ⟨hstate, -, hblock⟩ := whenAfc_append_keeps happend
    refine ⟨?_, hblock ▸ ih.block_pos, ?_, ?_, ?_, ?_⟩
    · rw [hstate]
      exact ih.fs_pos
    · rw [hstate]
      exact ih.release_le
    · rw [hstate]
      exact ih.rise_le
    · rw [hstate]
      exact ih.timely
    · rw [hstate]
      exact ih.enclosed
  | block h hblk ih => exact ih.block h.sound hblk
  | retune _ hretune ih =>
    obtain ⟨last, cfgTone, twTone, resultTone, rfl⟩ := whenAfc_retune_eq hretune
    obtain ⟨t, htold, hruns⟩ := ih.timely.buffered
    exact ⟨ih.fs_pos, ih.block_pos, ih.release_le, ih.rise_le,
      ⟨ih.timely.start_le, ih.timely.clock,
        ⟨ih.timely.marked.laid, ih.timely.marked.lasting⟩,
        t, ⟨htold.chars, htold.pending⟩, hruns⟩,
      ih.enclosed.congr rfl⟩

/-- Whatever a decoder has been fed, at every block and when it is finalized: its tape runs
forward, and the envelope is between its trackers. -/
theorem decode_forward (hrelease : c.peakRelease ≤ 1) (hrise : c.floorRise ≤ 1)
    (h : Reached dsp fs c d) :
    d.result.Forward d.now ∧
      (∀ env, d.env = some env → ∃ peak floor, d.peak = some peak ∧ d.floor = some floor ∧
        floor ≤ env ∧ env ≤ peak) ∧
      ∃ r d', finalize d = .ok (r, d') ∧ r.Forward d.now := by
  have hforward := h.forward hrelease hrise
  obtain ⟨out, k, hflush, -⟩ := flush_finished h.sound
  refine ⟨hforward.timely.forward hforward.enclosed, hforward.enclosed.between,
    k.result, { d with toDecodeState := k }, ?_,
    hforward.timely.flush h.sound hforward.enclosed hflush⟩
  simp only [finalize, CWDecoder.flush, hflush, bind, Except.bind]

/-- A stream that ends with the key down and the dit unknown. -/
def unroundedSession : Except PyExc (Session Unrounded ℚ) :=
  session Dsp.direct 1000 { CWConfig.defaults with envSmooth := 1 }
    [magSamples [0, 1, 1, 0, 0], magSamples [0, 1, 1]]

theorem unroundedSession_forward : ∃ s, unroundedSession = .ok s ∧
    s.before.result.Forward s.before.now ∧
    ∃ r d', finalize s.before = .ok (r, d') ∧ r.Forward s.before.now := by
  obtain ⟨s, hs⟩ := exists_eq_ok (x := unroundedSession) (by decide +kernel)
  have hreached := Reached.session hs
  have hrelease : (lit (3 / 1000) : Unrounded) ≤ 1 := by
    rw [Unrounded.lit_eq]
    norm_num
  have hrise : (lit (4 / 1000) : Unrounded) ≤ 1 := by
    rw [Unrounded.lit_eq]
    norm_num
  obtain ⟨hbefore, -, hafter⟩ := decode_forward hrelease hrise hreached
  exact ⟨s, hs, hbefore, hafter⟩

end CWDecoder

end CwStation
