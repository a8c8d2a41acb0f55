import CwStation.Verification.Decoder.Timing
import CwStation.Verification.Synth.Reading

/-! # From key runs back to the text

With a dit estimate within a sixth of the unit, every run that fits a part is taken for
that part, and the estimate stays within a sixth. The bootstrap finds such an estimate
when one of the marks it uses is a dit, and its replay reads the buffered runs as the
known-dit stage would have read them. -/

namespace CwStation

open Emit Synth
open Morse (ElementKind Code Symbol decodeSymbol encodeText encodeText_code_ne_nil)

namespace DecodeState

/-! ## Thresholds -/

theorem elementKind_of_near {unit dit dur : ℚ} {k : ElementKind} (hu : 0 < unit)
    (hdit : Near unit dit) (hdur : Near (elementLength unit k) dur) :
    elementKind dit dur = k ∧ Near unit (adaptDit dit dur) := by
  obtain ⟨hlo, hhi⟩ := hdit
  obtain ⟨hlo', hhi'⟩ := hdur
  rw [elementKind_rat, adaptDit_rat]
  cases k with
  | dit =>
    simp only [elementLength] at hlo' hhi'
    have hlt : dur < 2 * dit := by linarith
    simp only [hlt, ite_true]
    exact ⟨trivial, by linarith, by linarith⟩
  | dah =>
    simp only [elementLength] at hlo' hhi'
    have hlt : ¬ dur < 2 * dit := by linarith
    simp only [hlt, ite_false]
    exact ⟨trivial, by linarith, by linarith⟩

theorem estimateDit_near {unit : ℚ} (hu : 0 < unit) {marks : List ℚ}
    (hall : ∀ m ∈ marks, ∃ k, Near (elementLength unit k) m)
    (hdit : ∃ m ∈ marks, Near unit m) : Near unit (estimateDit marks) := by
  obtain ⟨m₀, hm₀, hnear₀⟩ := hdit
  have hne : marks ≠ [] := List.ne_nil_of_mem hm₀
  have hpos : ∀ m ∈ marks, 0 < m := by
    intro m hm
    obtain ⟨k, hk, -⟩ := hall m hm
    cases k <;> simp only [elementLength] at hk <;> linarith
  refine estimateDit_of_cluster (P := Near unit) ?_ hne hpos ?_
  · rintro a b ⟨ha, ha'⟩ ⟨hb, hb'⟩
    exact ⟨by linarith, by linarith⟩
  · intro m hm
    obtain ⟨hmem, hle⟩ := mem_ditCluster.mp hm
    have hshort := (shortest_spec hne).2 m₀ hm₀
    obtain ⟨k, hk⟩ := hall m hmem
    cases k with
    | dit => exact hk
    | dah =>
      -- a dah is longer than 8/5 of any dit
      have h₁ := hk.1
      have h₂ := hnear₀.2
      simp only [elementLength] at h₁
      linarith

/-! ## Reading with a known dit -/

/-- The run-to-text stage has read to the pending symbol and the text of `s`. -/
structure Reads (unit : ℚ) (s : Code × Str) (d : DecodeState ℚ) : Prop where
  dit : ∃ dit, d.dit = some dit ∧ Near unit dit
  cur : d.cur = s.1
  text : d.result.text = s.2

theorem flushChar_text (t : ℚ) (word : Bool) (d : DecodeState ℚ) :
    (flushChar t word d).2.result.text =
      if word then spaced (written (d.cur, d.result.text)) else written (d.cur, d.result.text) := by
  have hcur : (flushCur t d).2.result.text = written (d.cur, d.result.text) := by
    unfold flushCur written
    split <;> simp_all
  have hword : ∀ d : DecodeState ℚ, (flushWord t d).2.result.text = spaced d.result.text := by
    intro d
    unfold flushWord spaced
    split <;> simp_all
  cases word with
  | false => exact hcur
  | true =>
    rw [flushChar_true]
    exact (hword _).trans (congrArg spaced hcur)

theorem flushChar_reads {unit : ℚ} {s : Code × Str} {d : DecodeState ℚ} (h : Reads unit s d)
    (t : ℚ) (word : Bool) :
    Reads unit ([], if word then spaced (written s) else written s) (flushChar t word d).2 := by
  refine ⟨?_, flushChar_cur t word d, ?_⟩
  · rw [(flushChar_keeps t word d).1]
    exact h.dit
  · rw [flushChar_text, h.cur, h.text]

theorem addElement_reads {unit : ℚ} (hu : 0 < unit) {s : Code × Str} {d : DecodeState ℚ}
    (h : Reads unit s d) {k : ElementKind} {t dur : ℚ} (hdur : Near (elementLength unit k) dur) :
    ∃ d', addElement t dur d = .ok d' ∧ Reads unit (readPart s (.mark k)) d' := by
  obtain ⟨dit, hdit, hnear⟩ := h.dit
  obtain ⟨hkind, hadapt⟩ := elementKind_of_near hu hnear hdur
  refine ⟨_, addElement_of_dit hdit t dur, ⟨_, rfl, hadapt⟩, ?_, h.text⟩
  simp only [readPart, hkind, h.cur]

/-- The part a gap of length `dur` is taken for. -/
def gapKind (dit dur : ℚ) : Part :=
  if dur < 2 * dit then .elementGap else if dur < 5 * dit then .charGap else .wordGap

theorem gapKind_of_near {unit dit dur : ℚ} {p : Part} (hu : 0 < unit) (hdit : Near unit dit)
    (hfit : p.Fits unit (false, dur)) : gapKind dit dur = p := by
  obtain ⟨hlo, hhi⟩ := hdit
  cases p with
  | mark k => exact absurd hfit.1 (by simp)
  | elementGap =>
    have hlen : dur ≤ 7 / 6 * unit := hfit.2.2
    have hgap : dur < 2 * dit := by linarith
    rw [gapKind, if_pos hgap]
  | charGap =>
    have hshort : 5 / 6 * (3 * unit) ≤ dur := hfit.2.1
    have hlong : dur ≤ 7 / 6 * (3 * unit) := hfit.2.2
    have hgap : ¬ dur < 2 * dit := by linarith
    have hword : dur < 5 * dit := by linarith
    rw [gapKind, if_neg hgap, if_pos hword]
  | wordGap =>
    have hlen : 35 / 6 * unit ≤ dur := hfit.2
    have hgap : ¬ dur < 2 * dit := by linarith
    have hword : ¬ dur < 5 * dit := by linarith
    rw [gapKind, if_neg hgap, if_neg hword]

theorem spaceLogic_gapKind {unit dit : ℚ} {s : Code × Str} {d : DecodeState ℚ}
    (h : Reads unit s d) (hd : d.dit = some dit) (dur t : ℚ) :
    ∃ out d', spaceLogic dur t d = .ok (out, d') ∧ Reads unit (readPart s (gapKind dit dur)) d' := by
  rw [spaceLogic_of_dit hd]
  change ∃ out d', Except.ok (if dur < 2 * dit then ([], d)
    else flushChar t (decide ¬ dur < 5 * dit) d) = .ok (out, d') ∧ _
  by_cases hgap : dur < 2 * dit
  · refine ⟨[], d, by rw [if_pos hgap], ?_⟩
    rwa [gapKind, if_pos hgap]
  · refine ⟨_, _, by rw [if_neg hgap], ?_⟩
    rw [gapKind, if_neg hgap]
    by_cases hword : dur < 5 * dit
    · simpa [hword, readPart] using flushChar_reads h t false
    · simpa [hword, readPart] using flushChar_reads h t true

/-- A gap that fits a part is read as that part. -/
theorem spaceLogic_reads {unit : ℚ} (hu : 0 < unit) {s : Code × Str} {d : DecodeState ℚ}
    (h : Reads unit s d) {p : Part} {t dur : ℚ} (hfit : p.Fits unit (false, dur)) :
    ∃ out d', spaceLogic dur t d = .ok (out, d') ∧ Reads unit (readPart s p) d' := by
  obtain ⟨dit, hdit, hnear⟩ := h.dit
  rw [← gapKind_of_near hu hnear hfit]
  exact spaceLogic_gapKind h hdit dur t

/-- The text a flush leaves, before its trailing blank is stripped. -/
def copied (s : Code × Str) : Str := spaced (written s)

theorem spaced_spaced (text : Str) : spaced (spaced text) = spaced text := by
  by_cases h : text = [] ∨ endsWithSpace text
  · simp only [spaced, h, ite_true]
  · have hend : endsWithSpace (text ++ [' ']) = true := by simp [endsWithSpace]
    simp only [spaced, h, ite_false, hend, or_true, ite_true]

theorem copied_gap (dit dur : ℚ) (s : Code × Str) :
    copied (readPart s (gapKind dit dur)) = copied s := by
  have hnil : ∀ text, written ([], text) = text := fun _ => rfl
  unfold gapKind
  split
  · rfl
  split
  · simp only [copied, readPart, hnil]
  · simp only [copied, readPart, hnil, spaced_spaced]

/-- A buffered run without its start time. -/
def bareRun (r : BootRun ℚ) : Bool × ℚ := (r.1, r.2.2)

theorem replayRun_reads {unit : ℚ} (hu : 0 < unit) {s : Code × Str} {d : DecodeState ℚ}
    (h : Reads unit s d) {p : Part} {r : BootRun ℚ} (hfit : p.Fits unit (bareRun r)) :
    ∃ out d', replayRun d r = .ok (out, d') ∧ Reads unit (readPart s p) d' := by
  obtain ⟨on, t, dur⟩ := r
  cases on with
  | false => exact spaceLogic_reads hu h hfit
  | true =>
    cases p with
    | mark k =>
      have hdur : Near (elementLength unit k) dur := hfit.2
      obtain ⟨d', hok, hreads⟩ := addElement_reads hu h (t := t) hdur
      exact ⟨[], d', by simp only [replayRun, hok, bind, Except.bind], hreads⟩
    | elementGap => exact absurd hfit.1 (by simp [bareRun])
    | charGap => exact absurd hfit.1 (by simp [bareRun])
    | wordGap => exact absurd hfit.1 (by simp [bareRun])

theorem replay_reads {unit : ℚ} (hu : 0 < unit) {ps : List Part} {runs : List (BootRun ℚ)}
    (hfit : List.Forall₂ (fun p r => Part.Fits unit (bareRun r) p) ps runs) {s : Code × Str}
    {d : DecodeState ℚ} (h : Reads unit s d) :
    ∃ out d', emitAll replayRun d runs = .ok (out, d') ∧ Reads unit (ps.foldl readPart s) d' := by
  induction hfit generalizing s d with
  | nil => exact ⟨[], d, rfl, h⟩
  | cons hp _ ih =>
    obtain ⟨out, mid, hok, hmid⟩ := replayRun_reads hu h hp
    obtain ⟨rest, d', hrun, hreads⟩ := ih hmid
    exact ⟨out ++ rest, d', emitAll_cons_eq_ok.mpr ⟨out, mid, rest, hok, hrun, rfl⟩, hreads⟩

/-- Gaps of any length behind the last mark leave the copy as it is. -/
theorem replay_gaps {unit : ℚ} {gaps : List (BootRun ℚ)} (hgaps : ∀ r ∈ gaps, r.1 = false)
    {s : Code × Str} {d : DecodeState ℚ} (h : Reads unit s d) :
    ∃ out d' s', emitAll replayRun d gaps = .ok (out, d') ∧ Reads unit s' d' ∧
      copied s' = copied s := by
  induction gaps generalizing s d with
  | nil => exact ⟨[], d, s, rfl, h, rfl⟩
  | cons r gaps ih =>
    obtain ⟨on, t, dur⟩ := r
    obtain rfl : on = false := hgaps (on, t, dur) List.mem_cons_self
    obtain ⟨dit, hdit, -⟩ := h.dit
    obtain ⟨out, mid, hok, hmid⟩ := spaceLogic_gapKind h hdit dur (t + dur)
    obtain ⟨rest, d', s', hrun, hreads, hcopy⟩ :=
      ih (fun r hr => hgaps r (List.mem_cons_of_mem _ hr)) hmid
    exact ⟨out ++ rest, d', s', emitAll_cons_eq_ok.mpr ⟨out, mid, rest, hok, hrun, rfl⟩, hreads,
      hcopy.trans (copied_gap dit dur s)⟩

/-! ## The bootstrap -/

/-- The element a part stands for. -/
def partElement : Part → Option ElementKind
  | .mark k => some k
  | _ => none

/-- The buffered marks are as many as the marks read, each near the length of some element,
and one of them near a dit if a dit was read. -/
theorem bootMarks_near {unit : ℚ} {ps : List Part} {runs : List (BootRun ℚ)}
    (h : List.Forall₂ (fun p r => Part.Fits unit (bareRun r) p) ps runs) :
    (runs.filterMap bootMark).length = (ps.filterMap partElement).length ∧
    (∀ m ∈ (runs.filterMap bootMark).map Prod.snd, ∃ k, Near (elementLength unit k) m) ∧
    (ElementKind.dit ∈ ps.filterMap partElement →
      ∃ m ∈ (runs.filterMap bootMark).map Prod.snd, Near unit m) := by
  induction h with
  | nil => simp
  | @cons p r ps runs hp _ ih =>
    obtain ⟨hlen, hall, hdit⟩ := ih
    obtain ⟨on, t, dur⟩ := r
    cases p with
    | mark k =>
      obtain rfl : on = true := hp.1
      have hnear : Near (elementLength unit k) dur := hp.2
      refine ⟨by simp [bootMark, partElement, hlen], ?_, ?_⟩
      · intro m hm
        rcases List.mem_cons.mp hm with rfl | hm
        · exact ⟨k, hnear⟩
        · exact hall m hm
      · intro hmem
        rcases List.mem_cons.mp hmem with hk | hmem
        · cases hk
          exact ⟨dur, List.mem_cons_self, hnear⟩
        · obtain ⟨m, hm, hm'⟩ := hdit hmem
          exact ⟨m, List.mem_cons_of_mem _ hm, hm'⟩
    | elementGap =>
      obtain rfl : on = false := hp.1
      exact ⟨hlen, hall, hdit⟩
    | charGap =>
      obtain rfl : on = false := hp.1
      exact ⟨hlen, hall, hdit⟩
    | wordGap =>
      obtain rfl : on = false := hp.1
      exact ⟨hlen, hall, hdit⟩

theorem filterMap_bootMark_gaps {gaps : List (BootRun ℚ)} (h : ∀ r ∈ gaps, r.1 = false) :
    gaps.filterMap bootMark = [] := by
  rw [List.filterMap_eq_nil_iff]
  rintro ⟨on, t, dur⟩ hr
  obtain rfl : on = false := h _ hr
  rfl

/-- The estimate from buffered runs with a dit among them is near the unit. -/
theorem estimate_reads {unit : ℚ} (hu : 0 < unit) {ps : List Part} {d : DecodeState ℚ}
    {runs gaps : List (BootRun ℚ)} (hb : Booked d) (hd : d.dit = none)
    (hruns : d.bootRuns = runs ++ gaps) (hgaps : ∀ r ∈ gaps, r.1 = false)
    (hfit : List.Forall₂ (fun p r => Part.Fits unit (bareRun r) p) ps runs)
    (hdit : ElementKind.dit ∈ ps.filterMap partElement) :
    Reads unit ([], []) (updateWpm { d with dit := some (estimateDit d.bootMarks) }) := by
  have hmarks : d.bootMarks = (runs.filterMap bootMark).map Prod.snd := by
    rw [hb.buffered, hruns, List.filterMap_append, filterMap_bootMark_gaps hgaps, List.append_nil]
  obtain ⟨-, hall, hex⟩ := bootMarks_near hfit
  rw [← hmarks] at hall hex
  exact ⟨⟨_, rfl, estimateDit_near hu hall (hex hdit)⟩, (hb.booting hd).1, hb.text_of_booting hd⟩

/-- The replay reads the buffered runs as they are. -/
theorem replayBoot_reads {unit : ℚ} (hu : 0 < unit) {ps : List Part} {d : DecodeState ℚ}
    (hb : Booked d) (hd : d.dit = none)
    (hfit : List.Forall₂ (fun p r => Part.Fits unit (bareRun r) p) ps d.bootRuns)
    (hdit : ElementKind.dit ∈ ps.filterMap partElement) :
    ∃ out d', replayBoot { d with dit := some (estimateDit d.bootMarks) } = .ok (out, d') ∧
      Reads unit (ps.foldl readPart ([], [])) d' := by
  have hstart := estimate_reads hu hb hd (List.append_nil _).symm (by simp) hfit hdit
  obtain ⟨out, d', hrun, hreads⟩ := replay_reads hu hfit hstart
  refine ⟨out, { d' with bootRuns := [], bootMarks := [] }, ?_, hreads.dit, hreads.cur, hreads.text⟩
  simp only [replayBoot, hrun, bind, Except.bind]

theorem replayBoot_copied {unit : ℚ} (hu : 0 < unit) {ps : List Part} {d : DecodeState ℚ}
    {runs gaps : List (BootRun ℚ)} (hb : Booked d) (hd : d.dit = none)
    (hruns : d.bootRuns = runs ++ gaps) (hgaps : ∀ r ∈ gaps, r.1 = false)
    (hfit : List.Forall₂ (fun p r => Part.Fits unit (bareRun r) p) ps runs)
    (hdit : ElementKind.dit ∈ ps.filterMap partElement) :
    ∃ out d' s, replayBoot { d with dit := some (estimateDit d.bootMarks) } = .ok (out, d') ∧
      Reads unit s d' ∧ copied s = copied (ps.foldl readPart ([], [])) := by
  have hstart := estimate_reads hu hb hd hruns hgaps hfit hdit
  obtain ⟨out, mid, hrun, hmid⟩ := replay_reads hu hfit hstart
  obtain ⟨rest, d', s, hrest, hreads, hcopy⟩ := replay_gaps hgaps hmid
  refine ⟨out ++ rest, { d' with bootRuns := [], bootMarks := [] }, s, ?_,
    ⟨hreads.dit, hreads.cur, hreads.text⟩, hcopy⟩
  have hall : ∀ e, emitAll replayRun e runs = .ok (out, mid) →
      emitAll replayRun e d.bootRuns = .ok (out ++ rest, d') := by
    intro e he
    rw [hruns, emitAll_append, he]
    simp only [bind, Except.bind, hrest]
  simp only [replayBoot, hall _ hrun, bind, Except.bind]

/-! ## Key runs one after another -/

/-- Waiting for enough marks, with the runs that fit `ps` buffered. -/
structure Buffers (unit : ℚ) (ps : List Part) (d : DecodeState ℚ) : Prop where
  unknown : d.dit = none
  runs : List.Forall₂ (fun p r => Part.Fits unit (bareRun r) p) ps d.bootRuns
  few : (d.bootMarks.length : ℤ) < d.cfg.bootMarks

/-- The stage after runs that fit `ps`: they are read, or buffered. -/
structure Tracks (unit : ℚ) (ps : List Part) (d : DecodeState ℚ) : Prop where
  booked : Booked d
  read : Reads unit (ps.foldl readPart ([], [])) d ∨ Buffers unit ps d

theorem Buffers.count {unit : ℚ} {ps : List Part} {d : DecodeState ℚ} (h : Buffers unit ps d)
    (hb : Booked d) : d.bootMarks.length = (ps.filterMap partElement).length := by
  rw [hb.buffered, List.length_map]
  exact (bootMarks_near h.runs).1

theorem Reads.dit_ne_none {unit : ℚ} {s : Code × Str} {d : DecodeState ℚ} (h : Reads unit s d) :
    d.dit ≠ none := by
  obtain ⟨dit, hdit, -⟩ := h.dit
  simp [hdit]

/-- What a key run changes, as far as the runs behind it care. -/
structure Steps (unit : ℚ) (ps : List Part) (d d' : DecodeState ℚ) : Prop where
  tracks : Tracks unit ps d'
  known : d'.dit = none → d.dit = none
  cfg : d'.cfg = d.cfg
  state : d'.state = d.state
  flushed : d'.flushed = d.flushed

theorem steps_of_gate {unit : ℚ} {ps : List Part} {d d' : DecodeState ℚ} (h : Tracks unit ps d')
    (hknown : d'.dit = none → d.dit = none) (hgate : d'.gate = d.gate) : Steps unit ps d d' := by
  simp only [gate, Prod.mk.injEq] at hgate
  obtain ⟨-, hcfg, -, hstate, -, -, -, -, hflushed⟩ := hgate
  exact ⟨h, hknown, hcfg, hstate, hflushed⟩

theorem onMarkEnd_tracks {unit : ℚ} (hu : 0 < unit) {ps : List Part} {d : DecodeState ℚ}
    {k : ElementKind} {t dur : ℚ} (h : Tracks unit ps d) (hdur : Near (elementLength unit k) dur)
    (hdit : d.dit = none → d.cfg.bootMarks ≤ (ps.filterMap partElement).length + 1 →
      ElementKind.dit ∈ (ps ++ [Part.mark k]).filterMap partElement) :
    ∃ out d', onMarkEnd t dur d = .ok (out, d') ∧ Steps unit (ps ++ [.mark k]) d d' := by
  obtain ⟨out, d', hok, hb, hadv, -⟩ := onMarkEnd_booked h.booked t dur
  refine ⟨out, d', hok, ?_⟩
  rcases h.read with hread | hbuf
  · obtain ⟨dit, hd, hnear⟩ := hread.dit
    have hrec : Reads unit (ps.foldl readPart ([], [])) (recordMark t dur d) :=
      ⟨hread.dit, hread.cur, hread.text⟩
    obtain ⟨e, hadd, hreads⟩ := addElement_reads hu hrec (t := t) hdur
    have hsome : (recordMark t dur d).dit = some dit := hd
    simp only [onMarkEnd, hsome, hadd, bind, Except.bind, Except.ok.injEq, Prod.mk.injEq] at hok
    obtain ⟨-, rfl⟩ := hok
    refine steps_of_gate ⟨hb, .inl ?_⟩ (fun hnone => absurd hnone hreads.dit_ne_none) hadv.gate
    rwa [List.foldl_append]
  · have hnone : (recordMark t dur d).dit = none := hbuf.unknown
    have hbooked := bufferMark_booked h.booked hbuf.unknown t dur
    have hruns : List.Forall₂ (fun p r => Part.Fits unit (bareRun r) p) (ps ++ [.mark k])
        (bufferMark t dur (recordMark t dur d)).bootRuns :=
      List.rel_append hbuf.runs (.cons ⟨rfl, hdur⟩ .nil)
    have hlen : ((bufferMark t dur (recordMark t dur d)).bootMarks.length : ℤ) =
        (ps.filterMap partElement).length + 1 := by
      rw [← hbuf.count h.booked]
      simp [bufferMark, recordMark]
    refine steps_of_gate ⟨hb, ?_⟩ (fun _ => hbuf.unknown) hadv.gate
    simp only [onMarkEnd, hnone] at hok
    split at hok
    · rename_i hfull
      have hmem := hdit hbuf.unknown (by rw [← hlen]; exact hfull)
      obtain ⟨out', e, hboot, hreads⟩ :=
        replayBoot_reads hu hbooked hbuf.unknown hruns hmem
      rw [hboot, Except.ok.injEq, Prod.mk.injEq] at hok
      obtain ⟨-, rfl⟩ := hok
      exact .inl hreads
    · rename_i hfull
      simp only [Except.ok.injEq, Prod.mk.injEq] at hok
      obtain ⟨-, rfl⟩ := hok
      exact .inr ⟨hbuf.unknown, hruns, not_le.mp hfull⟩

theorem onSpaceEnd_tracks {unit : ℚ} (hu : 0 < unit) {ps : List Part} {d : DecodeState ℚ}
    {p : Part} {dur : ℚ} (h : Tracks unit ps d) (hfit : p.Fits unit (false, dur))
    (hne : d.dit = none → d.bootMarks ≠ []) :
    ∃ out d', onSpaceEnd dur d = .ok (out, d') ∧ Steps unit (ps ++ [p]) d d' := by
  obtain ⟨out, d', hok, hb, hadv⟩ := onSpaceEnd_booked h.booked dur
  refine ⟨out, d', hok, ?_⟩
  rcases h.read with hread | hbuf
  · obtain ⟨dit, hd, hnear⟩ := hread.dit
    obtain ⟨out', e, hspace, hreads⟩ :=
      spaceLogic_reads hu hread (t := d.runStartS + dur) hfit
    simp only [onSpaceEnd, hd, hspace, Except.ok.injEq, Prod.mk.injEq] at hok
    obtain ⟨-, rfl⟩ := hok
    refine steps_of_gate ⟨hb, .inl ?_⟩ (fun hnone => absurd hnone hreads.dit_ne_none) hadv.gate
    rwa [List.foldl_append]
  · simp only [onSpaceEnd, hbuf.unknown, hne hbuf.unknown, ite_false, Except.ok.injEq,
      Prod.mk.injEq] at hok
    obtain ⟨-, rfl⟩ := hok
    refine steps_of_gate ⟨hb, .inr ?_⟩ (fun _ => hbuf.unknown) hadv.gate
    exact ⟨rfl, List.rel_append hbuf.runs (.cons hfit .nil), hbuf.few⟩

/-- One key run, ended by the key: what `_commit` does with it. -/
def keyRun (d : DecodeState ℚ) (run : Bool × ℚ) : Except PyExc (Emitted ℚ (DecodeState ℚ)) := do
  let (out, k) ← if run.1 then onMarkEnd d.runStartS run.2 d else onSpaceEnd run.2 d
  .ok (out, { k with runStartS := d.runStartS + run.2 })

theorem keyRun_mark {d k : DecodeState ℚ} {dur : ℚ} {out : List (CharEvent ℚ)}
    (h : onMarkEnd d.runStartS dur d = .ok (out, k)) :
    keyRun d (true, dur) = .ok (out, { k with runStartS := d.runStartS + dur }) := by
  simp only [keyRun, ite_true, h, bind, Except.bind]

theorem keyRun_gap {d k : DecodeState ℚ} {dur : ℚ} {out : List (CharEvent ℚ)}
    (h : onSpaceEnd dur d = .ok (out, k)) :
    keyRun d (false, dur) = .ok (out, { k with runStartS := d.runStartS + dur }) := by
  simp only [keyRun, Bool.false_eq_true, ite_false, h, bind, Except.bind]

theorem Steps.later {unit : ℚ} {ps : List Part} {d d' : DecodeState ℚ} (h : Steps unit ps d d')
    (t : ℚ) : Steps unit ps d { d' with runStartS := t } := by
  refine ⟨⟨h.tracks.booked.congr rfl, ?_⟩, h.known, h.cfg, h.state, h.flushed⟩
  rcases h.tracks.read with hread | hbuf
  · exact .inl ⟨hread.dit, hread.cur, hread.text⟩
  · exact .inr ⟨hbuf.unknown, hbuf.runs, hbuf.few⟩

/-- The marks the bootstrap uses, if there is one, include a dit. -/
def BootDit (ps : List Part) (d : DecodeState ℚ) : Prop :=
  d.dit = none → ElementKind.dit ∈ (ps.filterMap partElement).take d.cfg.bootMarks.toNat

theorem keyRun_tracks {unit : ℚ} (hu : 0 < unit) {ps rest : List Part} {p : Part}
    {run : Bool × ℚ} {d : DecodeState ℚ} (h : Tracks unit ps d) (hfit : p.Fits unit run)
    (hhead : ∀ q ∈ (ps ++ p :: rest).head?, ∃ k, q = .mark k)
    (hdit : BootDit (ps ++ p :: rest) d) :
    ∃ out d', keyRun d run = .ok (out, d') ∧ Steps unit (ps ++ [p]) d d' := by
  obtain ⟨on, dur⟩ := run
  have hmark : ∀ k, p = .mark k → on = true ∧ Near (elementLength unit k) dur := by
    rintro k rfl
    exact hfit
  cases on with
  | true =>
    obtain ⟨k, rfl⟩ : ∃ k, p = .mark k := by
      cases p with
      | mark k => exact ⟨k, rfl⟩
      | elementGap => exact absurd hfit.1 (by simp)
      | charGap => exact absurd hfit.1 (by simp)
      | wordGap => exact absurd hfit.1 (by simp)
    have hfull : d.dit = none → d.cfg.bootMarks ≤ (ps.filterMap partElement).length + 1 →
        ElementKind.dit ∈ (ps ++ [Part.mark k]).filterMap partElement := by
      intro hnone hle
      have hmem := hdit hnone
      have hcut : (ps ++ Part.mark k :: rest).filterMap partElement =
          (ps ++ [Part.mark k]).filterMap partElement ++ rest.filterMap partElement := by
        simp [partElement]
      have hlen : ((ps ++ [Part.mark k]).filterMap partElement).length =
          (ps.filterMap partElement).length + 1 := by
        simp [partElement]
      rw [hcut, List.take_append_of_le_length (by omega)] at hmem
      exact List.mem_of_mem_take hmem
    obtain ⟨out, d', hok, hsteps⟩ := onMarkEnd_tracks hu (t := d.runStartS) h hfit.2 hfull
    exact ⟨out, _, keyRun_mark hok, hsteps.later _⟩
  | false =>
    have hne : d.dit = none → d.bootMarks ≠ [] := by
      intro hnone hnil
      rcases h.read with hread | hbuf
      · exact hread.dit_ne_none hnone
      · have hcount := hbuf.count h.booked
        cases ps with
        | nil =>
          obtain ⟨k, hk⟩ := hhead p (by simp)
          exact absurd (hmark k hk).1 (by simp)
        | cons q ps =>
          obtain ⟨k, rfl⟩ := hhead q (by simp)
          simp [hnil, partElement] at hcount
    obtain ⟨out, d', hok, hsteps⟩ := onSpaceEnd_tracks hu h hfit hne
    exact ⟨out, _, keyRun_gap hok, hsteps.later _⟩

theorem keyRuns_track {unit : ℚ} (hu : 0 < unit) {rest : List Part} {runs : List (Bool × ℚ)}
    (hfit : List.Forall₂ (fun p run => Part.Fits unit run p) rest runs) {ps : List Part}
    {d : DecodeState ℚ} (h : Tracks unit ps d)
    (hhead : ∀ q ∈ (ps ++ rest).head?, ∃ k, q = .mark k) (hdit : BootDit (ps ++ rest) d) :
    ∃ out d', emitAll keyRun d runs = .ok (out, d') ∧ Steps unit (ps ++ rest) d d' := by
  induction hfit generalizing ps d with
  | nil =>
    rw [List.append_nil]
    exact ⟨[], d, rfl, h, id, rfl, rfl, rfl⟩
  | @cons p run rest runs hp _ ih =>
    obtain ⟨out, mid, hok, hmid⟩ := keyRun_tracks hu h hp hhead hdit
    have hassoc : ps ++ p :: rest = ps ++ [p] ++ rest := by simp
    have hdit' : BootDit (ps ++ [p] ++ rest) mid := by
      intro hnone
      rw [hmid.cfg, ← hassoc]
      exact hdit (hmid.known hnone)
    obtain ⟨out', d', hrun, hsteps⟩ := ih hmid.tracks (hassoc ▸ hhead) hdit'
    refine ⟨out ++ out', d', emitAll_cons_eq_ok.mpr ⟨out, mid, out', hok, hrun, rfl⟩, ?_⟩
    rw [hassoc]
    exact ⟨hsteps.tracks, fun hnone => hmid.known (hsteps.known hnone),
      hsteps.cfg.trans hmid.cfg, hsteps.state.trans hmid.state,
      hsteps.flushed.trans hmid.flushed⟩

/-! ## The ends of the message -/

/-- Silence before the first mark. -/
theorem keyRun_silence {unit : ℚ} {d : DecodeState ℚ} (h : Tracks unit [] d) (dur : ℚ) :
    ∃ out d', keyRun d (false, dur) = .ok (out, d') ∧ Steps unit [] d d' := by
  obtain ⟨out, d', hok, hb, hadv⟩ := onSpaceEnd_booked h.booked dur
  suffices hsteps : Steps unit [] d d' from
    ⟨out, _, keyRun_gap hok, hsteps.later _⟩
  rcases h.read with hread | hbuf
  · obtain ⟨dit, hd, -⟩ := hread.dit
    obtain ⟨out', e, hspace, hreads⟩ := spaceLogic_gapKind hread hd dur (d.runStartS + dur)
    simp only [onSpaceEnd, hd, hspace, Except.ok.injEq, Prod.mk.injEq] at hok
    obtain ⟨-, rfl⟩ := hok
    have hstill : readPart ([], []) (gapKind dit dur) = ([], []) := by
      unfold gapKind
      split
      · rfl
      split <;> rfl
    rw [List.foldl_nil, hstill] at hreads
    exact steps_of_gate ⟨hb, .inl hreads⟩ (fun hnone => absurd hnone hreads.dit_ne_none) hadv.gate
  · have hmarks : d.bootMarks = [] := List.eq_nil_of_length_eq_zero (hbuf.count h.booked)
    simp only [onSpaceEnd, hbuf.unknown, hmarks, ite_true, Except.ok.injEq, Prod.mk.injEq] at hok
    obtain ⟨-, rfl⟩ := hok
    exact steps_of_gate h (fun _ => hbuf.unknown) rfl

/-- The stage when the message is over: as `Tracks`, with gaps behind the last mark. -/
structure Ended (unit : ℚ) (ps : List Part) (d : DecodeState ℚ) : Prop where
  booked : Booked d
  read : (∃ s, Reads unit s d ∧ copied s = copied (ps.foldl readPart ([], []))) ∨
    d.dit = none ∧ ∃ runs gaps, d.bootRuns = runs ++ gaps ∧ (∀ r ∈ gaps, r.1 = false) ∧
      List.Forall₂ (fun p r => Part.Fits unit (bareRun r) p) ps runs

theorem Tracks.ended {unit : ℚ} {ps : List Part} {d : DecodeState ℚ} (h : Tracks unit ps d) :
    Ended unit ps d := by
  refine ⟨h.booked, ?_⟩
  rcases h.read with hread | hbuf
  · exact .inl ⟨_, hread, rfl⟩
  · exact .inr ⟨hbuf.unknown, d.bootRuns, [], (List.append_nil _).symm, by simp, hbuf.runs⟩

/-- Silence behind the last mark, of any length. -/
theorem keyRun_ended {unit : ℚ} {ps : List Part} {d : DecodeState ℚ} (h : Tracks unit ps d)
    (dur : ℚ) :
    ∃ out d', keyRun d (false, dur) = .ok (out, d') ∧ Ended unit ps d' ∧
      (d'.dit = none → d.dit = none) ∧ d'.state = d.state ∧ d'.flushed = d.flushed := by
  obtain ⟨out, d', hok, hb, hadv⟩ := onSpaceEnd_booked h.booked dur
  have hgate := hadv.gate
  simp only [gate, Prod.mk.injEq] at hgate
  obtain ⟨-, -, -, hstate, -, -, -, -, hflushed⟩ := hgate
  refine ⟨out, _, keyRun_gap hok, ?_⟩
  rcases h.read with hread | hbuf
  · obtain ⟨dit, hd, -⟩ := hread.dit
    obtain ⟨out', e, hspace, hreads⟩ := spaceLogic_gapKind hread hd dur (d.runStartS + dur)
    simp only [onSpaceEnd, hd, hspace, Except.ok.injEq, Prod.mk.injEq] at hok
    obtain ⟨-, rfl⟩ := hok
    refine ⟨⟨hb.congr rfl, .inl ⟨_, ⟨hreads.dit, hreads.cur, hreads.text⟩, copied_gap dit dur _⟩⟩,
      fun hnone => absurd hnone hreads.dit_ne_none, hstate, hflushed⟩
  · refine ⟨⟨hb.congr rfl, .inr ?_⟩, fun _ => hbuf.unknown, hstate, hflushed⟩
    simp only [onSpaceEnd, hbuf.unknown, Except.ok.injEq, Prod.mk.injEq] at hok
    obtain ⟨-, rfl⟩ := hok
    by_cases hmarks : d.bootMarks = []
    · rw [if_pos hmarks]
      exact ⟨hbuf.unknown, d.bootRuns, [], (List.append_nil _).symm, by simp, hbuf.runs⟩
    · rw [if_neg hmarks]
      exact ⟨rfl, d.bootRuns, [(false, d.runStartS, dur)], rfl, by simp, hbuf.runs⟩

/-- The end of the stream writes down what is left. -/
theorem flush_ended {unit : ℚ} (hu : 0 < unit) {ps : List Part} {d : DecodeState ℚ}
    (h : Ended unit ps d) (hstate : d.state = false) (hflushed : d.flushed = false)
    (hdit : d.dit = none → ElementKind.dit ∈ ps.filterMap partElement) :
    ∃ out d', flush d = .ok (out, d') ∧
      d'.result.text = rstrip (copied (ps.foldl readPart ([], []))) := by
  have hboot : ∃ out e s, finishBoot d = .ok (out, e) ∧ Reads unit s e ∧
      copied s = copied (ps.foldl readPart ([], [])) := by
    rcases h.read with ⟨s, hread, hcopy⟩ | ⟨hnone, runs, gaps, hruns, hgaps, hfit⟩
    · refine ⟨[], d, s, ?_, hread, hcopy⟩
      rw [finishBoot, if_neg]
      intro hcond
      exact hread.dit_ne_none (Option.isNone_iff_eq_none.mp hcond.1)
    · obtain ⟨out, e, s, hok, hreads, hcopy⟩ :=
        replayBoot_copied hu h.booked hnone hruns hgaps hfit (hdit hnone)
      refine ⟨out, e, s, ?_, hreads, hcopy⟩
      have hmarks : d.bootMarks ≠ [] := by
        obtain ⟨m, hm, -⟩ := (bootMarks_near hfit).2.2 (hdit hnone)
        rw [h.booked.buffered, hruns, List.filterMap_append, List.map_append]
        exact List.ne_nil_of_mem (List.mem_append_left _ hm)
      rw [finishBoot, if_pos ⟨by simp [hnone], hmarks⟩, hok]
  obtain ⟨out, e, s, hok, hreads, hcopy⟩ := hboot
  have hclose : closeMark d = .ok d := by simp [closeMark, hstate]
  have hflush : ∃ out' d', flush d = .ok (out', d') ∧
      d'.result.text = rstrip (flushChar d.now true e).2.result.text := by
    simp only [flush, hflushed, Bool.false_eq_true, ite_false, hclose, hok, bind, Except.bind]
    exact ⟨_, _, rfl, rfl⟩
  obtain ⟨out', d', hok', htext⟩ := hflush
  refine ⟨out', d', hok', ?_⟩
  rw [htext, flushChar_text, hreads.cur, hreads.text, ← hcopy]
  rfl

/-! ## The round trip -/

theorem filterMap_codeParts (code : Code) : (codeParts code).filterMap partElement = code := by
  induction code with
  | nil => rfl
  | cons k ks ih =>
    cases ks with
    | nil => rfl
    | cons k' ks => simp only [codeParts, List.filterMap_cons, partElement, ih]

/-- The elements of a symbol. -/
def symbolElements : Symbol → Code
  | .wordGap => []
  | .code code => code

theorem filterMap_partsAfter (word : Bool) (symbols : List Symbol) :
    (partsAfter word symbols).filterMap partElement = symbols.flatMap symbolElements := by
  induction symbols generalizing word with
  | nil => rfl
  | cons symbol symbols ih =>
    cases symbol with
    | wordGap => exact ih true
    | code code =>
      have hgap : partElement (gapPart word) = none := by cases word <;> rfl
      simp only [partsAfter, List.filterMap_cons, hgap, List.filterMap_append,
        filterMap_codeParts, ih, List.flatMap_cons, symbolElements]

theorem filterMap_parts (symbols : List Symbol) :
    (parts symbols).filterMap partElement = symbols.flatMap symbolElements := by
  induction symbols with
  | nil => rfl
  | cons symbol symbols ih =>
    cases symbol with
    | wordGap => exact ih
    | code code =>
      simp only [parts, List.filterMap_append, filterMap_codeParts, filterMap_partsAfter,
        List.flatMap_cons, symbolElements]

/-- A message starts with a mark. -/
theorem head_parts {symbols : List Symbol}
    (hcodes : ∀ code, Symbol.code code ∈ symbols → code ≠ []) :
    ∀ q ∈ (parts symbols).head?, ∃ k, q = .mark k := by
  induction symbols with
  | nil => simp [parts]
  | cons symbol symbols ih =>
    cases symbol with
    | wordGap => exact ih fun code hcode => hcodes code (List.mem_cons_of_mem _ hcode)
    | code code =>
      have hne : code ≠ [] := hcodes code List.mem_cons_self
      cases code with
      | nil => exact absurd rfl hne
      | cons k ks =>
        intro q hq
        cases ks <;> simp only [parts, codeParts, List.cons_append, List.head?_cons,
          Option.mem_def, Option.some.injEq] at hq <;> exact ⟨k, hq.symm⟩

/-- The stage the constructor leaves. -/
theorem fresh_tracks {S : Type} {fs : ℕ} {c : CWConfig ℚ} {d : CWDecoder ℚ S} {unit : ℚ}
    (h : CWDecoder.Fresh fs c d)
    (hdit : (∃ dit, initialDit c = some dit ∧ Near unit dit) ∨
      initialDit c = none ∧ 0 < c.bootMarks) :
    Tracks unit [] d.toDecodeState := by
  have hbooks := h.books_eq
  simp only [books, Prod.mk.injEq] at hbooks
  obtain ⟨hd, hruns, hmarks, hcur, -, -, -, htext⟩ := hbooks
  refine ⟨h.sound.toBooked, ?_⟩
  rcases hdit with ⟨dit, hprior, hnear⟩ | ⟨hnone, hpos⟩
  · exact .inl ⟨⟨dit, hd.trans hprior, hnear⟩, hcur, htext⟩
  · refine .inr ⟨hd.trans hnone, ?_, ?_⟩
    · rw [hruns]
      exact .nil
    · rw [hmarks, h.cfg_eq]
      exact hpos

/-- The text of a message comes back from key runs within a sixth of its timing, for a
prior within a sixth of the unit, or without a prior and a dit among the marks the
bootstrap uses. The message may be framed by silence of any length. -/
theorem keyed_text_recovered {S : Type} (un : Unicode) (text : Str) {unit lead : ℚ}
    (hu : 0 < unit) {fs : ℕ} {c : CWConfig ℚ} {d : CWDecoder ℚ S}
    (hinit : CWDecoder.init fs c = .ok d) {runs : List (Bool × ℚ)}
    (hruns : List.Forall₂ (Within unit) (sounded unit lead (encodeText un text)) runs)
    (hdit : (∃ dit, initialDit c = some dit ∧ |dit - unit| ≤ 1 / 6 * unit) ∨
      initialDit c = none ∧ ElementKind.dit ∈
        ((encodeText un text).flatMap symbolElements).take c.bootMarks.toNat)
    (before : ℚ) (behind : Option ℚ) :
    ∃ out k out' k', emitAll keyRun d.toDecodeState
        ((false, before) :: (runs ++ behind.toList.map fun dur => (false, dur))) = .ok (out, k) ∧
      flush k = .ok (out', k') ∧ k'.result.text = normalised (encodeText un text) := by
  have hcodes := encodeText_code_ne_nil un text
  have hfit := parts_fit hu hcodes hruns
  have hhead := head_parts hcodes
  have hread := read_parts hcodes
  rw [← filterMap_parts] at hdit
  generalize parts (encodeText un text) = ps at hfit hhead hread hdit
  have hfresh := CWDecoder.init_fresh hinit
  have hdit₀ : d.dit = initialDit c := congrArg Prod.fst hfresh.books_eq
  have hstart : Tracks unit [] d.toDecodeState := by
    refine fresh_tracks hfresh ?_
    rcases hdit with ⟨dit, hprior, habs⟩ | ⟨hnone, hmem⟩
    · exact .inl ⟨dit, hprior, near_of_abs habs⟩
    · refine .inr ⟨hnone, ?_⟩
      by_contra hle
      rw [Int.toNat_of_nonpos (not_lt.mp hle)] at hmem
      exact List.not_mem_nil hmem
  have hboot : BootDit ps d.toDecodeState := by
    intro hnone
    rw [hfresh.cfg_eq]
    rcases hdit with ⟨dit, hprior, -⟩ | ⟨-, hmem⟩
    · rw [hdit₀, hprior] at hnone
      cases hnone
    · exact hmem
  obtain ⟨out₁, d₁, hrun₁, hsteps₁⟩ := keyRun_silence hstart before
  have hboot₁ : BootDit ps d₁ := by
    intro hnone
    rw [hsteps₁.cfg]
    exact hboot (hsteps₁.known hnone)
  obtain ⟨out₂, d₂, hrun₂, hsteps₂⟩ := keyRuns_track hu hfit hsteps₁.tracks hhead hboot₁
  have hmem₂ : d₂.dit = none → ElementKind.dit ∈ ps.filterMap partElement :=
    fun hnone => List.mem_of_mem_take (hboot₁ (hsteps₂.known hnone))
  have hstate₂ : d₂.state = false := by rw [hsteps₂.state, hsteps₁.state, hfresh.state_eq]
  have hflushed₂ : d₂.flushed = false := by
    rw [hsteps₂.flushed, hsteps₁.flushed, hfresh.flushed_eq]
  have hlast : ∃ out₃ d₃, emitAll keyRun d₂ (behind.toList.map fun dur => (false, dur)) =
      .ok (out₃, d₃) ∧ Ended unit ps d₃ ∧ (d₃.dit = none → d₂.dit = none) ∧
      d₃.state = d₂.state ∧ d₃.flushed = d₂.flushed := by
    cases behind with
    | none => exact ⟨[], d₂, rfl, hsteps₂.tracks.ended, id, rfl, rfl⟩
    | some dur =>
        obtain ⟨out₃, d₃, hrun, hrest⟩ := keyRun_ended hsteps₂.tracks dur
        exact ⟨out₃ ++ [], d₃, emitAll_cons_eq_ok.mpr ⟨out₃, d₃, [], hrun, rfl, rfl⟩, hrest⟩
  obtain ⟨out₃, d₃, hrun₃, hended, hknown, hstate₃, hflushed₃⟩ := hlast
  obtain ⟨out', k', hflush, htext⟩ := flush_ended hu hended (hstate₃.trans hstate₂)
    (hflushed₃.trans hflushed₂) fun hnone => hmem₂ (hknown hnone)
  refine ⟨out₁ ++ (out₂ ++ out₃), d₃, out', k', ?_, hflush, htext.trans hread⟩
  refine emitAll_cons_eq_ok.mpr ⟨out₁, d₁, out₂ ++ out₃, hrun₁, ?_, rfl⟩
  rw [emitAll_append, hrun₂]
  simp only [bind, Except.bind, hrun₃]

theorem within_self {unit : ℚ} {run : Bool × ℚ} (hu : 0 < unit) (hrun : 0 ≤ run.2) :
    Within unit run run := by
  refine ⟨rfl, ?_⟩
  split
  · rename_i h
    linarith [h.2]
  · simpa using by linarith

/-- "ET" at 24 words a minute, the dah short by a tenth, with the default settings. -/
theorem keyed_et_recovered : ∃ d : CWDecoder ℚ ℚ, CWDecoder.init 8000 CWConfig.defaults = .ok d ∧
    ∃ out k out' k', emitAll keyRun d.toDecodeState
        [(false, 1), (true, 1 / 20), (false, 3 / 20), (true, 27 / 200)] = .ok (out, k) ∧
      flush k = .ok (out', k') ∧ k'.result.text = "ET".toList := by
  obtain ⟨d, hd⟩ := exists_eq_ok
    (x := (CWDecoder.init 8000 CWConfig.defaults : Except PyExc (CWDecoder ℚ ℚ))) (by decide +kernel)
  have hsymbols : encodeText .ascii "ET".toList = [.code [.dit], .code [.dah]] := by decide
  have hsounded : sounded (1 / 20) 0 (encodeText .ascii "ET".toList) =
      [(true, 1 / 20), (false, 3 / 20), (true, 3 / 20)] := by
    rw [hsymbols]
    decide +kernel
  have hfit : List.Forall₂ (Within (1 / 20)) (sounded (1 / 20) 0 (encodeText .ascii "ET".toList))
      [(true, 1 / 20), (false, 3 / 20), (true, 27 / 200)] := by
    rw [hsounded]
    refine .cons (within_self (by norm_num) (by norm_num))
      (.cons (within_self (by norm_num) (by norm_num)) (.cons ⟨rfl, ?_⟩ .nil))
    simp only [Bool.true_eq_false, false_and, ite_false, abs_le]
    constructor <;> norm_num
  have hnormal : normalised (encodeText .ascii "ET".toList) = "ET".toList := by
    rw [hsymbols]
    decide +kernel
  refine ⟨d, hd, ?_⟩
  have hrun := keyed_text_recovered .ascii "ET".toList (by norm_num) hd hfit
    (.inr ⟨rfl, by rw [hsymbols]; decide⟩) 1 none
  rw [hnormal] at hrun
  exact hrun

end DecodeState

end CwStation
