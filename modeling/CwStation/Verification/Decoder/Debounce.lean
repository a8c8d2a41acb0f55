import CwStation.Verification.Decoder.Accounts

/-! # The debounce and the squelch

A candidate state that differs from the committed one is kept until it is committed: a
block that does not confirm it still counts towards the debounce. When no block fails to
confirm a pending candidate, a change of the keyed state has been confirmed by the last
`debounceN` blocks. -/

namespace CwStation

open Emit

/-- The block speaks for the key being `key`: above the high threshold with the squelch
open, or below the low one or squelched. -/
def Levels.confirms {F : Type} [PyFloat F] (key : Bool) (lv : Levels F) : Bool :=
  if key then decide (lv.hi < lv.e) && !lv.squelched else decide (lv.e < lv.lo) || lv.squelched

/-- One block as the key sees it: its levels, the candidate and the state before it, and
the state after it. -/
structure BlockRecord (F : Type) where
  lv : Levels F
  cand : Bool
  was : Bool
  now : Bool

/-- Newest block first: every change of state was confirmed by the `n` blocks that end
with it. -/
def Gated {F : Type} [PyFloat F] (n : ℕ) (hist : List (BlockRecord F)) : Prop :=
  ∀ recent b earlier, hist = recent ++ b :: earlier → b.was ≠ b.now →
    n ≤ (b :: earlier).length ∧ ∀ x ∈ (b :: earlier).take n, x.lv.confirms b.now = true

/-- Every block that finds a pending candidate confirms it. -/
def Persistent {F : Type} [PyFloat F] (hist : List (BlockRecord F)) : Prop :=
  ∀ b ∈ hist, b.cand ≠ b.was → b.lv.confirms b.cand = true

namespace CWDecoder

open DecodeState

variable {F S : Type} [PyFloat F]

/-- A reached decoder with the records of the blocks it has heard, newest first. -/
inductive Heard (dsp : Dsp F S) (fs : ℕ) (c : CWConfig F) :
    List (BlockRecord F) → CWDecoder F S → Prop
  | init {d} : init fs c = .ok d → Heard dsp fs c [] d
  | listen {hist d d' samples} : Heard dsp fs c hist d →
      whenAfc (afcAppend samples) d = .ok d' → Heard dsp fs c hist d'
  | block {hist d d' blk out lv e} : Heard dsp fs c hist d →
      levels dsp.log10 (dsp.toneMag d.fs d.twTone blk) d.now d.toDecodeState = .ok (lv, e) →
      processBlock dsp d blk = .ok (out, d') →
      Heard dsp fs c (⟨lv, d.cand, d.state, d'.state⟩ :: hist) d'
  | retune {hist d d' rest} : Heard dsp fs c hist d →
      whenAfc (afcMaybeRetune dsp) { d with carry := rest } = .ok d' → Heard dsp fs c hist d'

theorem Heard.reached {dsp : Dsp F S} {fs : ℕ} {c : CWConfig F} {hist : List (BlockRecord F)}
    {d : CWDecoder F S} (h : Heard dsp fs c hist d) : Reached dsp fs c d := by
  induction h with
  | init hinit => exact .init hinit
  | listen _ happend ih => exact ih.listen happend
  | block _ _ hblk ih => exact ih.block hblk
  | retune _ hretune ih => exact ih.retune hretune

/-- The records of a sequence of blocks. -/
def hear (dsp : Dsp F S) : List (BlockRecord F) → CWDecoder F S → List (List S) →
    Except PyExc (List (BlockRecord F) × CWDecoder F S)
  | hist, d, [] => .ok (hist, d)
  | hist, d, blk :: rest => do
      let (lv, _) ← levels dsp.log10 (dsp.toneMag d.fs d.twTone blk) d.now d.toDecodeState
      let (_, d') ← processBlock dsp d blk
      hear dsp (⟨lv, d.cand, d.state, d'.state⟩ :: hist) d' rest

theorem hear_heard {dsp : Dsp F S} {fs : ℕ} {c : CWConfig F} {hist hist' : List (BlockRecord F)}
    {d d' : CWDecoder F S} {blks : List (List S)} (h : Heard dsp fs c hist d)
    (hrun : hear dsp hist d blks = .ok (hist', d')) : Heard dsp fs c hist' d' := by
  induction blks generalizing hist d with
  | nil =>
    simp only [hear, Except.ok.injEq, Prod.mk.injEq] at hrun
    obtain ⟨rfl, rfl⟩ := hrun
    exact h
  | cons blk rest ih =>
    simp only [hear, bind_eq_ok, Prod.exists] at hrun
    obtain ⟨lv, e, hlv, out, mid, hblk, hrest⟩ := hrun
    exact ih (h.block hlv hblk) hrest

/-! ## The candidate and its count -/

theorem candidate_eq (lv : Levels F) (d : DecodeState F) :
    candidate lv d = if lv.confirms (!d.state) then !d.state else d.cand := by
  cases hs : d.state with
  | true => simp [candidate, Levels.confirms, hs]
  | false => simp [candidate, Levels.confirms, hs]

/-- The blocks counted for the pending candidate confirmed it, and it is not due yet. -/
structure Counted (hist : List (BlockRecord F)) (d : DecodeState F) : Prop where
  count_le : d.candCount ≤ hist.length
  settled : d.cand = d.state → d.candCount = 0
  confirmed : ∀ x ∈ hist.take d.candCount, x.lv.confirms d.cand = true

theorem Counted.congr {hist : List (BlockRecord F)} {d d' : DecodeState F} (h : Counted hist d)
    (hc : d'.cand = d.cand) (hs : d'.state = d.state) (hn : d'.candCount = d.candCount) :
    Counted hist d' := by
  refine ⟨?_, ?_, ?_⟩
  · rw [hn]
    exact h.count_le
  · rw [hc, hs, hn]
    exact h.settled
  · rw [hc, hn]
    exact h.confirmed

/-- The candidate of a block is the committed state, or the block confirms it. -/
theorem confirms_candidate {lv : Levels F} {d : DecodeState F}
    (hpending : d.cand ≠ d.state → lv.confirms d.cand = true)
    (hne : candidate lv d ≠ d.state) : lv.confirms (candidate lv d) = true := by
  rw [candidate_eq] at hne ⊢
  by_cases hconf : lv.confirms (!d.state) = true
  · rw [if_pos hconf]
    exact hconf
  · rw [if_neg hconf] at hne ⊢
    exact hpending hne

/-- One block: the count stays backed by confirming blocks, and a change of state is backed
by `debounceN` of them. -/
theorem Counted.step {hist : List (BlockRecord F)} {d d' : DecodeState F} {lv : Levels F}
    {tS : F} (h : Counted hist d) (hgate : d'.gate = gateAfter (candidate lv d) tS d)
    (hpending : d.cand ≠ d.state → lv.confirms d.cand = true) {b : BlockRecord F}
    (hb : b.lv = lv) :
    d'.debounceN = d.debounceN ∧ Counted (b :: hist) d' ∧ (d'.state ≠ d.state →
      d.debounceN ≤ (b :: hist).length ∧
        ∀ x ∈ (b :: hist).take d.debounceN, x.lv.confirms d'.state = true) := by
  subst hb
  by_cases hc : candidate b.lv d = d.state
  · simp only [gateAfter, gate, hc, ite_true, Prod.mk.injEq] at hgate
    obtain ⟨-, -, -, hstate, hcand, hcount, -, hn, -⟩ := hgate
    refine ⟨hn, ⟨?_, fun _ => hcount, ?_⟩, fun hne => absurd hstate hne⟩
    · simp [hcount]
    · simp [hcount]
  · have hconf : b.lv.confirms (candidate b.lv d) = true := confirms_candidate hpending hc
    simp only [gateAfter, gate, hc, ite_false] at hgate
    generalize hk : (if candidate b.lv d = d.cand then d.candCount + 1 else 1) = count at hgate
    have hback : count ≤ (b :: hist).length ∧
        ∀ x ∈ (b :: hist).take count, x.lv.confirms (candidate b.lv d) = true := by
      by_cases hsame : candidate b.lv d = d.cand
      · rw [if_pos hsame] at hk
        subst hk
        refine ⟨Nat.succ_le_succ h.count_le, ?_⟩
        intro x hx
        rcases List.mem_cons.mp (List.take_succ_cons ▸ hx) with rfl | hx
        · exact hconf
        · exact hsame ▸ h.confirmed x hx
      · rw [if_neg hsame] at hk
        subst hk
        refine ⟨by simp, ?_⟩
        intro x hx
        rw [List.take_succ_cons, List.take_zero, List.mem_singleton] at hx
        exact hx ▸ hconf
    by_cases hdue : d.debounceN ≤ count
    · simp only [hdue, ite_true, Prod.mk.injEq] at hgate
      obtain ⟨-, -, -, hstate, hcand, hcount, -, hn, -⟩ := hgate
      refine ⟨hn, ⟨?_, fun _ => hcount, ?_⟩, fun _ => ⟨hdue.trans hback.1, ?_⟩⟩
      · simp [hcount]
      · simp [hcount]
      · intro x hx
        rw [hstate]
        exact hback.2 x (List.take_subset_take_left _ hdue hx)
    · simp only [hdue, ite_false, Prod.mk.injEq] at hgate
      obtain ⟨-, -, -, hstate, hcand, hcount, -, hn, -⟩ := hgate
      refine ⟨hn, ⟨?_, ?_, ?_⟩, fun hne => absurd hstate hne⟩
      · rw [hcount]
        exact hback.1
      · intro heq
        rw [hcand, hstate] at heq
        exact absurd heq hc
      · rw [hcount, hcand]
        exact hback.2

theorem Gated.cons {n : ℕ} {hist : List (BlockRecord F)} {b : BlockRecord F} (h : Gated n hist)
    (hb : b.was ≠ b.now → n ≤ (b :: hist).length ∧
      ∀ x ∈ (b :: hist).take n, x.lv.confirms b.now = true) : Gated n (b :: hist) := by
  intro recent b' earlier heq hflip
  cases recent with
  | nil =>
    rw [List.nil_append, List.cons.injEq] at heq
    obtain ⟨rfl, rfl⟩ := heq
    exact hb hflip
  | cons r recent =>
    rw [List.cons_append, List.cons.injEq] at heq
    exact h recent b' earlier heq.2 hflip

/-- The invariant of a run whose pending candidates are confirmed block by block. -/
theorem Heard.gated_counted {dsp : Dsp F S} {fs : ℕ} {c : CWConfig F}
    {hist : List (BlockRecord F)} {d : CWDecoder F S} (h : Heard dsp fs c hist d)
    (hp : Persistent hist) : Gated d.debounceN hist ∧ Counted hist d.toDecodeState := by
  induction h with
  | init hinit =>
    have hfresh := init_fresh hinit
    refine ⟨?_, ⟨?_, fun _ => hfresh.count_eq, ?_⟩⟩
    · intro recent b earlier heq
      exact absurd heq (by simp)
    · rw [hfresh.count_eq, List.length_nil]
    · simp
  | listen _ happend ih =>
    rw [(whenAfc_append_keeps happend).1]
    exact ih hp
  | @block hist d d' blk out lv e hheard hlv hblk ih =>
    have hp' : Persistent hist := fun b hb => hp b (List.mem_cons_of_mem _ hb)
    obtain ⟨hgated, hcounted⟩ := ih hp'
    have hpending := hp _ List.mem_cons_self
    simp only [processBlock, bind_eq_ok, Except.ok.injEq, Prod.exists, Prod.mk.injEq] at hblk
    obtain ⟨out', k, hstep, -, rfl⟩ := hblk
    obtain ⟨-, -, lv', e', hlv', hgate⟩ := step_sound hheard.reached.sound hstep
    rw [hlv', Except.ok.injEq, Prod.mk.injEq] at hlv
    obtain ⟨rfl, -⟩ := hlv
    obtain ⟨hn, hcount, hflip⟩ :=
      hcounted.step (b := ⟨lv', d.cand, d.state, k.state⟩) hgate hpending rfl
    refine ⟨?_, hcount.congr rfl rfl rfl⟩
    change Gated k.debounceN _
    rw [hn]
    exact Gated.cons hgated fun hne => hflip (Ne.symm hne)
  | retune _ hretune ih =>
    obtain ⟨last, cfgTone, twTone, resultTone, rfl⟩ := whenAfc_retune_eq hretune
    exact ⟨(ih hp).1, (ih hp).2.congr rfl rfl rfl⟩

/-- In every run in which no block leaves a pending candidate unconfirmed, the key goes on
only after `debounceN` blocks above the high threshold with the squelch open, and off only
after `debounceN` blocks below the low threshold or squelched. -/
theorem heard_gated {dsp : Dsp F S} {fs : ℕ} {c : CWConfig F} {hist : List (BlockRecord F)}
    {d : CWDecoder F S} (h : Heard dsp fs c hist d) (hp : Persistent hist) :
    Gated d.debounceN hist :=
  (h.gated_counted hp).1

/-- A debounce of two blocks and the given magnitudes. -/
def twoBlockRun (mags : List ℚ) :
    Except PyExc (List (BlockRecord ℚ) × CWDecoder ℚ ℚ) := do
  let d ← init 1000 { (CWConfig.defaults : CWConfig ℚ) with debounceMs := 8 }
  hear .direct [] d (mags.map (List.replicate 8))

theorem twoBlockRun_heard {mags : List ℚ} {hist : List (BlockRecord ℚ)} {d : CWDecoder ℚ ℚ}
    (h : twoBlockRun mags = .ok (hist, d)) :
    Heard .direct 1000 { CWConfig.defaults with debounceMs := 8 } hist d := by
  simp only [twoBlockRun, bind_eq_ok] at h
  obtain ⟨d₀, hinit, hrun⟩ := h
  exact hear_heard (.init hinit) hrun

/-- The newest block changed the state without being confirmed `n` times. -/
def hastyHead (n : ℕ) (hist : List (BlockRecord ℚ)) : Bool :=
  match hist with
  | [] => false
  | b :: earlier => b.was != b.now &&
      ((b :: earlier).take n).any fun x => !x.lv.confirms b.now

theorem not_gated_of_hastyHead {n : ℕ} {hist : List (BlockRecord ℚ)}
    (h : hastyHead n hist = true) : ¬ Gated n hist := by
  intro hgated
  cases hist with
  | nil => cases h
  | cons b earlier =>
    simp only [hastyHead, Bool.and_eq_true, bne_iff_ne, List.any_eq_true,
      Bool.not_eq_true'] at h
    obtain ⟨hflip, x, hx, hunconfirmed⟩ := h
    have hconfirmed := (hgated [] b earlier rfl hflip).2 x hx
    rw [hunconfirmed] at hconfirmed
    cases hconfirmed

/-- Silence, one loud block, silence: the key goes on at the last block, whose envelope is
below the high threshold again. -/
theorem twoBlockRun_not_gated :
    ∃ hist d, Heard .direct 1000 { CWConfig.defaults with debounceMs := 8 } hist d ∧
      ¬ Gated d.debounceN hist := by
  have hcheck : ((twoBlockRun [0, 1, 0]).map fun r =>
      hastyHead r.2.debounceN r.1).toOption = some true := by decide +kernel
  cases hr : twoBlockRun [0, 1, 0] with
  | error e => simp [hr, Except.map, Except.toOption] at hcheck
  | ok r =>
      refine ⟨r.1, r.2, twoBlockRun_heard hr, not_gated_of_hastyHead ?_⟩
      simpa [hr, Except.map, Except.toOption] using hcheck

/-- Three loud blocks in a row: the key goes on at the second. -/
theorem twoBlockRun_gated :
    ∃ hist d, Heard .direct 1000 { CWConfig.defaults with debounceMs := 8 } hist d ∧
      (∃ b ∈ hist, b.was ≠ b.now) ∧ Gated d.debounceN hist := by
  have hcheck : ((twoBlockRun [0, 1, 1, 1]).map fun r =>
      (r.1.all fun b => b.cand == b.was || b.lv.confirms b.cand) &&
        r.1.any fun b => b.was != b.now).toOption = some true := by decide +kernel
  cases hr : twoBlockRun [0, 1, 1, 1] with
  | error e => simp [hr, Except.map, Except.toOption] at hcheck
  | ok r =>
      simp only [hr, Except.map, Except.toOption, Option.some.injEq, Bool.and_eq_true,
        List.all_eq_true, Bool.or_eq_true, beq_iff_eq, List.any_eq_true, bne_iff_ne] at hcheck
      obtain ⟨hpersistent, hflip⟩ := hcheck
      refine ⟨r.1, r.2, twoBlockRun_heard hr, hflip, heard_gated (twoBlockRun_heard hr) ?_⟩
      intro b hb hne
      exact (hpersistent b hb).resolve_left hne

end CWDecoder

end CwStation
