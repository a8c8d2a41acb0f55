import CwStation.Verification.Simulate.Playing

/-! # Whether the ground truth was on the air

The log keeps what `truth` is made of. The position moves on while the signals are paused, the
next start does not: a start that passes meanwhile is made up for by logging a transmission whose
beginning, or the whole of it, is not heard any more. -/

namespace CwStation.Simulate

variable {F : Type} [Add F] {blockSize : ℕ} {script : Script F blockSize} {stopAt : Option ℕ}
  {band : Band F} {tx : SimTransmission F} {j k : ℕ}

/-- In the turn of the loop from this band on, some of the transmission is mixed into the block. -/
structure Script.Mixes (script : Script F blockSize) (stopAt : Option ℕ) (band : Band F)
    (tx : SimTransmission F) : Prop where
  running : ¬Ended stopAt band
  playing : script.paused band.made = false
  current : (script.due band).current = some tx
  overlap : max band.pos tx.startSample < min (band.pos + blockSize) tx.stop

/-- The log before block `k` was on the air, or is still to come; and nothing was logged behind
its start. -/
structure Script.Truthful (script : Script F blockSize) (stopAt : Option ℕ) (k : ℕ) : Prop where
  heard : ∀ tx ∈ (script.run stopAt k).2.log,
    (∃ j < k, script.Mixes stopAt (script.run stopAt j).2 tx) ∨
      (script.run stopAt k).2.pos ≤ tx.startSample
  ahead : ∀ j < k, ∀ tx ∈ (script.run stopAt (j + 1)).2.log.drop (script.run stopAt j).2.log.length,
    (script.run stopAt j).2.pos ≤ tx.startSample

/-- One of the blocks from `j` up to `k` is made with the signals on. -/
def Script.PlaysFrom (script : Script F blockSize) (stopAt : Option ℕ) (k j : ℕ) : Prop :=
  ∃ i, j ≤ i ∧ i < k ∧ ¬Ended stopAt (script.run stopAt i).2 ∧ script.paused i = false

/-- Block `j` of `k` lets no start pass: no paused block passes the next start before the signals
are on again, none passes the start of a station that is logged already, and no gap ends within
the block it begins in. -/
structure Script.Punctual (script : Script F blockSize) (stopAt : Option ℕ) (k j : ℕ) : Prop where
  waits : script.paused j = true → (script.run stopAt j).2.current = none →
    script.PlaysFrom stopAt k (j + 1) →
    (script.run stopAt j).2.pos + blockSize ≤ (script.run stopAt j).2.nextStart
  begins : script.paused j = true → ∀ tx, (script.run stopAt j).2.current = some tx →
    tx.startSample < (script.run stopAt j).2.pos ∨
      (script.run stopAt j).2.pos + blockSize ≤ tx.startSample
  gap : script.paused j = false → ∀ tx, (script.due (script.run stopAt j).2).current = some tx →
    tx.stop ≤ (script.run stopAt j).2.pos + blockSize → script.PlaysFrom stopAt k (j + 1) →
    (script.run stopAt j).2.pos + blockSize ≤
      tx.stop + script.idle (script.due (script.run stopAt j).2).log.length

/-! ## Punctual runs -/

/-- Before block `j`: what is logged was on the air, or it is the station under way, which has not
begun yet. If the signals are to come on again, the next start is still ahead. -/
structure Script.OnTime (script : Script F blockSize) (stopAt : Option ℕ) (k j : ℕ) : Prop where
  heard : ∀ tx ∈ (script.run stopAt j).2.log,
    (∃ i < j, script.Mixes stopAt (script.run stopAt i).2 tx) ∨
      ((script.run stopAt j).2.current = some tx ∧ (script.run stopAt j).2.pos ≤ tx.startSample)
  ahead : ∀ i < j, ∀ tx ∈ (script.run stopAt (i + 1)).2.log.drop (script.run stopAt i).2.log.length,
    (script.run stopAt i).2.pos ≤ tx.startSample
  next : (script.run stopAt j).2.current = none → script.PlaysFrom stopAt k j →
    (script.run stopAt j).2.pos ≤ (script.run stopAt j).2.nextStart

theorem Script.OnTime.truthful (h : script.OnTime stopAt k j) : script.Truthful stopAt j where
  heard := fun tx htx => (h.heard tx htx).imp_right And.right
  ahead := h.ahead

theorem onTime_zero : script.OnTime stopAt k 0 where
  heard := fun _ htx => absurd htx List.not_mem_nil
  ahead := fun _ hi => absurd hi (Nat.not_lt_zero _)
  next := fun _ _ => Nat.zero_le _

theorem Script.OnTime.of_ended (h : script.OnTime stopAt k j)
    (hended : Ended stopAt (script.run stopAt j).2) : script.OnTime stopAt k (j + 1) := by
  have hsame := run_succ_of_ended hended
  refine ⟨?_, ?_, ?_⟩
  · rw [hsame]
    exact fun tx htx => (h.heard tx htx).imp_left fun ⟨i, hi, hmixes⟩ => ⟨i, Nat.lt_succ_of_lt hi, hmixes⟩
  · intro i hi tx htx
    rcases Nat.lt_succ_iff_lt_or_eq.mp hi with hlt | rfl
    · exact h.ahead i hlt tx htx
    · rw [hsame, List.drop_length] at htx
      exact absurd htx List.not_mem_nil
  · rw [hsame]
    rintro hidle ⟨i, hji, hrest⟩
    exact h.next hidle ⟨i, (Nat.le_succ j).trans hji, hrest⟩

theorem Script.OnTime.of_paused (h : script.OnTime stopAt k j)
    (hrunning : ¬Ended stopAt (script.run stopAt j).2) (hpaused : script.paused j = true)
    (hpunctual : script.Punctual stopAt k j) : script.OnTime stopAt k (j + 1) := by
  have hnext := run_succ_of_paused hrunning hpaused
  refine ⟨?_, ?_, ?_⟩
  · rw [hnext]
    intro tx htx
    rcases h.heard tx htx with ⟨i, hi, hmixes⟩ | ⟨hcurrent, hpos⟩
    · exact .inl ⟨i, Nat.lt_succ_of_lt hi, hmixes⟩
    · rcases hpunctual.begins hpaused tx hcurrent with hbegun | hahead
      · exact absurd hpos (Nat.not_le.mpr hbegun)
      · exact .inr ⟨hcurrent, hahead⟩
  · intro i hi tx htx
    rcases Nat.lt_succ_iff_lt_or_eq.mp hi with hlt | rfl
    · exact h.ahead i hlt tx htx
    · rw [hnext] at htx
      simp [advance] at htx
  · rw [hnext]
    exact fun hidle hplays => hpunctual.waits hpaused hidle hplays

/-- A station may be scheduled with the signals on: its start is not behind the band. -/
theorem Script.OnTime.due (h : script.OnTime stopAt k j) (hplays : script.PlaysFrom stopAt k j)
    {tx : SimTransmission F} (htx : tx ∈ (script.due (script.run stopAt j).2).log) :
    (∃ i < j, script.Mixes stopAt (script.run stopAt i).2 tx) ∨
      ((script.due (script.run stopAt j).2).current = some tx ∧
        (script.run stopAt j).2.pos ≤ tx.startSample) := by
  rcases due_cases script (script.run stopAt j).2 with
    ⟨_, _, hdue⟩ | ⟨hidle, _, hdue⟩ | ⟨_, _, hdue⟩
  · rw [hdue] at htx ⊢
    exact h.heard tx htx
  · rw [hdue] at htx ⊢
    rcases List.mem_append.mp htx with hold | hnew
    · rcases h.heard tx hold with hmixed | ⟨hcurrent, _⟩
      · exact .inl hmixed
      · rw [hidle] at hcurrent
        cases hcurrent
    · rw [List.mem_singleton.mp hnew]
      exact .inr ⟨rfl, h.next hidle hplays⟩
  · rw [hdue] at htx ⊢
    exact h.heard tx htx

/-- With the signals on, the station under way is mixed in once it has begun. -/
theorem Script.OnTime.of_playing (h : script.OnTime stopAt k j) (hjk : j < k)
    (hrunning : ¬Ended stopAt (script.run stopAt j).2) (hplaying : script.paused j = false)
    (hpunctual : script.Punctual stopAt k j) : script.OnTime stopAt k (j + 1) := by
  have hplays : script.PlaysFrom stopAt k j := ⟨j, le_rfl, hjk, hrunning, hplaying⟩
  have hmade : script.paused (script.run stopAt j).2.made = false := by rwa [run_made hrunning]
  have hnext := run_succ_of_not_ended hrunning
  refine ⟨?_, ?_, ?_⟩
  · rw [hnext]
    intro tx htx
    rw [next_log_of_playing hmade] at htx
    rcases h.due hplays htx with ⟨i, hi, hmixes⟩ | ⟨hcurrent, hpos⟩
    · exact .inl ⟨i, Nat.lt_succ_of_lt hi, hmixes⟩
    · have hstop := tx.start_lt_stop
      rcases Nat.lt_or_ge tx.startSample ((script.run stopAt j).2.pos + blockSize) with hlt | hge
      · exact .inl ⟨j, Nat.lt_succ_self j, hrunning, hmade, hcurrent, by omega⟩
      · refine .inr ⟨?_, by rwa [next_pos]⟩
        rw [next_of_sending hmade hcurrent, finish_of_lt_stop (by rw [due_pos]; omega)]
        exact hcurrent
  · intro i hi tx htx
    rcases Nat.lt_succ_iff_lt_or_eq.mp hi with hlt | rfl
    · exact h.ahead i hlt tx htx
    · rw [hnext, next_log_of_playing hmade] at htx
      rcases due_cases script (script.run stopAt i).2 with
        ⟨_, _, hdue⟩ | ⟨hidle, _, hdue⟩ | ⟨_, _, hdue⟩
      · simp [hdue] at htx
      · rw [hdue, Script.scheduleNext, List.drop_left, List.mem_singleton] at htx
        rw [htx]
        exact h.next hidle hplays
      · simp [hdue] at htx
  · rw [hnext]
    intro hidle hlater
    cases hcurrent : (script.due (script.run stopAt j).2).current with
    | none =>
      rw [next_of_quiet hmade hcurrent]
      rcases due_cases script (script.run stopAt j).2 with
        ⟨_, hsome, hdue⟩ | ⟨_, _, hdue⟩ | ⟨_, hearly, hdue⟩
      · rw [hdue, hsome] at hcurrent
        cases hcurrent
      · rw [hdue] at hcurrent
        cases hcurrent
      · rw [hdue]
        exact hearly.le
    | some tx =>
      rw [next_of_sending hmade hcurrent] at hidle ⊢
      rcases Nat.lt_or_ge ((script.due (script.run stopAt j).2).pos + blockSize) tx.stop with
        hlt | hstop
      · rw [finish_of_lt_stop hlt] at hidle
        exact nomatch hcurrent.symm.trans hidle
      · rw [finish_of_stop_le hstop]
        rw [due_pos] at hstop
        simpa [advance] using hpunctual.gap hplaying tx hcurrent hstop hlater

/-! ## Late starts -/

/-- A start that is left behind is logged when the signals are on. -/
theorem next_ahead_of_playing (htruthful : script.Truthful stopAt (j + 1))
    (hidle : (script.run stopAt j).2.current = none)
    (hrunning : ¬Ended stopAt (script.run stopAt j).2) (hplaying : script.paused j = false) :
    (script.run stopAt j).2.pos ≤ (script.run stopAt j).2.nextStart := by
  by_contra hlate
  have hmade : script.paused (script.run stopAt j).2.made = false := by rwa [run_made hrunning]
  have hdue : script.due (script.run stopAt j).2 = script.scheduleNext (script.run stopAt j).2 :=
    due_of_idle hidle (by omega)
  have hlogged : (script.run stopAt (j + 1)).2.log.drop (script.run stopAt j).2.log.length =
      [⟨script.station (script.run stopAt j).2.log.length,
        (script.run stopAt j).2.nextStart⟩] := by
    rw [run_succ_of_not_ended hrunning, next_log_of_playing hmade, hdue, Script.scheduleNext,
      List.drop_left]
  exact hlate (htruthful.ahead j (Nat.lt_succ_self j) _ (hlogged ▸ List.mem_singleton_self _))

/-- While the log is truthful, no start is left behind that the signals will come back to. -/
theorem next_ahead_of_truthful (htruthful : ∀ j ≤ k, script.Truthful stopAt j)
    (hidle : (script.run stopAt j).2.current = none) (hplays : script.PlaysFrom stopAt k j) :
    (script.run stopAt j).2.pos ≤ (script.run stopAt j).2.nextStart := by
  obtain ⟨i, hji, hik, hrunning, hplaying⟩ := hplays
  -- on the number of blocks until the signals are on
  obtain ⟨n, hn⟩ := Nat.exists_eq_add_of_le hji
  induction n generalizing j with
  | zero =>
    obtain rfl : i = j := hn
    exact next_ahead_of_playing (htruthful (i + 1) hik) hidle hrunning hplaying
  | succ n ih =>
    have hrunning' := not_ended_of_le hji hrunning
    cases hpaused : script.paused j with
    | false => exact next_ahead_of_playing (htruthful (j + 1) (by omega)) hidle hrunning' hpaused
    | true =>
      have hnext := run_succ_of_paused hrunning' hpaused
      have hahead := ih (by rw [hnext]; exact hidle) (by omega) (by omega)
      rw [hnext] at hahead
      exact (Nat.le_add_right _ _).trans hahead

/-- The station under way is logged. -/
theorem mem_log_of_current (htx : (script.run stopAt k).2.current = some tx) :
    tx ∈ (script.run stopAt k).2.log := by
  refine run_keeps (P := fun _ band => ∀ tx, band.current = some tx → tx ∈ band.log) nofun ?_ k
    tx htx
  intro _ band hlog tx htx
  have hdue : ∀ tx, (script.due band).current = some tx → tx ∈ (script.due band).log := by
    intro tx htx
    rcases due_cases script band with ⟨_, _, hdue⟩ | ⟨_, _, hdue⟩ | ⟨_, _, hdue⟩
    · rw [hdue] at htx ⊢
      exact hlog tx htx
    · rw [hdue] at htx ⊢
      cases htx
      exact List.mem_append_right _ (List.mem_singleton_self _)
    · rw [hdue] at htx ⊢
      exact hlog tx htx
  cases hplaying : script.paused band.made with
  | true =>
    rw [next_of_paused hplaying] at htx ⊢
    exact hlog tx htx
  | false =>
    rw [next_log_of_playing hplaying]
    cases hcurrent : (script.due band).current with
    | none =>
      rw [next_of_quiet hplaying hcurrent] at htx
      exact hdue tx htx
    | some tx' =>
      rw [next_of_sending hplaying hcurrent] at htx
      rcases Nat.lt_or_ge ((script.due band).pos + blockSize) tx'.stop with hlt | hstop
      · rw [finish_of_lt_stop hlt] at htx
        exact hdue tx htx
      · rw [finish_of_stop_le hstop] at htx
        cases htx

/-- A transmission is not mixed into a block before its start. -/
theorem Script.Mixes.start_lt {i : ℕ} (h : script.Mixes stopAt (script.run stopAt i).2 tx) :
    tx.startSample < (i + 1) * blockSize := by
  have hoverlap := h.overlap
  rw [run_pos h.running] at hoverlap
  rw [Nat.succ_mul]
  omega

theorem punctual_of_truthful (htruthful : ∀ j ≤ k, script.Truthful stopAt j) (hjk : j < k)
    (hrunning : ¬Ended stopAt (script.run stopAt j).2) : script.Punctual stopAt k j where
  waits := by
    intro hpaused hidle hplays
    have hnext := run_succ_of_paused hrunning hpaused
    have hahead := next_ahead_of_truthful htruthful (by rw [hnext]; exact hidle) hplays
    rwa [hnext] at hahead
  begins := by
    intro hpaused tx hcurrent
    have hnext := run_succ_of_paused hrunning hpaused
    have hlog := mem_log_of_current hcurrent
    rcases (htruthful (j + 1) hjk).heard tx (by rw [hnext]; exact hlog) with ⟨i, hi, hmixes⟩ | hpos
    · rcases Nat.lt_succ_iff_lt_or_eq.mp hi with hlt | rfl
      · have hle : (i + 1) * blockSize ≤ j * blockSize := Nat.mul_le_mul_right _ hlt
        rw [run_pos hrunning]
        exact .inl (hmixes.start_lt.trans_le hle)
      · have hplaying := hmixes.playing
        rw [run_made hrunning, hpaused] at hplaying
        cases hplaying
    · rw [hnext] at hpos
      exact .inr hpos
  gap := by
    intro hplaying tx hcurrent hstop hplays
    have hmade : script.paused (script.run stopAt j).2.made = false := by rwa [run_made hrunning]
    have hnext := run_succ_of_not_ended hrunning
    rw [next_of_sending hmade hcurrent, finish_of_stop_le (by rwa [due_pos])] at hnext
    have hahead := next_ahead_of_truthful htruthful (by rw [hnext]; rfl) hplays
    rw [hnext] at hahead
    simpa [advance] using hahead

/-! ## The truth of a run -/

/-- The log is truthful at every block exactly as long as no start passes unheard. -/
theorem Script.run_truthful_iff (script : Script F blockSize) (stopAt : Option ℕ) (k : ℕ) :
    (∀ j ≤ k, script.Truthful stopAt j) ↔
      ∀ j < k, ¬Ended stopAt (script.run stopAt j).2 → script.Punctual stopAt k j := by
  constructor
  · intro htruthful j hjk hrunning
    exact punctual_of_truthful htruthful hjk hrunning
  · intro hpunctual j hjk
    suffices h : script.OnTime stopAt k j from h.truthful
    induction j with
    | zero => exact onTime_zero
    | succ j ih =>
        have h := ih ((Nat.le_succ j).trans hjk)
        by_cases hended : Ended stopAt (script.run stopAt j).2
        · exact h.of_ended hended
        · cases hpaused : script.paused j with
          | true => exact h.of_paused hended hpaused (hpunctual j hjk hended)
          | false => exact h.of_playing hjk hended hpaused (hpunctual j hjk hended)

/-! ## A station that nobody hears -/

theorem run_of_paused (hpaused : ∀ j < k, script.paused j = true) :
    (script.run none k).2 = { script.start with pos := k * blockSize, made := k } := by
  induction k with
  | zero => rw [Nat.zero_mul]; rfl
  | succ k ih =>
    rw [run_succ_of_paused not_ended_none (hpaused k (Nat.lt_succ_self k)),
      ih fun j hj => hpaused j (Nat.lt_succ_of_lt hj), Nat.succ_mul]
    rfl

/-- The signals are off for the first twelve seconds, in which the first station comes and goes. -/
theorem unheard_station_logged :
    ¬((tenSeconds fun k => decide (k < 180)).Truthful none 181) := by
  intro htruthful
  have hbefore : ((tenSeconds fun k => decide (k < 180)).run none 180).2 = _ :=
    run_of_paused fun j hj => decide_eq_true hj
  have hlog : ((tenSeconds fun k => decide (k < 180)).run none 181).2.log =
      [⟨(tenSeconds fun k => decide (k < 180)).station 0, 12000⟩] := by
    rw [run_succ_of_not_ended not_ended_none, hbefore, next_log_of_playing rfl,
      due_of_idle rfl (by show 12000 ≤ 180 * 512 + 512; omega)]
    rfl
  rcases htruthful.heard _ (hlog ▸ List.mem_singleton_self _) with ⟨i, hi, hmixes⟩ | hpos
  · have hplaying := hmixes.playing
    rw [run_made not_ended_none] at hplaying
    obtain rfl : i = 180 := by
      have := of_decide_eq_false hplaying
      omega
    have hstop : (⟨(tenSeconds fun k => decide (k < 180)).station 0, 12000⟩ :
        SimTransmission ℚ).stop = 12000 + 80000 :=
      SimTransmission.stop_of_length List.length_replicate
    have hoverlap := hmixes.overlap
    rw [run_pos not_ended_none, hstop] at hoverlap
    dsimp only at hoverlap
    omega
  · rw [run_pos not_ended_none] at hpos
    dsimp only at hpos
    omega

end CwStation.Simulate
