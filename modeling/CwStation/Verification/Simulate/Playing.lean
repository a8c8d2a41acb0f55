import CwStation.Model.Simulate
import Mathlib.Data.Option.NAry
import Mathlib.Data.Rat.Defs

/-! # The blocks of the simulated band -/

namespace CwStation.Simulate

variable {F : Type} {blockSize : ℕ} {script : Script F blockSize} {stopAt : Option ℕ}
  {band : Band F} {tx : SimTransmission F} {block : List F}

theorem SimTransmission.start_lt_stop (tx : SimTransmission F) : tx.startSample < tx.stop :=
  Nat.lt_add_of_pos_right (List.length_pos_iff.mpr tx.audio_ne_nil)

theorem SimTransmission.stop_of_length {n : ℕ} (h : tx.audio.length = n) :
    tx.stop = tx.startSample + n := by
  rw [SimTransmission.stop, h]

/-! ## The station that is due -/

theorem due_of_sending (htx : band.current = some tx) : script.due band = band := by
  simp [Script.due, htx]

theorem due_of_early (hearly : band.pos + blockSize < band.nextStart) : script.due band = band := by
  simp [Script.due, hearly]

theorem due_of_idle (hidle : band.current = none)
    (hdue : band.nextStart ≤ band.pos + blockSize) :
    script.due band = script.scheduleNext band := by
  simp [Script.due, hidle, hdue]

/-- A block is sent with the station that is under way, with one that begins, or with none. -/
theorem due_cases (script : Script F blockSize) (band : Band F) :
    (∃ tx, band.current = some tx ∧ script.due band = band) ∨
      (band.current = none ∧ band.nextStart ≤ band.pos + blockSize ∧
        script.due band = script.scheduleNext band) ∨
      (band.current = none ∧ band.pos + blockSize < band.nextStart ∧ script.due band = band) := by
  cases hcurrent : band.current with
  | some tx => exact .inl ⟨tx, rfl, due_of_sending hcurrent⟩
  | none =>
    rcases Nat.lt_or_ge (band.pos + blockSize) band.nextStart with hearly | hdue
    · exact .inr (.inr ⟨rfl, hearly, due_of_early hearly⟩)
    · exact .inr (.inl ⟨rfl, hdue, due_of_idle hcurrent hdue⟩)

@[simp] theorem due_pos : (script.due band).pos = band.pos := by
  unfold Script.due
  split <;> rfl

@[simp] theorem due_made : (script.due band).made = band.made := by
  unfold Script.due
  split <;> rfl

@[simp] theorem finish_pos : (script.finish band tx).pos = band.pos := by
  unfold Script.finish
  split <;> rfl

@[simp] theorem finish_made : (script.finish band tx).made = band.made := by
  unfold Script.finish
  split <;> rfl

@[simp] theorem finish_log : (script.finish band tx).log = band.log := by
  unfold Script.finish
  split <;> rfl

theorem finish_of_stop_le (hstop : tx.stop ≤ band.pos + blockSize) :
    script.finish band tx =
      { band with current := none, nextStart := tx.stop + script.idle band.log.length } :=
  if_pos hstop

theorem finish_of_lt_stop (hstop : band.pos + blockSize < tx.stop) :
    script.finish band tx = band :=
  if_neg (Nat.not_le.mpr hstop)

/-! ## One block -/

variable [Add F]

theorem next_of_paused (hpaused : script.paused band.made = true) :
    script.next band = (script.noise band.made, advance blockSize band) := by
  simp [Script.next, hpaused]

theorem next_of_quiet (hplaying : script.paused band.made = false)
    (hquiet : (script.due band).current = none) :
    script.next band = (script.noise band.made, advance blockSize (script.due band)) := by
  simp [Script.next, hplaying, hquiet]

theorem next_of_sending (hplaying : script.paused band.made = false)
    (htx : (script.due band).current = some tx) :
    script.next band = (mix band.pos tx (script.noise band.made),
      advance blockSize (script.finish (script.due band) tx)) := by
  simp [Script.next, hplaying, htx]

@[simp] theorem next_pos : (script.next band).2.pos = band.pos + blockSize := by
  cases hpaused : script.paused band.made with
  | true => rw [next_of_paused hpaused]; rfl
  | false =>
    cases htx : (script.due band).current with
    | none => rw [next_of_quiet hpaused htx]; simp [advance]
    | some tx => rw [next_of_sending hpaused htx]; simp [advance]

@[simp] theorem next_made : (script.next band).2.made = band.made + 1 := by
  cases hpaused : script.paused band.made with
  | true => rw [next_of_paused hpaused]; rfl
  | false =>
    cases htx : (script.due band).current with
    | none => rw [next_of_quiet hpaused htx]; simp [advance]
    | some tx => rw [next_of_sending hpaused htx]; simp [advance]

theorem next_log_of_playing (hplaying : script.paused band.made = false) :
    (script.next band).2.log = (script.due band).log := by
  cases htx : (script.due band).current with
  | none => rw [next_of_quiet hplaying htx]; rfl
  | some tx => rw [next_of_sending hplaying htx]; exact finish_log

/-! ## Mixing -/

@[simp] theorem length_mix {pos : ℕ} : (mix pos tx block).length = block.length := by
  unfold mix
  dsimp only
  split
  · exact Edges.length_write
  · rfl

theorem getElem?_mix_of_covers {pos i : ℕ} (hi : i < block.length) (hcovers : tx.Covers (pos + i)) :
    (mix pos tx block)[i]? =
      Option.map₂ (· + ·) block[i]? tx.audio[pos + i - tx.startSample]? := by
  obtain ⟨hlow, hhigh⟩ := hcovers
  have hoverlap : max pos tx.startSample < min (pos + block.length) tx.stop := by omega
  have hstop : tx.stop = tx.startSample + tx.audio.length := rfl
  rw [mix, if_pos hoverlap, Edges.getElem?_write_of_covered (by omega)
    (by simp only [List.length_zipWith, List.length_drop, List.length_take]; omega) hi,
    List.getElem?_zipWith, List.getElem?_drop, List.getElem?_take_of_lt (by omega),
    List.getElem?_drop]
  rw [show max pos tx.startSample - pos + (i - (max pos tx.startSample - pos)) = i by omega,
    show max pos tx.startSample - tx.startSample + (i - (max pos tx.startSample - pos)) =
      pos + i - tx.startSample by omega]
  cases block[i]? <;> cases tx.audio[pos + i - tx.startSample]? <;> rfl

theorem getElem?_mix_of_not_covers {pos i : ℕ} (hcovers : ¬tx.Covers (pos + i)) :
    (mix pos tx block)[i]? = block[i]? := by
  unfold mix
  dsimp only
  split
  case isTrue hoverlap =>
    apply Edges.getElem?_write_of_not_covered
    simp only [List.length_zipWith, List.length_drop, List.length_take]
    simp only [SimTransmission.Covers] at hcovers
    omega
  case isFalse => rfl

/-! ## Runs -/

omit [Add F] in
theorem not_ended_none : ¬Ended none band := by
  rintro ⟨_, hlast, _⟩
  cases hlast

theorem run_succ_of_not_ended {k : ℕ} (h : ¬Ended stopAt (script.run stopAt k).2) :
    script.run stopAt (k + 1) = ((script.run stopAt k).1 ++ (script.next (script.run stopAt k).2).1,
      (script.next (script.run stopAt k).2).2) := by
  rw [Script.run]
  exact if_neg h

theorem run_succ_of_ended {k : ℕ} (h : Ended stopAt (script.run stopAt k).2) :
    script.run stopAt (k + 1) = script.run stopAt k := by
  rw [Script.run]
  exact if_pos h

/-- What every block keeps holds of every run. -/
theorem run_keeps {P : List F → Band F → Prop} (hstart : P [] script.start)
    (hnext : ∀ samples band, P samples band →
      P (samples ++ (script.next band).1) (script.next band).2) (k : ℕ) :
    P (script.run stopAt k).1 (script.run stopAt k).2 := by
  induction k with
  | zero => exact hstart
  | succ k ih =>
    by_cases hended : Ended stopAt (script.run stopAt k).2
    · rwa [run_succ_of_ended hended]
    · rw [run_succ_of_not_ended hended]
      exact hnext _ _ ih

theorem not_ended_of_le {j k : ℕ} (hjk : j ≤ k) (h : ¬Ended stopAt (script.run stopAt k).2) :
    ¬Ended stopAt (script.run stopAt j).2 := by
  induction k, hjk using Nat.le_induction with
  | base => exact h
  | succ k _ ih =>
    apply ih
    intro hended
    rw [run_succ_of_ended hended] at h
    exact h hended

theorem run_made {k : ℕ} (h : ¬Ended stopAt (script.run stopAt k).2) :
    (script.run stopAt k).2.made = k := by
  induction k with
  | zero => rfl
  | succ k ih =>
    have hk := not_ended_of_le (Nat.le_succ k) h
    rw [run_succ_of_not_ended hk, next_made, ih hk]

theorem run_succ_of_paused {k : ℕ} (hrunning : ¬Ended stopAt (script.run stopAt k).2)
    (hpaused : script.paused k = true) :
    (script.run stopAt (k + 1)).2 = advance blockSize (script.run stopAt k).2 := by
  rw [run_succ_of_not_ended hrunning, next_of_paused (by rwa [run_made hrunning])]

theorem run_pos {k : ℕ} (h : ¬Ended stopAt (script.run stopAt k).2) :
    (script.run stopAt k).2.pos = k * blockSize := by
  induction k with
  | zero => exact (Nat.zero_mul _).symm
  | succ k ih =>
    have hk := not_ended_of_le (Nat.le_succ k) h
    rw [run_succ_of_not_ended hk, next_pos, ih hk, Nat.succ_mul]

end CwStation.Simulate

/-! ## The simulated band plays its log

While the signals are on and no gap is shorter than a block, what is heard is the noise with the
audio of the logged transmissions laid over it, sample by sample. -/

namespace CwStation.Simulate

variable {F : Type} {blockSize : ℕ} {script : Script F blockSize} {stopAt : Option ℕ}
  {band : Band F} {tx : SimTransmission F} {samples : List F} {log : List (SimTransmission F)}
  {p : ℕ} {sample : Option F}

/-- The noise at a position of the band. -/
def Script.noiseAt (script : Script F blockSize) (p : ℕ) : Option F :=
  (script.noise (p / blockSize))[p % blockSize]?

theorem noiseAt_block (k : ℕ) {i : ℕ} (hi : i < blockSize) :
    script.noiseAt (k * blockSize + i) = (script.noise k)[i]? := by
  rw [Script.noiseAt, Nat.mul_comm, Nat.mul_add_div (Nat.zero_lt_of_lt hi), Nat.div_eq_of_lt hi,
    Nat.mul_add_mod, Nat.mod_eq_of_lt hi, Nat.add_zero]

variable [Add F]

/-- The sample at a position is its noise with the audio of the transmission that covers it. -/
structure Script.Sounds (script : Script F blockSize) (log : List (SimTransmission F)) (p : ℕ)
    (sample : Option F) : Prop where
  covered : ∀ tx ∈ log, tx.Covers p →
    sample = Option.map₂ (· + ·) (script.noiseAt p) tx.audio[p - tx.startSample]?
  quiet : (∀ tx ∈ log, ¬tx.Covers p) → sample = script.noiseAt p

/-- Transmissions are apart, and each sample of them is where it belongs. -/
structure Script.Plays (script : Script F blockSize) (samples : List F)
    (log : List (SimTransmission F)) : Prop where
  apart : log.Pairwise fun tx tx' => tx.stop ≤ tx'.startSample
  sounds : ∀ p < samples.length, script.Sounds log p samples[p]?

/-- A transmission that is still to come is not heard. -/
theorem Script.Sounds.append (h : script.Sounds log p sample) (hlater : p < tx.startSample) :
    script.Sounds (log ++ [tx]) p sample where
  covered := by
    intro tx' htx' hcovers
    rcases List.mem_append.mp htx' with hold | hnew
    · exact h.covered tx' hold hcovers
    · rw [List.mem_singleton.mp hnew] at hcovers
      exact absurd hcovers.1 (Nat.not_le.mpr hlater)
  quiet := fun hnone => h.quiet fun tx' htx' => hnone tx' (List.mem_append_left _ htx')

/-! ## The band between two blocks -/

/-- The transmissions are over by the position of the band, but for the last of the log while it
is being sent. -/
structure Script.Playing (script : Script F blockSize) (samples : List F) (band : Band F) :
    Prop where
  pos_eq : band.pos = band.made * blockSize
  length_eq : samples.length = band.pos
  plays : script.Plays samples band.log
  idle : band.current = none →
    band.pos ≤ band.nextStart ∧ ∀ tx ∈ band.log, tx.stop ≤ band.pos
  sending : ∀ tx, band.current = some tx → band.pos ≤ tx.stop ∧
    ∃ earlier, band.log = earlier ++ [tx] ∧ ∀ tx' ∈ earlier, tx'.stop ≤ band.pos

theorem playing_start : script.Playing [] script.start where
  pos_eq := (Nat.zero_mul _).symm
  length_eq := rfl
  plays := ⟨List.Pairwise.nil, fun _ hp => absurd hp (Nat.not_lt_zero _)⟩
  idle := fun _ => ⟨Nat.zero_le _, fun _ htx => absurd htx List.not_mem_nil⟩
  sending := fun _ htx => nomatch htx

/-- The next transmission can be logged as soon as it is due. -/
theorem Script.Playing.due (h : script.Playing samples band) :
    script.Playing samples (script.due band) := by
  rcases due_cases script band with ⟨_, _, hdue⟩ | ⟨hidle, _, hdue⟩ | ⟨_, _, hdue⟩
  · rwa [hdue]
  · obtain ⟨hpos, hover⟩ := h.idle hidle
    rw [hdue]
    refine ⟨h.pos_eq, h.length_eq, ⟨?_, ?_⟩, nofun, ?_⟩
    · refine List.pairwise_append.mpr ⟨h.plays.apart, List.pairwise_singleton _ _, ?_⟩
      intro tx htx tx' htx'
      rw [List.mem_singleton.mp htx']
      exact (hover tx htx).trans hpos
    · intro p hp
      exact (h.plays.sounds p hp).append ((h.length_eq ▸ hp).trans_le hpos)
    · rintro tx ⟨⟩
      exact ⟨hpos.trans (Nat.le_add_right _ _), band.log, rfl, hover⟩
  · rwa [hdue]

/-- The samples behind a block sound as they should if those of the block do. -/
theorem Script.Plays.append {block : List F} (h : script.Plays samples log)
    (hblock : ∀ i < block.length, script.Sounds log (samples.length + i) block[i]?) :
    script.Plays (samples ++ block) log where
  apart := h.apart
  sounds := by
    intro p hp
    rcases Nat.lt_or_ge p samples.length with hlow | hhigh
    · rw [List.getElem?_append_left hlow]
      exact h.sounds p hlow
    · obtain ⟨i, rfl⟩ := Nat.exists_eq_add_of_le hhigh
      rw [List.getElem?_append_right hhigh, Nat.add_sub_cancel_left]
      exact hblock i (by simpa using hp)

/-- No transmission reaches into the block. -/
theorem Script.Playing.quiet (h : script.Playing samples band) (hidle : band.current = none)
    (hearly : band.pos + blockSize ≤ band.nextStart) :
    script.Playing (samples ++ script.noise band.made) (advance blockSize band) := by
  have hover := (h.idle hidle).2
  refine ⟨?_, ?_, ?_, ?_, ?_⟩
  · simp only [advance, h.pos_eq, Nat.succ_mul]
  · simp only [advance, List.length_append, h.length_eq, script.noise_length]
  · refine h.plays.append ?_
    intro i hi
    rw [h.length_eq]
    refine ⟨?_, ?_⟩
    · intro tx htx hcovers
      have hstop := hover tx htx
      have hlt := hcovers.2
      omega
    · intro _
      rw [h.pos_eq, noiseAt_block _ (by rwa [script.noise_length] at hi)]
  · exact fun _ => ⟨hearly, fun tx htx => (hover tx htx).trans (Nat.le_add_right _ _)⟩
  · intro tx htx
    rw [show (advance blockSize band).current = none from hidle] at htx
    cases htx

/-- The block is mixed with the only transmission that can reach into it. -/
theorem Script.Playing.sounds_mix (h : script.Playing samples band) (htx : band.current = some tx)
    {i : ℕ} (hi : i < blockSize) :
    script.Sounds band.log (band.pos + i) (mix band.pos tx (script.noise band.made))[i]? := by
  obtain ⟨_, earlier, hlog, hover⟩ := h.sending tx htx
  have hnoise : script.noiseAt (band.pos + i) = (script.noise band.made)[i]? := by
    rw [h.pos_eq, noiseAt_block _ hi]
  refine ⟨?_, ?_⟩
  · intro tx' htx' hcovers
    have hsame : tx' = tx := by
      rw [hlog] at htx'
      rcases List.mem_append.mp htx' with hearlier | hlast
      · have hstop := hover tx' hearlier
        have hlt := hcovers.2
        omega
      · exact List.mem_singleton.mp hlast
    subst hsame
    rw [getElem?_mix_of_covers (by rwa [script.noise_length]) hcovers, hnoise]
  · intro hnone
    rw [getElem?_mix_of_not_covers (hnone tx (by simp [hlog])), hnoise]

/-- A gap of a block or more keeps the next start ahead of the band. -/
theorem Script.Playing.send (h : script.Playing samples band) (htx : band.current = some tx)
    (hidle : ∀ n, blockSize ≤ script.idle n) :
    script.Playing (samples ++ mix band.pos tx (script.noise band.made))
      (advance blockSize (script.finish band tx)) := by
  obtain ⟨hpos, earlier, hlog, hover⟩ := h.sending tx htx
  refine ⟨?_, ?_, ?_, ?_, ?_⟩
  · simp [advance, h.pos_eq, Nat.succ_mul]
  · simp [advance, h.length_eq, script.noise_length]
  · simp only [advance, finish_log]
    refine h.plays.append ?_
    intro i hi
    rw [length_mix, script.noise_length] at hi
    rw [h.length_eq]
    exact h.sounds_mix htx hi
  · intro hdone
    rcases Nat.lt_or_ge (band.pos + blockSize) tx.stop with hlt | hstop
    · rw [finish_of_lt_stop hlt] at hdone
      cases htx.symm.trans hdone
    · rw [finish_of_stop_le hstop]
      simp only [advance]
      refine ⟨Nat.add_le_add hpos (hidle _), ?_⟩
      intro tx' htx'
      rw [hlog] at htx'
      rcases List.mem_append.mp htx' with hearlier | hlast
      · exact (hover tx' hearlier).trans (Nat.le_add_right _ _)
      · rwa [List.mem_singleton.mp hlast]
  · intro tx' htx'
    rcases Nat.lt_or_ge (band.pos + blockSize) tx.stop with hlt | hstop
    · rw [finish_of_lt_stop hlt] at htx' ⊢
      cases htx.symm.trans htx'
      exact ⟨hlt.le, earlier, hlog,
        fun tx' htx' => (hover tx' htx').trans (Nat.le_add_right _ _)⟩
    · rw [finish_of_stop_le hstop] at htx'
      cases htx'

/-! ## Runs -/

theorem Script.Playing.next (h : script.Playing samples band)
    (hplaying : script.paused band.made = false) (hidle : ∀ n, blockSize ≤ script.idle n) :
    script.Playing (samples ++ (script.next band).1) (script.next band).2 := by
  cases htx : (script.due band).current with
  | none =>
    rw [next_of_quiet hplaying htx]
    have hearly : (script.due band).pos + blockSize ≤ (script.due band).nextStart := by
      rcases due_cases script band with ⟨_, hsome, hdue⟩ | ⟨_, _, hdue⟩ | ⟨_, hlt, hdue⟩
      · rw [hdue, hsome] at htx
        cases htx
      · rw [hdue] at htx
        cases htx
      · rw [hdue]
        exact hlt.le
    simpa using h.due.quiet htx hearly
  | some tx =>
    rw [next_of_sending hplaying htx]
    simpa using h.due.send htx hidle

/-- While the signals are on and every gap lasts a block, each sample of each transmission is
heard once, in its place, over the noise. -/
theorem Script.run_plays (script : Script F blockSize) (hplaying : ∀ k, script.paused k = false)
    (hidle : ∀ n, blockSize ≤ script.idle n) (stopAt : Option ℕ) (k : ℕ) :
    (script.run stopAt k).1.length = (script.run stopAt k).2.pos ∧
      script.Plays (script.run stopAt k).1 (script.run stopAt k).2.log := by
  have h : script.Playing (script.run stopAt k).1 (script.run stopAt k).2 :=
    run_keeps playing_start (fun _ _ h => h.next (hplaying _) hidle) k
  exact ⟨h.length_eq, h.plays⟩

/-- A station of ten seconds comes up every one and a half. -/
def tenSeconds (paused : ℕ → Bool) : Script ℚ 512 where
  noise := fun _ => List.replicate 512 0
  noise_length := fun _ => List.length_replicate
  station := fun _ =>
    { text := "TU 5NN 73 <SK>".toList, toneHz := 700, wpm := 20, amplitude := 1 / 2
      audio := List.replicate 80000 (1 / 2)
      audio_ne_nil := List.length_pos_iff.mp (by rw [List.length_replicate]; omega) }
  idle := fun _ => 12000
  paused := paused

theorem run_plays_tenSeconds :
    ((tenSeconds fun _ => false).run none 300).1.length =
        ((tenSeconds fun _ => false).run none 300).2.pos ∧
      (tenSeconds fun _ => false).Plays ((tenSeconds fun _ => false).run none 300).1
        ((tenSeconds fun _ => false).run none 300).2.log :=
  (tenSeconds fun _ => false).run_plays (fun _ => rfl) (fun _ => (by omega : 512 ≤ 12000)) none 300

end CwStation.Simulate
