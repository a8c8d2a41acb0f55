import CwStation.Model.Webhooks
import CwStation.Library.Table

/-! # What carries a webhook delivery on -/

namespace CwStation.Webhooks

open Tasks (Time)

variable {cfg : Settings} {s : Store} {d : WebhookDelivery}

/-- The delivery is done, or something will move it: its cursor, a send task or a later tick. -/
def Carried (s : Store) (d : WebhookDelivery) : Prop :=
  d.isTerminal = true ∨ (d.status = .retrying ∧ d.nextAttemptAt.isSome) ∨
    (∃ t ∈ s.queue, t.delivery = d.pk) ∨ ∃ now, d.due now = true

/-- No delivery is stranded. -/
def NoneStranded (s : Store) : Prop := ∀ d ∈ s.deliveries, Carried s d

/-- Every enqueue is accepted, and no send task ends before it has recorded its attempt. -/
def Event.HandsOver : Event → Prop
  | .fanOut _ _ _ answers => ∀ accepted ∈ answers, accepted = true
  | .replay _ accepted => accepted = true
  | .start _ => True
  | .finish _ ending _ => ending ≠ .raised
  | .tick _ _ answers => ∀ accepted ∈ answers, accepted = true

/-! ### Keys -/

/-- Keys are given once, and a send task holds the row it has been enqueued for. -/
structure Keyed (s : Store) : Prop where
  deliveries : Table.Unique WebhookDelivery.pk s.deliveries
  nextPk : ∀ d ∈ s.deliveries, d.pk < s.nextPk
  queue : Table.Unique SendTask.id s.queue
  nextTask : ∀ t ∈ s.queue, t.id < s.nextTask
  loaded : ∀ t ∈ s.queue, ∀ d, t.loaded = some d → d.pk = t.delivery

theorem Keyed.delivery_mem (h : Keyed s) (hd : d ∈ s.deliveries) : s.delivery d.pk = some d :=
  Table.get_of_mem h.deliveries hd

theorem keyed_enqueueDelivery (h : Keyed s) (accepted : Bool) (pk : ℕ) :
    Keyed (s.enqueueDelivery accepted pk) := by
  cases accepted with
  | false => exact h
  | true =>
    refine ⟨h.deliveries, h.nextPk, ?_, ?_, ?_⟩
    · apply h.queue.append
      rw [Table.get_eq_none_iff]
      intro t ht
      exact (h.nextTask t ht).ne
    · intro t ht
      show t.id < s.nextTask + 1
      rcases List.mem_append.mp ht with ht | ht
      · have := h.nextTask t ht
        omega
      · rw [List.mem_singleton] at ht
        subst ht
        exact Nat.lt_succ_self _
    · intro t ht d hd
      rcases List.mem_append.mp ht with ht | ht
      · exact h.loaded t ht d hd
      · rw [List.mem_singleton] at ht
        subst ht
        cases hd

theorem keyed_createDelivery (h : Keyed s) (accepted : Bool) (make : ℕ → WebhookDelivery) :
    Keyed (s.createDelivery accepted make) := by
  apply keyed_enqueueDelivery
  refine ⟨?_, ?_, h.queue, h.nextTask, h.loaded⟩
  · apply h.deliveries.append
    rw [Table.get_eq_none_iff]
    intro d hd
    exact (h.nextPk d hd).ne
  · intro d hd
    show d.pk < s.nextPk + 1
    rcases List.mem_append.mp hd with hd | hd
    · have := h.nextPk d hd
      omega
    · rw [List.mem_singleton] at hd
      subst hd
      exact Nat.lt_succ_self _

theorem keyed_alterDelivery (h : Keyed s) (pk : ℕ) {f : WebhookDelivery → WebhookDelivery}
    (hf : ∀ d, (f d).pk = d.pk) : Keyed (s.alterDelivery pk f) := by
  refine ⟨h.deliveries.alter hf, ?_, h.queue, h.nextTask, h.loaded⟩
  intro d hd
  obtain ⟨r, hr, rfl⟩ := Table.mem_alter hd
  rw [Table.key_alter hf]
  exact h.nextPk r hr

theorem keyed_dropTask (h : Keyed s) (id : ℕ) : Keyed (s.dropTask id) := by
  refine ⟨h.deliveries, h.nextPk, ?_, ?_, ?_⟩
  · exact h.queue.sublist (List.filter_sublist.map _)
  · intro t ht
    exact h.nextTask t (List.mem_of_mem_filter ht)
  · intro t ht
    exact h.loaded t (List.mem_of_mem_filter ht)

/-! ### What keeps a delivery carried -/

theorem Carried.mono {s' : Store} (h : Carried s d)
    (hqueue : ∀ t ∈ s.queue, t.delivery = d.pk → ∃ t' ∈ s'.queue, t'.delivery = d.pk) :
    Carried s' d := by
  rcases h with h | h | ⟨t, ht, hpk⟩ | h
  · exact .inl h
  · exact .inr (.inl h)
  · exact .inr (.inr (.inl (hqueue t ht hpk)))
  · exact .inr (.inr (.inr h))

structure Live (s : Store) : Prop where
  keyed : Keyed s
  carried : NoneStranded s

theorem Live.createDelivery (h : Live s) (make : ℕ → WebhookDelivery) :
    Live (s.createDelivery true make) := by
  refine ⟨keyed_createDelivery h.keyed true make, ?_⟩
  intro d hd
  rcases List.mem_append.mp hd with hd | hd
  · apply (h.carried d hd).mono
    intro t ht hpk
    exact ⟨t, List.mem_append_left _ ht, hpk⟩
  · rw [List.mem_singleton] at hd
    subst hd
    exact .inr (.inr (.inl ⟨_, List.mem_append_right _ List.mem_cons_self, rfl⟩))

theorem Live.fanOutLoop {make : WebhookEndpoint → ℕ → WebhookDelivery}
    {endpoints : List WebhookEndpoint} {answers : List Bool} (h : Live s)
    (hall : ∀ accepted ∈ answers, accepted = true) :
    Live (Store.fanOutLoop make endpoints answers s).2 := by
  induction endpoints generalizing answers s with
  | nil => exact h
  | cons ep endpoints ih =>
    cases answers with
    | nil => exact h
    | cons accepted answers =>
      obtain rfl : accepted = true := hall accepted List.mem_cons_self
      apply ih (h.createDelivery (make ep))
      intro accepted haccepted
      exact hall accepted (List.mem_cons_of_mem _ haccepted)

theorem Live.claimDelivery (h : Live s) (pk : ℕ) (observed : Option Time) :
    Live (s.claimDelivery true pk observed).2 := by
  rw [Store.claimDelivery]
  split
  · have hkeyed : Keyed (s.alterDelivery pk fun d =>
        { d with status := .pending, nextAttemptAt := none }) :=
      keyed_alterDelivery h.keyed pk fun _ => rfl
    refine ⟨keyed_enqueueDelivery hkeyed true pk, ?_⟩
    intro d hd
    obtain ⟨r, hr, rfl⟩ := Table.mem_alter hd
    by_cases hpk : r.pk = pk
    · rw [if_pos hpk]
      refine .inr (.inr (.inl ⟨_, List.mem_append_right _ List.mem_cons_self, ?_⟩))
      exact hpk.symm
    · rw [if_neg hpk]
      apply (h.carried r hr).mono
      intro t ht hpk
      exact ⟨t, List.mem_append_left _ ht, hpk⟩
  · exact h

theorem Live.claimLoop {due : List WebhookDelivery} {answers : List Bool} (h : Live s)
    (hall : ∀ accepted ∈ answers, accepted = true) : Live (Store.claimLoop due answers s).2 := by
  induction due generalizing answers s with
  | nil => exact h
  | cons d due ih =>
    cases answers with
    | nil => exact h
    | cons accepted answers =>
      obtain rfl : accepted = true := hall accepted List.mem_cons_self
      apply ih (h.claimDelivery d.pk d.nextAttemptAt)
      intro accepted haccepted
      exact hall accepted (List.mem_cons_of_mem _ haccepted)

/-- A task may go whose delivery is carried on without it. -/
theorem Live.dropTask {task : SendTask} (h : Live s)
    (htask : Table.get SendTask.id s.queue task.id = some task)
    (hdone : ∀ d ∈ s.deliveries, d.pk = task.delivery → Carried (s.dropTask task.id) d) :
    Live (s.dropTask task.id) := by
  refine ⟨keyed_dropTask h.keyed task.id, ?_⟩
  intro d hd
  by_cases hpk : d.pk = task.delivery
  · exact hdone d hd hpk
  · apply (h.carried d hd).mono
    intro t ht htd
    refine ⟨t, List.mem_filter.mpr ⟨ht, decide_eq_true ?_⟩, htd⟩
    intro hid
    have hsame : t = task := by
      have hget := Table.get_of_mem h.keyed.queue ht
      rw [hid, htask] at hget
      exact (Option.some.inj hget).symm
    exact hpk (hsame ▸ htd.symm)

theorem Live.startTask (h : Live s) (id : ℕ) : Live (s.startTask id) := by
  rw [Store.startTask]
  split
  · exact h
  rename_i task htask
  obtain rfl := Table.key_of_get htask
  split
  · rename_i hgone
    apply h.dropTask htask
    intro d hd hpk
    exact absurd hpk (Table.get_eq_none_iff.mp hgone d hd)
  rename_i d hd
  split
  · rename_i hterminal
    apply h.dropTask htask
    intro r hr hpk
    have hsame := h.keyed.delivery_mem hr
    rw [hpk, hd] at hsame
    cases hsame
    exact .inl hterminal
  · have hid : ∀ t : SendTask, { t with loaded := some d }.id = t.id := fun _ => rfl
    refine ⟨⟨h.keyed.deliveries, h.keyed.nextPk, h.keyed.queue.alter hid, ?_, ?_⟩, ?_⟩
    · intro t' ht'
      obtain ⟨t, ht, rfl⟩ := Table.mem_alter ht'
      rw [Table.key_alter hid]
      exact h.keyed.nextTask t ht
    · intro t' ht' e he
      obtain ⟨t, ht, rfl⟩ := Table.mem_alter ht'
      by_cases heq : t.id = task.id
      · rw [if_pos heq] at he ⊢
        have hget := Table.get_of_mem h.keyed.queue ht
        rw [heq, htask] at hget
        cases hget
        cases he
        exact Table.key_of_get hd
      · rw [if_neg heq] at he ⊢
        exact h.keyed.loaded t ht e he
    · intro e he
      apply (h.carried e he).mono
      intro t ht hpk
      refine ⟨_, List.mem_map_of_mem ht, ?_⟩
      split <;> exact hpk

theorem attempted_carries (cfg : Settings) (response : Response) (elapsedMs : ℕ) (now : Time)
    (d row : WebhookDelivery) (s : Store) :
    Carried s (saveAttempt (attempted cfg response elapsedMs now d) row) := by
  simp only [attempted]
  by_cases hsucceeded : response.succeeded = true
  · rw [if_pos hsucceeded]
    exact .inl rfl
  rw [if_neg hsucceeded]
  by_cases hspent : d.maxAttempts ≤ d.attempt + 1
  · rw [if_pos hspent]
    exact .inl rfl
  · rw [if_neg hspent]
    exact .inr (.inl ⟨rfl, rfl⟩)

theorem Live.finishTask (h : Live s) (id : ℕ) {ending : Store.Ending} (now : Time)
    (hending : ending ≠ .raised) : Live (s.finishTask cfg id ending now) := by
  rw [Store.finishTask]
  split
  · exact h
  rename_i task htask
  obtain rfl := Table.key_of_get htask
  split
  · exact h
  · exact absurd rfl hending
  rename_i d response elapsedMs hd
  have hpk : d.pk = task.delivery := h.keyed.loaded task (Table.get_mem htask) d hd
  -- the row is saved behind the drop, but the two commute
  have hsaved : Live (s.alterDelivery d.pk (saveAttempt (attempted cfg response elapsedMs now d))) := by
    refine ⟨keyed_alterDelivery h.keyed d.pk fun _ => rfl, ?_⟩
    intro e he
    obtain ⟨r, hr, rfl⟩ := Table.mem_alter he
    split
    · exact attempted_carries cfg response elapsedMs now d r _
    · exact h.carried r hr
  have hdropped : Live ((s.alterDelivery d.pk
      (saveAttempt (attempted cfg response elapsedMs now d))).dropTask task.id) := by
    apply hsaved.dropTask htask
    intro e he hpk'
    obtain ⟨r, hr, rfl⟩ := Table.mem_alter he
    by_cases hkey : r.pk = d.pk
    · rw [if_pos hkey]
      exact attempted_carries cfg response elapsedMs now d r _
    · rw [if_neg hkey] at hpk'
      exact absurd (hpk'.trans hpk.symm) hkey
  exact ⟨⟨hdropped.keyed.deliveries, hdropped.keyed.nextPk, hdropped.keyed.queue,
    hdropped.keyed.nextTask, hdropped.keyed.loaded⟩, hdropped.carried⟩

/-! ### Runs -/

theorem Live.step (h : Live s) {e : Event} (he : e.HandsOver) : Live (s.step cfg e) := by
  cases e with
  | fanOut eventType payload eventId answers =>
    rw [Store.step, Store.fanOut]
    split
    · exact h
    · exact h.fanOutLoop he
  | replay pk accepted =>
    obtain rfl : accepted = true := he
    rw [Store.step]
    split
    · exact h
    · exact h.createDelivery _
  | start id => exact h.startTask id
  | finish id ending now => exact h.finishTask id now he
  | tick now limit answers =>
    rw [Store.step, Store.runDueDeliveries]
    split
    · exact h
    · exact h.claimLoop he

theorem live_foldl (events : List Event) (h : Live s) (hevents : ∀ e ∈ events, e.HandsOver) :
    Live (events.foldl (Store.step cfg) s) := by
  induction events generalizing s with
  | nil => exact h
  | cons e events ih =>
    apply ih (h.step (hevents e List.mem_cons_self))
    intro e he
    exact hevents e (List.mem_cons_of_mem _ he)

/-- As long as every hand-over is accepted, no delivery is stranded. -/
theorem deliveries_carried (cfg : Settings) (endpoints : List WebhookEndpoint)
    (events : List Event) (hevents : ∀ e ∈ events, e.HandsOver) :
    NoneStranded (runEvents cfg endpoints events) := by
  have hstart : Live { endpoints } := by
    refine ⟨⟨?_, ?_, ?_, ?_, ?_⟩, ?_⟩ <;> simp [Table.Unique, NoneStranded]
  exact (live_foldl events hstart hevents).carried

/-- An accepted send that the endpoint answers with an error, and the tick behind it. -/
theorem failed_send_carried :
    NoneStranded (runEvents { fnmatch := fun name pattern => name = pattern }
      [{ pk := 1, eventFilter := ["qso.created".toList] }]
      [.fanOut "qso.created".toList "{}".toList none [true], .start 0,
        .finish 0 (.answered (.status 503 (some 5)) 12) 0, .tick (Tasks.seconds 9) 200 [true]]) :=
  deliveries_carried _ _ _ (by simp [Event.HandsOver])

/-- A delivery whose enqueue the queue refuses waits for a tick that only looks at the cursor. -/
theorem refused_enqueue_strands :
    ¬ ∀ cfg endpoints events, NoneStranded (runEvents cfg endpoints events) := by
  intro h
  have hd := h { fnmatch := fun name pattern => name = pattern }
    [{ pk := 1, eventFilter := ["qso.created".toList] }]
    [.fanOut "qso.created".toList "{}".toList none [false]]
    { pk := 0, endpoint := 1, eventType := "qso.created".toList, payload := "{}".toList,
      eventId := none, maxAttempts := 5 } (by decide)
  rcases hd with hterminal | ⟨hretrying, -⟩ | ⟨t, ht, -⟩ | ⟨now, hdue⟩
  · cases hterminal
  · cases hretrying
  · cases ht
  · cases hdue

end CwStation.Webhooks
