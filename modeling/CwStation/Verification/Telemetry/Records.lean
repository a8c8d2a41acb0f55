import CwStation.Model.LogHandler
import Mathlib.Data.List.Basic
import Mathlib.Tactic.Common

/-! # Log records are accounted for

What `emit` accepts is in the queue, in a batch, written or dropped, whoever takes the next turn. -/

namespace CwStation.LogHandler

variable {ρ : Type} {config : Config} {turn : Turn} {s : System ρ}

/-! ## Batches in a thread's hands -/

/-- The rows in a thread's hands that it has not written. -/
def Thread.pending : Thread ρ → List ρ
  | .wrote _ _ => []
  | t => t.batch

section batches

variable (w : Writer) (k : ℕ) (missing : Bool) (rows : List ρ)

@[simp] theorem batch_take : (Thread.take w missing rows).batch = rows := rfl
@[simp] theorem batch_wrote : (Thread.wrote w rows).batch = rows := rfl
@[simp] theorem batch_failed : (Thread.failed w k missing rows).batch = rows := rfl
@[simp] theorem batch_drop : (Thread.drop w rows).batch = rows := rfl
@[simp] theorem batch_put (row : ρ) : (Thread.put row).batch = [] := rfl
@[simp] theorem batch_full (row : ρ) : (Thread.full row).batch = [] := rfl
@[simp] theorem batch_done : (Thread.done : Thread ρ).batch = [] := rfl

@[simp] theorem batch_back : (w.back : Thread ρ).batch = [] := by
  cases w <;> rfl

@[simp] theorem batch_took : (w.took rows).batch = rows := by
  cases rows with
  | nil => cases w <;> rfl
  | cons row rows => cases w <;> rfl

@[simp] theorem batch_retry : (w.retry k missing rows).batch = rows := by
  rw [Writer.retry]
  split_ifs <;> rfl

@[simp] theorem pending_take : (Thread.take w missing rows).pending = rows := rfl
@[simp] theorem pending_attempt : (Thread.attempt w k rows).pending = rows := rfl
@[simp] theorem pending_wrote : (Thread.wrote w rows).pending = [] := rfl
@[simp] theorem pending_failed : (Thread.failed w k missing rows).pending = rows := rfl
@[simp] theorem pending_full (row : ρ) : (Thread.full row).pending = [] := rfl
@[simp] theorem pending_done : (Thread.done : Thread ρ).pending = [] := rfl

@[simp] theorem pending_back : (w.back : Thread ρ).pending = [] := by
  cases w <;> rfl

@[simp] theorem pending_took : (w.took rows).pending = rows := by
  cases rows with
  | nil => cases w <;> rfl
  | cons row rows => cases w <;> rfl

@[simp] theorem pending_retry : (w.retry k missing rows).pending = rows := by
  rw [Writer.retry]
  split_ifs <;> rfl

end batches

/-! ## One statement -/

/-- Records in the queue, and those that are written or dropped. -/
def Handler.settled (h : Handler ρ) : ℕ := h.queue.length + h.written + h.dropped

/-- A statement moves records on and loses none. -/
theorem next_accounts (t : Thread ρ) (h : Handler ρ) :
    (t.next config turn h).2.accepted.length + (h.settled + t.batch.length) =
      h.accepted.length +
        ((t.next config turn h).2.settled + (t.next config turn h).1.batch.length) := by
  cases t with
  | emit call =>
    simp only [Thread.next]
    split_ifs with hpassed
    · rfl
    · cases call.row <;> rfl
  | put row =>
    simp only [Thread.next]
    split_ifs
    · rfl
    · simp [Handler.settled]
      omega
  | full row =>
    simp [Thread.next, Handler.settled]
    omega
  | loop w =>
    cases w <;> simp only [Thread.next] <;> split_ifs <;> rfl
  | take w waits batch =>
    simp only [Thread.next]
    split_ifs
    · cases hqueue : h.queue with
      | nil => simp [Handler.settled]
      | cons row rest =>
        simp [Handler.settled, hqueue]
        omega
    · simp [Handler.settled]
  | write w rows =>
    simp only [Thread.next]
    split_ifs <;> rfl
  | attempt w k rows =>
    simp only [Thread.next]
    cases turn.outcome <;> rfl
  | wrote w rows =>
    simp [Thread.next, Handler.settled]
    omega
  | failed w k missing rows => simp [Thread.next, Handler.settled]
  | drop w rows =>
    simp [Thread.next, Handler.settled]
    omega
  | flush | close | mark | poll | done => rfl

/-- A failure leaves no rows in the table. -/
def Turn.Clean (turn : Turn) : Prop := ∀ missing, turn.outcome ≠ .failure missing true

section stored

variable [DecidableEq ρ]

/-- How often a row is in the table or in the queue. -/
def Handler.copies (h : Handler ρ) (row : ρ) : ℕ := h.table.count row + h.queue.count row

/-- A statement puts a row nowhere else before it has left where it was. -/
theorem next_copies (hclean : turn.Clean) (t : Thread ρ) (h : Handler ρ) (row : ρ) :
    (t.next config turn h).2.copies row + (t.next config turn h).1.pending.count row +
        h.accepted.count row ≤
      h.copies row + t.pending.count row + (t.next config turn h).2.accepted.count row := by
  cases t with
  | emit call =>
    simp only [Thread.next]
    split_ifs with hpassed
    · rfl
    · cases call.row <;> rfl
  | put row =>
    simp only [Thread.next]
    split_ifs
    · rfl
    · simp [Handler.copies]
      omega
  | full row => simp [Thread.next, Handler.copies]
  | loop w =>
    cases w <;> simp only [Thread.next] <;> split_ifs <;> rfl
  | take w waits batch =>
    simp only [Thread.next]
    split_ifs
    · cases hqueue : h.queue with
      | nil => simp [Handler.copies, hqueue]
      | cons first rest =>
        simp [Handler.copies, hqueue, List.count_cons]
        omega
    · simp [Handler.copies]
  | write w rows =>
    simp only [Thread.next]
    split_ifs <;> rfl
  | attempt w k rows =>
    simp only [Thread.next]
    cases houtcome : turn.outcome with
    | success =>
      simp [Handler.copies]
      omega
    | failure missing stores =>
      cases stores with
      | true => exact absurd houtcome (hclean missing)
      | false => simp [Handler.copies]
  | wrote w rows => simp [Thread.next, Handler.copies]
  | failed w k missing rows => simp [Thread.next, Handler.copies]
  | drop w rows => simp [Thread.next, Handler.copies]
  | flush | close | mark | poll | done => rfl

end stored

/-! ## All threads -/

/-- What a turn changes of a sum over the threads. -/
theorem flatMap_set {α : Type} (f : Thread ρ → List α) (p : List α → ℕ)
    (happend : ∀ xs ys, p (xs ++ ys) = p xs + p ys) {threads : List (Thread ρ)} {i : ℕ}
    {t : Thread ρ} (ht : threads[i]? = some t) (t' : Thread ρ) :
    p ((threads.set i t').flatMap f) + p (f t) = p (threads.flatMap f) + p (f t') := by
  obtain ⟨hi, rfl⟩ := List.getElem?_eq_some_iff.mp ht
  obtain ⟨before, behind, hthreads, -, hset⟩ := @List.exists_of_set _ _ t' _ hi
  rw [hset, congrArg (List.flatMap f) hthreads]
  simp only [List.flatMap_append, List.flatMap_cons, happend]
  omega

/-- What was accepted is in the queue, in a batch, written or dropped. -/
def System.Accounted (s : System ρ) : Prop :=
  s.handler.accepted.length =
    s.handler.queue.length + s.inBatches.length + s.handler.written + s.handler.dropped

theorem inBatches_begin {t : Thread ρ} (ht : t.batch = []) : (s.begin t).inBatches = s.inBatches := by
  simp [System.inBatches, System.begin, ht]

theorem accounted_step (h : s.Accounted) (event : Event ρ) : (s.step config event).Accounted := by
  cases event with
  | emit call => rw [System.Accounted, System.step, inBatches_begin rfl]; exact h
  | flush => rw [System.Accounted, System.step, inBatches_begin rfl]; exact h
  | close => rw [System.Accounted, System.step, inBatches_begin rfl]; exact h
  | ensureWorker => rw [System.Accounted, System.step, inBatches_begin rfl]; exact h
  | turn i turn =>
    simp only [System.step]
    cases ht : s.threads[i]? with
    | none => exact h
    | some t =>
      have hnext := @next_accounts ρ config turn t s.handler
      have hthreads := flatMap_set Thread.batch List.length
        (fun _ _ => List.length_append) ht (t.next config turn s.handler).1
      simp only [System.Accounted, System.inBatches, Handler.settled] at *
      omega

/-- In the table, in the queue and in hands that have not written, a row is no more often than it
was accepted. -/
def System.StoredOnce [DecidableEq ρ] (s : System ρ) : Prop :=
  ∀ row, s.handler.copies row + (s.threads.flatMap Thread.pending).count row ≤
    s.handler.accepted.count row

/-- A write that fails stores nothing. -/
def Event.Clean : Event ρ → Prop
  | .turn _ turn => turn.Clean
  | _ => True

theorem storedOnce_begin [DecidableEq ρ] {t : Thread ρ} (ht : t.pending = []) (h : s.StoredOnce) :
    (s.begin t).StoredOnce := by
  simpa [System.StoredOnce, System.begin, ht] using h

theorem storedOnce_step [DecidableEq ρ] (h : s.StoredOnce) (event : Event ρ)
    (hclean : event.Clean) : (s.step config event).StoredOnce := by
  cases event with
  | emit call => exact storedOnce_begin rfl h
  | flush => exact storedOnce_begin rfl h
  | close => exact storedOnce_begin rfl h
  | ensureWorker => exact storedOnce_begin rfl h
  | turn i turn =>
    simp only [System.step]
    cases ht : s.threads[i]? with
    | none => exact h
    | some t =>
      intro row
      have hnext := @next_copies ρ config turn _ hclean t s.handler row
      have hthreads := flatMap_set Thread.pending (List.count row)
        (fun _ _ => List.count_append) ht (t.next config turn s.handler).1
      have hbefore := h row
      simp only at *
      omega

/-! ## Runs -/

/-- Before anything is logged. -/
def System.fresh (level : ℤ) : System ρ := { handler := { level := level } }

end CwStation.LogHandler
