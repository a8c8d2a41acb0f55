import CwStation.Library.Threads
import Mathlib.Data.List.Induction

/-! # Requests served at once

A server keeps a state and the requests that have come, each at a place in what it does. Between
two steps of a request any other may take its turn, and a request that stops for ever takes no
more. -/

namespace CwStation.Requests

open Threads

variable {ι π ρ σ α : Type}

/-- The state, and every request that has come with the place it has reached. -/
structure Server (ι π σ : Type) where
  state : σ
  requests : List (ι × π) := []

/-- A request comes, or one takes its next step. -/
inductive Turn (ι : Type)
  | start (job : ι)
  | run (i : ℕ)

namespace Server

/-- `enter` is where a request begins and `next` what it does at a place. -/
def step (enter : ι → π) (next : π → σ → π × σ) (y : Server ι π σ) : Turn ι → Server ι π σ
  | .start job => { y with requests := y.requests ++ [(job, enter job)] }
  | .run i =>
      match y.requests[i]? with
      | some (job, p) =>
          { state := (next p y.state).2
            requests := y.requests.set i (job, (next p y.state).1) }
      | none => y

def run (enter : ι → π) (next : π → σ → π × σ) (y : Server ι π σ) (turns : List (Turn ι)) :
    Server ι π σ :=
  turns.foldl (step enter next) y

variable {enter : ι → π} {next : π → σ → π × σ} {y : Server ι π σ}

theorem run_append (y : Server ι π σ) (turns later : List (Turn ι)) :
    y.run enter next (turns ++ later) = (y.run enter next turns).run enter next later :=
  List.foldl_append

theorem run_concat (y : Server ι π σ) (turns : List (Turn ι)) (turn : Turn ι) :
    y.run enter next (turns ++ [turn]) = (y.run enter next turns).step enter next turn := by
  rw [run_append]
  rfl

theorem step_run {i : ℕ} {job : ι} {p : π} (h : y.requests[i]? = some (job, p)) :
    y.step enter next (.run i) =
      { state := (next p y.state).2
        requests := y.requests.set i (job, (next p y.state).1) } := by
  simp only [step, h]

/-- A turn takes one request on. -/
theorem requests_step {turn : Turn ι} {i : ℕ} {job : ι} {p : π}
    (h : (y.step enter next turn).requests[i]? = some (job, p)) :
    y.requests[i]? = some (job, p) ∨ (turn = .start job ∧ p = enter job) ∨
      ∃ q, turn = .run i ∧ y.requests[i]? = some (job, q) ∧ p = (next q y.state).1 := by
  cases turn with
  | start job' =>
    simp only [step, List.getElem?_append] at h
    by_cases hlt : i < y.requests.length
    · rw [if_pos hlt] at h
      exact .inl h
    · rw [if_neg hlt, List.getElem?_singleton] at h
      by_cases hi : i - y.requests.length = 0
      · rw [if_pos hi] at h
        cases h
        exact .inr (.inl ⟨rfl, rfl⟩)
      · rw [if_neg hi] at h
        cases h
  | run k =>
    cases hk : y.requests[k]? with
    | none =>
      simp only [step, hk] at h
      exact .inl h
    | some r =>
      obtain ⟨job', q⟩ := r
      rw [step_run hk] at h
      by_cases hi : k = i
      · subst hi
        have hlt : k < y.requests.length := (List.getElem?_eq_some_iff.mp hk).1
        rw [List.getElem?_set_self hlt] at h
        cases h
        exact .inr (.inr ⟨q, rfl, hk, rfl⟩)
      · rw [List.getElem?_set_ne hi] at h
        exact .inl h

/-- What every step does to the state, a run does. -/
theorem run_rel {R : σ → σ → Prop} (hrefl : ∀ s, R s s)
    (htrans : ∀ s s' s'', R s s' → R s' s'' → R s s'') (hstep : ∀ p s, R s (next p s).2)
    (turns : List (Turn ι)) : R y.state (y.run enter next turns).state := by
  induction turns generalizing y with
  | nil => exact hrefl _
  | cons turn turns ih =>
    refine htrans _ _ _ ?_ ih
    cases turn with
    | start job => exact hrefl _
    | run i =>
      cases hi : y.requests[i]? with
      | none =>
        simp only [step, hi]
        exact hrefl _
      | some r =>
        obtain ⟨job, p⟩ := r
        rw [step_run hi]
        exact hstep p y.state

/-- Requests are never forgotten. -/
theorem length_le_run (turns : List (Turn ι)) :
    y.requests.length ≤ (y.run enter next turns).requests.length := by
  induction turns generalizing y with
  | nil => exact Nat.le_refl _
  | cons turn turns ih =>
    refine Nat.le_trans ?_ ih
    cases turn with
    | start job => simp [step]
    | run i =>
      cases hi : y.requests[i]? with
      | none => simp only [step, hi, Nat.le_refl]
      | some r =>
        obtain ⟨job, p⟩ := r
        rw [step_run hi]
        exact Nat.le_of_eq List.length_set.symm

/-- A request stays at a place where nothing is left to do. -/
theorem stays {i : ℕ} {job : ι} {p : π} (h : y.requests[i]? = some (job, p))
    (hp : ∀ s, (next p s).1 = p) (turns : List (Turn ι)) :
    (y.run enter next turns).requests[i]? = some (job, p) := by
  induction turns generalizing y with
  | nil => exact h
  | cons turn turns ih =>
    apply ih
    have hlt : i < y.requests.length := (List.getElem?_eq_some_iff.mp h).1
    cases turn with
    | start job' =>
      rw [step, List.getElem?_append_left hlt]
      exact h
    | run k =>
      cases hk : y.requests[k]? with
      | none =>
        simp only [step, hk]
        exact h
      | some r =>
        rw [step_run hk]
        by_cases hi : k = i
        · subst hi
          rw [h] at hk
          cases hk
          rw [List.getElem?_set_self hlt, hp]
        · rw [List.getElem?_set_ne hi]
          exact h

/-- A request that has come to a place in `B` has taken the step into `B`. -/
theorem crossed {B : π → Prop} (henter : ∀ job, ¬ B (enter job)) {i : ℕ}
    (hy : ∀ job p, y.requests[i]? = some (job, p) → ¬ B p) {turns : List (Turn ι)} {job : ι} {p : π}
    (h : (y.run enter next turns).requests[i]? = some (job, p)) (hB : B p) :
    ∃ earlier later q, turns = earlier ++ .run i :: later ∧
      (y.run enter next earlier).requests[i]? = some (job, q) ∧ ¬ B q ∧
        B (next q (y.run enter next earlier).state).1 := by
  induction turns using List.reverseRecOn generalizing p with
  | nil => exact absurd hB (hy job p h)
  | append_singleton turns turn ih =>
    have hlater : ∀ q, (y.run enter next turns).requests[i]? = some (job, q) → B q →
        ∃ earlier later q, turns ++ [turn] = earlier ++ .run i :: later ∧
          (y.run enter next earlier).requests[i]? = some (job, q) ∧ ¬ B q ∧
            B (next q (y.run enter next earlier).state).1 := by
      intro q hq hBq
      obtain ⟨earlier, later, q, hturns, hrest⟩ := ih hq hBq
      exact ⟨earlier, later ++ [turn], q, by simp [hturns], hrest⟩
    rw [run_concat] at h
    rcases requests_step h with hold | ⟨-, rfl⟩ | ⟨q, rfl, hq, rfl⟩
    · exact hlater p hold hB
    · exact absurd hB (henter job)
    · by_cases hBq : B q
      · exact hlater q hq hBq
      · exact ⟨turns, [], q, rfl, hq, hBq, hB⟩

/-- A request that was not there has taken its turns since. -/
theorem turns_since {earlier later turns rest : List (Turn ι)} {i : ℕ} {r : ι × π}
    (hturns : earlier ++ later = turns ++ rest)
    (hlen : (y.run enter next earlier).requests.length ≤ i)
    (hi : (y.run enter next turns).requests[i]? = some r) :
    ∃ between, turns = earlier ++ between := by
  have hearlier : earlier <+: turns ++ rest := hturns ▸ List.prefix_append earlier later
  rcases List.prefix_or_prefix_of_prefix hearlier (List.prefix_append turns rest) with h | h
  · obtain ⟨between, hbetween⟩ := h
    exact ⟨between, hbetween.symm⟩
  · obtain ⟨between, rfl⟩ := h
    exfalso
    have hlt : i < (y.run enter next turns).requests.length :=
      (List.getElem?_eq_some_iff.mp hi).1
    have hle : (y.run enter next turns).requests.length ≤
        (y.run enter next (turns ++ between)).requests.length := by
      rw [run_append]
      exact length_le_run between
    omega

/-! ## Two accounts of the same requests -/

/-- The server with each place seen another way. -/
def map (f : π → ρ) (y : Server ι π σ) : Server ι ρ σ :=
  { state := y.state, requests := y.requests.map fun r => (r.1, f r.2) }

variable {enter' : ι → ρ} {next' : ρ → σ → ρ × σ} {f : π → ρ}

theorem requests_map {i : ℕ} :
    (y.map f).requests[i]? = (y.requests[i]?).map fun r => (r.1, f r.2) := by
  rw [map, List.getElem?_map]

theorem step_map (henter : ∀ job, enter' job = f (enter job))
    (hnext : ∀ p s, next' (f p) s = (f (next p s).1, (next p s).2)) (turn : Turn ι) :
    (y.map f).step enter' next' turn = (y.step enter next turn).map f := by
  cases turn with
  | start job => simp [step, map, henter]
  | run i =>
    cases hi : y.requests[i]? with
    | none =>
      have hmap : (y.map f).requests[i]? = none := by rw [requests_map, hi]; rfl
      simp only [step, hi, hmap]
    | some r =>
      obtain ⟨job, p⟩ := r
      have hmap : (y.map f).requests[i]? = some (job, f p) := by rw [requests_map, hi]; rfl
      have hp : next' (f p) (y.map f).state = (f (next p y.state).1, (next p y.state).2) :=
        hnext p y.state
      rw [step_run hi, step_run hmap, hp]
      simp [map, List.map_set]

/-- Servers whose places correspond run alike. -/
theorem run_map (henter : ∀ job, enter' job = f (enter job))
    (hnext : ∀ p s, next' (f p) s = (f (next p s).1, (next p s).2)) (turns : List (Turn ι)) :
    (y.map f).run enter' next' turns = (y.run enter next turns).map f := by
  induction turns generalizing y with
  | nil => rfl
  | cons turn turns ih =>
    have hstep : (y.map f).step enter' next' turn = (y.step enter next turn).map f :=
      step_map henter hnext turn
    rw [run, List.foldl_cons, hstep]
    exact ih

/-! ## What holds among requests -/

/-- What holds of the state, of every request beside it, and of any two requests. -/
structure Invariant (I : σ → Prop) (J : σ → ι → π → Prop) (K : ι → π → ι → π → Prop)
    (y : Server ι π σ) : Prop where
  state : I y.state
  request : ∀ {i : ℕ} {job p}, y.requests[i]? = some (job, p) → J y.state job p
  pair : ∀ {i j : ℕ} {job p job' q}, i ≠ j → y.requests[i]? = some (job, p) →
    y.requests[j]? = some (job', q) → K job p job' q

/-- The next step of a request keeps what holds of the state and of the request, and does not
interfere with what holds of another. -/
structure Free (next : π → σ → π × σ) (I : σ → Prop) (J : σ → ι → π → Prop)
    (K : ι → π → ι → π → Prop) (y : Server ι π σ) (i : ℕ) (job : ι) (p : π) : Prop where
  state : I (next p y.state).2
  own : J (next p y.state).2 job (next p y.state).1
  other : ∀ {j : ℕ} {job' q}, i ≠ j → y.requests[j]? = some (job', q) →
    J (next p y.state).2 job' q
  pair : ∀ {j : ℕ} {job' q}, i ≠ j → y.requests[j]? = some (job', q) →
    K job (next p y.state).1 job' q

variable {I : σ → Prop} {J : σ → ι → π → Prop} {K : ι → π → ι → π → Prop}

theorem Invariant.start (h : Invariant I J K y) (hK : ∀ job p job' q, K job p job' q →
    K job' q job p) {job : ι} (hJ : J y.state job (enter job))
    (hpair : ∀ {j : ℕ} {job' q}, y.requests[j]? = some (job', q) → K job (enter job) job' q) :
    Invariant I J K (y.step enter next (.start job)) := by
  have hcases : ∀ {i : ℕ} {job' : ι} {p : π},
      (y.step enter next (.start job)).requests[i]? = some (job', p) →
        y.requests[i]? = some (job', p) ∨
          (i = y.requests.length ∧ job' = job ∧ p = enter job) := by
    intro i job' p hi
    simp only [step, List.getElem?_append] at hi
    by_cases hlt : i < y.requests.length
    · rw [if_pos hlt] at hi
      exact .inl hi
    · rw [if_neg hlt, List.getElem?_singleton] at hi
      by_cases hzero : i - y.requests.length = 0
      · rw [if_pos hzero] at hi
        cases hi
        exact .inr ⟨by omega, rfl, rfl⟩
      · rw [if_neg hzero] at hi
        cases hi
  refine ⟨h.state, ?_, ?_⟩
  · intro i job' p hi
    rcases hcases hi with hi | ⟨-, rfl, rfl⟩
    · exact h.request hi
    · exact hJ
  · intro i j job₁ p job₂ q hij hi hj
    rcases hcases hi with hold | ⟨hlen, rfl, rfl⟩
    · rcases hcases hj with hold' | ⟨-, rfl, rfl⟩
      · exact h.pair hij hold hold'
      · exact hK _ _ _ _ (hpair hold)
    · rcases hcases hj with hold' | ⟨hlen', -, -⟩
      · exact hpair hold'
      · exact absurd (hlen.trans hlen'.symm) hij

theorem Invariant.run (h : Invariant I J K y) (hK : ∀ job p job' q, K job p job' q →
    K job' q job p) {i : ℕ}
    (hfree : ∀ job p, y.requests[i]? = some (job, p) → Free next I J K y i job p) :
    Invariant I J K (y.step enter next (.run i)) := by
  cases hi : y.requests[i]? with
  | none =>
    simp only [step, hi]
    exact h
  | some r =>
    obtain ⟨job, p⟩ := r
    have hstep : Free next I J K y i job p := hfree job p hi
    have hlt : i < y.requests.length := (List.getElem?_eq_some_iff.mp hi).1
    rw [step_run hi]
    have hcases : ∀ {k : ℕ} {job' : ι} {q : π},
        (y.requests.set i (job, (next p y.state).1))[k]? = some (job', q) →
          (k = i ∧ job' = job ∧ q = (next p y.state).1) ∨
            (k ≠ i ∧ y.requests[k]? = some (job', q)) := by
      intro k job' q hk
      by_cases hki : i = k
      · subst hki
        rw [List.getElem?_set_self hlt] at hk
        cases hk
        exact .inl ⟨rfl, rfl, rfl⟩
      · rw [List.getElem?_set_ne hki] at hk
        exact .inr ⟨Ne.symm hki, hk⟩
    refine ⟨hstep.state, ?_, ?_⟩
    · intro k job' q hk
      rcases hcases hk with ⟨-, rfl, rfl⟩ | ⟨hne, hk⟩
      · exact hstep.own
      · exact hstep.other hne.symm hk
    · intro k l job₁ q₁ job₂ q₂ hkl hk hl
      rcases hcases hk with ⟨rfl, rfl, rfl⟩ | ⟨hne, hk'⟩
      · rcases hcases hl with ⟨rfl, -, -⟩ | ⟨hne, hl'⟩
        · exact absurd rfl hkl
        · exact hstep.pair hne.symm hl'
      · rcases hcases hl with ⟨rfl, rfl, rfl⟩ | ⟨-, hl'⟩
        · exact hK _ _ _ _ (hstep.pair hne.symm hk')
        · exact h.pair hkl hk' hl'

end Server

/-! ## Programs as places -/

/-- A program takes its next statement; one that has ended stays. -/
def next : Prog σ α → σ → Prog σ α × σ
  | .ret a, s => (.ret a, s)
  | .act op k, s => (k s, op s)

/-- The server whose requests are programs. -/
def serve (prog : ι → Prog σ α) (s : σ) (turns : List (Turn ι)) : Server ι (Prog σ α) σ :=
  Server.run prog next { state := s } turns

/-- The request has ended with an answer. -/
def Server.Answered (y : Server ι (Prog σ α) σ) (i : ℕ) (job : ι) (a : α) : Prop :=
  y.requests[i]? = some (job, .ret a)

theorem Server.Answered.run {prog : ι → Prog σ α} {y : Server ι (Prog σ α) σ} {i : ℕ} {job : ι}
    {a : α} (h : y.Answered i job a) (turns : List (Turn ι)) :
    (y.run prog next turns).Answered i job a :=
  Server.stays h (fun _ => rfl) turns

end CwStation.Requests
