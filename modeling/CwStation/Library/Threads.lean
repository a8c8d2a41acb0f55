import Mathlib.Data.List.Basic

/-! # Threads over a shared state

A thread is a tree of statements. Each statement reads and updates the shared state at once;
between two of them any other thread may take its turn. A guarantee that all threads share is
proved thread by thread. -/

namespace CwStation.Threads

/-- A thread that ends with a result: `act op k` updates the state by `op` and goes on as `k`
says of the state it has read. -/
inductive Prog (σ α : Type)
  | ret (a : α)
  | act (op : σ → σ) (k : σ → Prog σ α)

variable {σ α β ρ : Type}

namespace Prog

def bind : Prog σ α → (α → Prog σ β) → Prog σ β
  | .ret a, f => f a
  | .act op k, f => .act op fun s => (k s).bind f

instance instMonad : Monad (Prog σ) where
  pure := .ret
  bind := bind

/-- One statement. -/
def stmt (f : σ → α × σ) : Prog σ α := .act (fun s => (f s).2) fun s => .ret (f s).1

/-- One statement that only reads. -/
def read (f : σ → α) : Prog σ α := .act id fun s => .ret (f s)

/-- One statement that only writes. -/
def write (f : σ → σ) : Prog σ Unit := .act f fun _ => .ret ()

/-- A loop over a list that keeps what its rounds give. -/
def collect (body : ρ → Prog σ (Option α)) : List ρ → Prog σ (List α)
  | [] => pure []
  | x :: l => do
      let head ← body x
      let tail ← collect body l
      return head.toList ++ tail

/-- The program as far as an exception lets it run: `some n` stops it behind `n` statements. -/
def upTo : Option ℕ → Prog σ α → Prog σ (Option α)
  | none, .ret a => .ret (some a)
  | none, .act op k => .act op fun s => upTo none (k s)
  | some 0, _ => .ret none
  | some (_ + 1), .ret a => .ret (some a)
  | some (n + 1), .act op k => .act op fun s => upTo (some n) (k s)

/-- A run with no other thread. -/
def eval : Prog σ α → σ → α × σ
  | .ret a, s => (a, s)
  | .act op k, s => (k s).eval (op s)

section eval

variable {s : σ}

theorem eval_bind (p : Prog σ α) (f : α → Prog σ β) :
    (p >>= f).eval s = (f (p.eval s).1).eval (p.eval s).2 := by
  induction p generalizing s with
  | ret a => rfl
  | act op k ih => exact ih s

theorem eval_pure (a : α) : (pure a : Prog σ α).eval s = (a, s) := rfl

theorem eval_read_bind (f : σ → α) (k : α → Prog σ β) : (read f >>= k).eval s = (k (f s)).eval s :=
  rfl

theorem eval_stmt_bind (f : σ → α × σ) (k : α → Prog σ β) :
    (stmt f >>= k).eval s = (k (f s).1).eval (f s).2 := rfl

/-- Where nothing is raised, catching exceptions changes nothing. -/
theorem upTo_none_join (p : Prog σ (Option α)) :
    (p.upTo none >>= fun caught => pure caught.join) = p := by
  induction p with
  | ret a => rfl
  | act op k ih => exact congrArg (act op) (funext ih)

theorem eval_collect_cons (body : ρ → Prog σ (Option α)) (x : ρ) (l : List ρ) :
    (collect body (x :: l)).eval s =
      (((body x).eval s).1.toList ++ ((collect body l).eval ((body x).eval s).2).1,
        ((collect body l).eval ((body x).eval s).2).2) := by
  rw [collect, eval_bind, eval_bind]
  rfl

/-- A loop whose rounds do nothing. -/
theorem eval_collect_nothing {body : ρ → Prog σ (Option α)} {l : List ρ}
    (h : ∀ x ∈ l, (body x).eval s = (none, s)) : (collect body l).eval s = ([], s) := by
  induction l with
  | nil => rfl
  | cons x l ih =>
    rw [eval_collect_cons, h x List.mem_cons_self, ih fun y hy => h y (List.mem_cons_of_mem x hy)]
    rfl

end eval

end Prog

/-! ## Rely and guarantee -/

/-- Steps in `G` keep `P`. -/
def Stable (G : σ → σ → Prop) (P : σ → Prop) : Prop := ∀ s s', P s → G s s' → P s'

theorem Stable.and {G : σ → σ → Prop} {P Q : σ → Prop} (hP : Stable G P) (hQ : Stable G Q) :
    Stable G fun s => P s ∧ Q s :=
  fun s s' h hG => ⟨hP s s' h.1 hG, hQ s s' h.2 hG⟩

/-- Started in `P` among threads that take steps in `G`, the program takes steps in `G` and
ends in `Q`. -/
def Fits (G : σ → σ → Prop) : Prog σ α → (σ → Prop) → (α → σ → Prop) → Prop
  | .ret a, P, Q => ∀ s, P s → Q a s
  | .act op k, P, Q => ∀ s, P s → G s (op s) ∧
      ∃ P', Stable G P' ∧ P' (op s) ∧ Fits G (k s) P' Q

section rules

variable {G : σ → σ → Prop} {P P' : σ → Prop} {Q Q' : α → σ → Prop}

theorem fits_ret {a : α} (h : ∀ s, P s → Q a s) : Fits G (pure a : Prog σ α) P Q := h

theorem Fits.before {p : Prog σ α} (h : Fits G p P Q) (hP : ∀ s, P' s → P s) : Fits G p P' Q := by
  cases p with
  | ret a => exact fun s hs => h s (hP s hs)
  | act op k => exact fun s hs => h s (hP s hs)

theorem Fits.after {p : Prog σ α} (h : Fits G p P Q) (hQ : ∀ a s, Q a s → Q' a s) :
    Fits G p P Q' := by
  induction p generalizing P with
  | ret a => exact fun s hs => hQ a s (h s hs)
  | act op k ih =>
    intro s hs
    obtain ⟨hG, R, hstable, hR, hk⟩ := h s hs
    exact ⟨hG, R, hstable, hR, ih s hk⟩

theorem Fits.bind {p : Prog σ α} {f : α → Prog σ β} {R : β → σ → Prop} (hp : Fits G p P Q)
    (hf : ∀ a, Fits G (f a) (Q a) R) : Fits G (p >>= f) P R := by
  induction p generalizing P with
  | ret a => exact (hf a).before hp
  | act op k ih =>
    intro s hs
    obtain ⟨hG, R', hstable, hR, hk⟩ := hp s hs
    exact ⟨hG, R', hstable, hR, ih s hk⟩

/-- What all steps keep is kept on the way. -/
theorem Fits.frame {J : σ → Prop} {p : Prog σ α} (h : Fits G p P Q) (hJ : Stable G J) :
    Fits G p (fun s => P s ∧ J s) fun a s => Q a s ∧ J s := by
  induction p generalizing P with
  | ret a => exact fun s hs => ⟨h s hs.1, hs.2⟩
  | act op k ih =>
    intro s hs
    obtain ⟨hG, R, hstable, hR, hk⟩ := h s hs.1
    exact ⟨hG, _, hstable.and hJ, ⟨hR, hJ s _ hs.2 hG⟩, ih s hk⟩

theorem fits_stmt {f : σ → α × σ} (hQ : ∀ a, Stable G (Q a))
    (h : ∀ s, P s → G s (f s).2 ∧ Q (f s).1 (f s).2) : Fits G (Prog.stmt f) P Q :=
  fun s hs => ⟨(h s hs).1, Q (f s).1, hQ _, (h s hs).2, fun _ h => h⟩

theorem fits_read {f : σ → α} (hQ : ∀ a, Stable G (Q a)) (h : ∀ s, P s → G s s ∧ Q (f s) s) :
    Fits G (Prog.read f) P Q :=
  fun s hs => ⟨(h s hs).1, Q (f s), hQ _, (h s hs).2, fun _ h => h⟩

theorem fits_write {f : σ → σ} {R : σ → Prop} (hR : Stable G R)
    (h : ∀ s, P s → G s (f s) ∧ R (f s)) : Fits G (Prog.write f) P fun _ => R :=
  fun s hs => ⟨(h s hs).1, R, hR, (h s hs).2, fun _ h => h⟩

/-- A loop that keeps `P`. -/
theorem fits_collect {l : List ρ} {body : ρ → Prog σ (Option α)}
    (h : ∀ x ∈ l, Fits G (body x) P fun _ => P) : Fits G (Prog.collect body l) P fun _ => P := by
  induction l with
  | nil => exact fun _ hs => hs
  | cons x l ih =>
    refine (h x List.mem_cons_self).bind fun head => ?_
    refine (ih fun y hy => h y (List.mem_cons_of_mem _ hy)).bind fun tail => ?_
    exact fun _ hs => hs

/-- An exception leaves what all steps keep. -/
theorem Fits.upTo {J : σ → Prop} {p : Prog σ α} (h : Fits G p P Q) (hJ : Stable G J)
    (hP : ∀ s, P s → J s) (n : Option ℕ) :
    Fits G (p.upTo n) P fun a s => J s ∧ ∀ x, a = some x → Q x s := by
  induction p generalizing P n with
  | ret a =>
    match n with
    | none | some (n + 1) =>
      intro s hs
      refine ⟨hP s hs, ?_⟩
      intro x hx
      cases hx
      exact h s hs
    | some 0 => exact fun s hs => ⟨hP s hs, by simp⟩
  | act op k ih =>
    match n with
    | some 0 => exact fun s hs => ⟨hP s hs, by simp⟩
    | none | some (n + 1) =>
      intro s hs
      obtain ⟨hG, R, hstable, hR, hk⟩ := h s hs
      refine ⟨hG, _, hstable.and hJ, ⟨hR, hJ s _ (hP s hs) hG⟩, ?_⟩
      exact ih s (hk.before fun _ h => h.1) (fun _ h => h.2) _

end rules

/-! ## Systems -/

/-- The state, and the threads that are under way. -/
structure System (σ : Type) where
  state : σ
  threads : List (Prog σ Unit) := []

/-- A job is begun, a thread takes its next statement, or a thread is lost. -/
inductive Move (ι : Type)
  | start (job : ι)
  | run (i : ℕ)
  | crash (i : ℕ)

variable {ι : Type}

namespace System

def step (prog : ι → Prog σ Unit) (y : System σ) : Move ι → System σ
  | .start job => { y with threads := y.threads ++ [prog job] }
  | .crash i => { y with threads := y.threads.eraseIdx i }
  | .run i =>
      match y.threads[i]? with
      | some (.act op k) => { state := op y.state, threads := y.threads.set i (k y.state) }
      | _ => y

def run (prog : ι → Prog σ Unit) (y : System σ) (moves : List (Move ι)) : System σ :=
  moves.foldl (step prog) y

/-- The state is in `I`, and every thread takes steps in `G`. -/
structure Sound (G : σ → σ → Prop) (I : σ → Prop) (y : System σ) : Prop where
  state : I y.state
  threads : ∀ p ∈ y.threads, ∃ P, Stable G P ∧ P y.state ∧ Fits G p P fun _ _ => True

variable {G : σ → σ → Prop} {I : σ → Prop} {prog : ι → Prog σ Unit} {y : System σ}

/-- A move takes a step in `G` or leaves the state. -/
theorem Sound.moved (h : Sound G I y) (move : Move ι) :
    (y.step prog move).state = y.state ∨ G y.state (y.step prog move).state := by
  cases move with
  | start | crash => exact .inl rfl
  | run i =>
    simp only [System.step]
    cases hi : y.threads[i]? with
    | none => exact .inl rfl
    | some p =>
      cases p with
      | ret a => exact .inl rfl
      | act op k =>
        obtain ⟨P, hstable, hP, hfits⟩ := h.threads _ (List.mem_of_getElem? hi)
        exact .inr (hfits y.state hP).1

theorem Sound.step (hI : Stable G I) (h : Sound G I y) (move : Move ι)
    (hprog : ∀ job, move = .start job → Fits G (prog job) I fun _ _ => True) :
    Sound G I (y.step prog move) := by
  cases move with
  | start job =>
    refine ⟨h.state, ?_⟩
    intro p hp
    rcases List.mem_append.mp hp with hp | hp
    · exact h.threads p hp
    · rw [List.mem_singleton] at hp
      subst hp
      exact ⟨I, hI, h.state, hprog job rfl⟩
  | crash i => exact ⟨h.state, fun p hp => h.threads p (List.mem_of_mem_eraseIdx hp)⟩
  | run i =>
    simp only [System.step]
    cases hi : y.threads[i]? with
    | none => exact h
    | some p =>
      cases p with
      | ret a => exact h
      | act op k =>
        obtain ⟨P, hstable, hP, hfits⟩ := h.threads _ (List.mem_of_getElem? hi)
        obtain ⟨hG, P', hstable', hP', hk⟩ := hfits y.state hP
        refine ⟨hI _ _ h.state hG, ?_⟩
        intro q hq
        rcases List.mem_or_eq_of_mem_set hq with hq | rfl
        · obtain ⟨R, hR, hstate, hfit⟩ := h.threads q hq
          exact ⟨R, hR, hR _ _ hstate hG, hfit⟩
        · exact ⟨P', hstable', hP', hk⟩

/-- Over a run of jobs that all take steps in `G`, the state keeps what these keep. -/
theorem Sound.run (hI : Stable G I) (moves : List (Move ι)) (h : Sound G I y)
    (hprog : ∀ job, .start job ∈ moves → Fits G (prog job) I fun _ _ => True) :
    Sound G I (y.run prog moves) ∧
      ∀ P, Stable G P → P y.state → P (y.run prog moves).state := by
  induction moves generalizing y with
  | nil => exact ⟨h, fun _ _ hy => hy⟩
  | cons move moves ih =>
    have hstep : Sound G I (y.step prog move) := by
      apply h.step hI move
      intro job hjob
      exact hprog job (hjob ▸ List.mem_cons_self)
    obtain ⟨hrun, hkeeps⟩ := ih hstep fun job hjob => hprog job (List.mem_cons_of_mem _ hjob)
    refine ⟨hrun, ?_⟩
    intro P hP hy
    apply hkeeps P hP
    have hmoved : (y.step prog move).state = y.state ∨ G y.state (y.step prog move).state :=
      h.moved move
    rcases hmoved with hsame | hG
    · rw [hsame]
      exact hy
    · exact hP _ _ hy hG

end System

end CwStation.Threads
