import Mathlib.Tactic.Common

/-! # Programs that change a state and may raise

`EStateM` keeps the state when an exception is raised, and its `try`, `except` and
`finally` treat exceptions as Python does: a `finally` block runs on either outcome, and
an exception it raises replaces the outcome. -/

namespace CwStation.Effects

universe u

variable {ε σ τ α β : Type u}

/-- The state a run ends in, whether it returns or raises. -/
def endState (x : EStateM ε σ α) (s : σ) : σ :=
  match x s with
  | .ok _ s => s
  | .error _ s => s

theorem endState_of_ok {x : EStateM ε σ α} {s s' : σ} {a : α} (h : x s = .ok a s') :
    endState x s = s' := by
  rw [endState, h]

theorem endState_of_error {x : EStateM ε σ α} {s s' : σ} {e : ε} (h : x s = .error e s') :
    endState x s = s' := by
  rw [endState, h]

/-- What a run returns or raises. -/
def outcome (x : EStateM ε σ α) (s : σ) : Except ε α :=
  match x s with
  | .ok a _ => .ok a
  | .error e _ => .error e

theorem exists_of_outcome {x : EStateM ε σ α} {s : σ} {a : α} (h : outcome x s = .ok a) :
    ∃ s', x s = .ok a s' := by
  rw [outcome] at h
  cases hx : x s with
  | ok b s' =>
    rw [hx] at h
    exact ⟨s', by rw [Except.ok.inj h]⟩
  | error e s' =>
    rw [hx] at h
    cases h

/-! ## Sequencing -/

theorem get_eq_ok (s : σ) : (EStateM.get : EStateM ε σ σ) s = .ok s s := rfl

theorem modifyGet_eq_ok (f : σ → α × σ) (s : σ) :
    (EStateM.modifyGet f : EStateM ε σ α) s = .ok (f s).1 (f s).2 := rfl

theorem bind_of_ok {x : EStateM ε σ α} {f : α → EStateM ε σ β} {s s' : σ} {a : α}
    (h : x s = .ok a s') : (x >>= f) s = f a s' := by
  simp only [bind, EStateM.bind, h]

theorem bind_of_error {x : EStateM ε σ α} {f : α → EStateM ε σ β} {s s' : σ} {e : ε}
    (h : x s = .error e s') : (x >>= f) s = .error e s' := by
  simp only [bind, EStateM.bind, h]

/-- A sequence that returns has gone through its first part. -/
theorem exists_of_bind_eq_ok {x : EStateM ε σ α} {f : α → EStateM ε σ β} {s s' : σ} {b : β}
    (h : (x >>= f) s = .ok b s') : ∃ a t, x s = .ok a t ∧ f a t = .ok b s' := by
  cases hx : x s with
  | ok a t => exact ⟨a, t, rfl, (bind_of_ok hx).symm.trans h⟩
  | error e t =>
    rw [bind_of_error hx] at h
    cases h

/-- The value a program is given to return changes nothing. -/
theorem endState_bind_pure (x : EStateM ε σ α) (b : β) (s : σ) :
    endState (x >>= fun _ => pure b) s = endState x s := by
  cases h : x s with
  | ok a s' =>
    rw [endState_of_ok h, endState, bind_of_ok h]
    rfl
  | error e s' => rw [endState_of_error h, endState_of_error (bind_of_error h)]

/-! ## `except` and `finally` -/

theorem endState_tryCatch {x : EStateM ε σ α} {handler : ε → EStateM ε σ α} (s : σ) :
    endState (tryCatch x handler) s =
      match x s with
      | .ok _ s => s
      | .error e s => endState (handler e) s := by
  cases h : x s with
  | ok a s' =>
    simp only [endState, tryCatch, tryCatchThe, MonadExceptOf.tryCatch, EStateM.tryCatch, h]
  | error e s' =>
    simp only [endState, tryCatch, tryCatchThe, MonadExceptOf.tryCatch, EStateM.tryCatch, h]
    rfl

/-- The `finally` block runs in the state the body ended in. -/
theorem endState_tryFinally (x : EStateM ε σ α) (fin : EStateM ε σ β) (s : σ) :
    endState (tryFinally x fin) s = endState fin (endState x s) := by
  simp only [endState, tryFinally, tryFinally', Functor.map, EStateM.map]
  cases x s with
  | ok a s' =>
    simp only
    cases fin s' <;> rfl
  | error e s' =>
    simp only
    cases fin s' <;> rfl

/-! ## Invariants -/

/-- A run from a state in `I` ends in `I`, whether it returns or raises. -/
def Keeps (I : σ → Prop) (x : EStateM ε σ α) : Prop := ∀ s, I s → I (endState x s)

theorem Keeps.bind {I : σ → Prop} {x : EStateM ε σ α} {f : α → EStateM ε σ β} (hx : Keeps I x)
    (hf : ∀ a, Keeps I (f a)) : Keeps I (x >>= f) := by
  intro s hs
  have hmid := hx s hs
  cases h : x s with
  | ok a s' =>
    rw [endState_of_ok h] at hmid
    rw [endState, bind_of_ok h]
    exact hf a s' hmid
  | error e s' =>
    rw [endState_of_error h] at hmid
    rw [endState_of_error (bind_of_error h)]
    exact hmid

theorem Keeps.tryFinally {I : σ → Prop} {x : EStateM ε σ α} {fin : EStateM ε σ β}
    (hx : Keeps I x) (hfin : Keeps I fin) : Keeps I (tryFinally x fin) := by
  intro s hs
  rw [endState_tryFinally]
  exact hfin _ (hx s hs)

/-! ## Pre- and postconditions -/

/-- From a state in `P` the program returns into `Q` or raises into `E`. -/
def Meets (P : σ → Prop) (x : EStateM ε σ α) (Q : α → σ → Prop) (E : σ → Prop) : Prop :=
  ∀ s, P s → match x s with
    | .ok a s' => Q a s'
    | .error _ s' => E s'

theorem Meets.bind {P : σ → Prop} {x : EStateM ε σ α} {R : α → σ → Prop} {E : σ → Prop}
    {f : α → EStateM ε σ β} {Q : β → σ → Prop} (hx : Meets P x R E)
    (hf : ∀ a, Meets (R a) (f a) Q E) : Meets P (x >>= f) Q E := by
  intro s hs
  have hrun := hx s hs
  cases h : x s with
  | ok a s' =>
    rw [h] at hrun
    rw [bind_of_ok h]
    exact hf a s' hrun
  | error e s' =>
    rw [h] at hrun
    rw [bind_of_error h]
    exact hrun

theorem Meets.weaken {P P' : σ → Prop} {x : EStateM ε σ α} {Q Q' : α → σ → Prop}
    {E E' : σ → Prop} (h : Meets P x Q E) (hP : ∀ s, P' s → P s) (hQ : ∀ a s, Q a s → Q' a s)
    (hE : ∀ s, E s → E' s) : Meets P' x Q' E' := by
  intro s hs
  have hrun := h s (hP s hs)
  cases hx : x s with
  | ok a s' =>
    rw [hx] at hrun
    exact hQ a s' hrun
  | error e s' =>
    rw [hx] at hrun
    exact hE s' hrun

/-- What every run that returns says of its value. -/
theorem Meets.value {P : σ → Prop} {x : EStateM ε σ α} {Q : α → σ → Prop} {E : σ → Prop}
    {V : α → Prop} (h : Meets P x Q E) (hV : ∀ s a s', x s = .ok a s' → V a) :
    Meets P x (fun a s => Q a s ∧ V a) E := by
  intro s hs
  have hrun := h s hs
  cases hx : x s with
  | ok a s' =>
    rw [hx] at hrun
    exact ⟨hrun, hV s a s' hx⟩
  | error e s' =>
    rw [hx] at hrun
    exact hrun

theorem meets_pure {P : σ → Prop} {Q : α → σ → Prop} {E : σ → Prop} {a : α}
    (h : ∀ s, P s → Q a s) : Meets P (pure a : EStateM ε σ α) Q E := h

theorem meets_throw {P : σ → Prop} {Q : α → σ → Prop} {E : σ → Prop} {e : ε}
    (h : ∀ s, P s → E s) : Meets P (throw e : EStateM ε σ α) Q E := h

theorem Meets.keeps {I : σ → Prop} {x : EStateM ε σ α} {Q : α → σ → Prop} (h : Meets I x Q I)
    (hQ : ∀ a s, Q a s → I s) : Keeps I x := by
  intro s hs
  have hrun := h s hs
  rw [endState]
  cases hx : x s with
  | ok a s' =>
    rw [hx] at hrun
    exact hQ a s' hrun
  | error e s' =>
    rw [hx] at hrun
    exact hrun

theorem Keeps.meets {I : σ → Prop} {x : EStateM ε σ α} (h : Keeps I x) :
    Meets I x (fun _ => I) I := by
  intro s hs
  have hend := h s hs
  rw [endState] at hend
  cases hx : x s with
  | ok a s' =>
    rw [hx] at hend
    exact hend
  | error e s' =>
    rw [hx] at hend
    exact hend

/-! ## Runs whose outcome is known -/

/-- From a state in `P` the program returns `a` into `Q`. -/
def Returns (P : σ → Prop) (x : EStateM ε σ α) (a : α) (Q : σ → Prop) : Prop :=
  ∀ s, P s → ∃ s', x s = .ok a s' ∧ Q s'

/-- From a state in `P` the program raises `e` into `Q`. -/
def Raises (P : σ → Prop) (x : EStateM ε σ α) (e : ε) (Q : σ → Prop) : Prop :=
  ∀ s, P s → ∃ s', x s = .error e s' ∧ Q s'

theorem returns_pure {P : σ → Prop} {a : α} : Returns P (pure a : EStateM ε σ α) a P :=
  fun s hs => ⟨s, rfl, hs⟩

theorem raises_throw {P : σ → Prop} {e : ε} : Raises P (throw e : EStateM ε σ α) e P :=
  fun s hs => ⟨s, rfl, hs⟩

theorem Returns.bind {P Q R : σ → Prop} {x : EStateM ε σ α} {a : α} {f : α → EStateM ε σ β} {b : β}
    (hx : Returns P x a Q) (hf : Returns Q (f a) b R) : Returns P (x >>= f) b R := by
  intro s hs
  obtain ⟨s', hrun, hs'⟩ := hx s hs
  rw [bind_of_ok hrun]
  exact hf s' hs'

theorem Returns.bind_raises {P Q R : σ → Prop} {x : EStateM ε σ α} {a : α}
    {f : α → EStateM ε σ β} {e : ε} (hx : Returns P x a Q) (hf : Raises Q (f a) e R) :
    Raises P (x >>= f) e R := by
  intro s hs
  obtain ⟨s', hrun, hs'⟩ := hx s hs
  rw [bind_of_ok hrun]
  exact hf s' hs'

theorem Raises.bind {P Q : σ → Prop} {x : EStateM ε σ α} {e : ε} (hx : Raises P x e Q)
    (f : α → EStateM ε σ β) : Raises P (x >>= f) e Q := by
  intro s hs
  obtain ⟨s', hrun, hs'⟩ := hx s hs
  exact ⟨s', bind_of_error hrun, hs'⟩

/-! ## What a program does to the state -/

/-- The program moves the state along `R` when it returns and along `E` when it raises. -/
def Moves (R E : σ → σ → Prop) (x : EStateM ε σ α) : Prop := ∀ s, match x s with
  | .ok _ s' => R s s'
  | .error _ s' => E s s'

section Moves

variable {R R₁ R₂ E E₁ E₂ : σ → σ → Prop} {x : EStateM ε σ α} {f : α → EStateM ε σ β}

theorem moves_pure (hR : ∀ s, R s s) (a : α) : Moves R E (pure a : EStateM ε σ α) := fun s => hR s

theorem moves_throw (hE : ∀ s, E s s) (e : ε) : Moves R E (throw e : EStateM ε σ α) :=
  fun s => hE s

theorem moves_get (hR : ∀ s, R s s) : Moves R E (get : EStateM ε σ σ) := fun s => hR s

theorem moves_modify {g : σ → σ} (hg : ∀ s, R s (g s)) :
    Moves R E (modify g : EStateM ε σ PUnit) := fun s => hg s

theorem Moves.bind (hx : Moves R₁ E₁ x) (hf : ∀ a, Moves R₂ E₂ (f a))
    (hR : ∀ s t u, R₁ s t → R₂ t u → R s u) (hE₁ : ∀ s t, E₁ s t → E s t)
    (hE₂ : ∀ s t u, R₁ s t → E₂ t u → E s u) : Moves R E (x >>= f) := by
  intro s
  have hfirst := hx s
  cases h : x s with
  | error e t =>
    rw [h] at hfirst
    rw [bind_of_error h]
    exact hE₁ s t hfirst
  | ok a t =>
    rw [h] at hfirst
    have hsecond := hf a t
    rw [bind_of_ok h]
    cases h' : f a t with
    | ok b u =>
      rw [h'] at hsecond
      exact hR s t u hfirst hsecond
    | error e u =>
      rw [h'] at hsecond
      exact hE₂ s t u hfirst hsecond

theorem Moves.weaken (hx : Moves R₁ E₁ x) (hR : ∀ s t, R₁ s t → R s t)
    (hE : ∀ s t, E₁ s t → E s t) : Moves R E x := by
  intro s
  have hrun := hx s
  cases h : x s with
  | ok a t =>
    rw [h] at hrun
    exact hR s t hrun
  | error e t =>
    rw [h] at hrun
    exact hE s t hrun

theorem Moves.endState (hx : Moves R R x) (s : σ) : R s (endState x s) := by
  have hrun := hx s
  cases h : x s with
  | ok a t =>
    rw [h] at hrun
    rw [endState_of_ok h]
    exact hrun
  | error e t =>
    rw [h] at hrun
    rw [endState_of_error h]
    exact hrun

end Moves

/-! ## Programs on a part of the state -/

/-- Run a program on the part of the state that `get` and `put` give access to. -/
def zoom (get : τ → σ) (put : τ → σ → τ) (x : EStateM ε σ α) : EStateM ε τ α := fun t =>
  match x (get t) with
  | .ok a s => .ok a (put t s)
  | .error e s => .error e (put t s)

theorem endState_zoom (get : τ → σ) (put : τ → σ → τ) (x : EStateM ε σ α) (t : τ) :
    endState (zoom get put x) t = put t (endState x (get t)) := by
  cases h : x (get t) <;> simp only [endState, zoom, h]

end CwStation.Effects
