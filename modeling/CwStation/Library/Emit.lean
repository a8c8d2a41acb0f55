import Mathlib.Data.List.Basic

/-! # Fallible machines that emit

A step takes a state and one input and either fails or returns the values it emits
together with its next state. `emitAll` threads such a step through a list of inputs
and concatenates what is emitted, which is how a loop `out += step(x)` behaves. -/

namespace CwStation.Emit

universe u v

variable {ε : Type u} {σ α β : Type v}

/-- Run a step over every input, concatenating the emitted lists; the first failure
is the failure of the run. -/
def emitAll (step : σ → α → Except ε (List β × σ)) :
    σ → List α → Except ε (List β × σ)
  | s, [] => .ok ([], s)
  | s, x :: xs => do
      let (out, s) ← step s x
      let (rest, s) ← emitAll step s xs
      .ok (out ++ rest, s)

variable {step : σ → α → Except ε (List β × σ)}

/-! ## Binds -/

theorem bind_eq_ok {γ δ : Type v} {x : Except ε γ} {f : γ → Except ε δ} {r : δ} :
    (x >>= f) = .ok r ↔ ∃ a, x = .ok a ∧ f a = .ok r := by
  cases x with
  | error e => simp [bind, Except.bind]
  | ok a => simp [bind, Except.bind]

theorem bind_eq_error {γ δ : Type v} {x : Except ε γ} {f : γ → Except ε δ} {e : ε} :
    (x >>= f) = .error e ↔ x = .error e ∨ ∃ a, x = .ok a ∧ f a = .error e := by
  cases x with
  | error e' => simp [bind, Except.bind]
  | ok a => simp [bind, Except.bind]

theorem exists_eq_ok {γ : Type v} {x : Except ε γ} (h : x.isOk = true) : ∃ a, x = .ok a := by
  cases x with
  | error e => cases h
  | ok a => exact ⟨a, rfl⟩

@[simp] theorem emitAll_nil (s : σ) : emitAll step s [] = .ok ([], s) := rfl

theorem emitAll_cons (s : σ) (x : α) (xs : List α) :
    emitAll step s (x :: xs) = (do
      let (out, s) ← step s x
      let (rest, s) ← emitAll step s xs
      .ok (out ++ rest, s)) := rfl

theorem emitAll_cons_eq_ok {s s' : σ} {x : α} {xs : List α} {out : List β} :
    emitAll step s (x :: xs) = .ok (out, s') ↔
      ∃ first mid rest, step s x = .ok (first, mid) ∧
        emitAll step mid xs = .ok (rest, s') ∧ out = first ++ rest := by
  simp only [emitAll_cons, bind_eq_ok, Except.ok.injEq, Prod.exists, Prod.mk.injEq]
  constructor
  · rintro ⟨first, mid, hfirst, rest, last, hrest, rfl, rfl⟩
    exact ⟨first, mid, rest, hfirst, hrest, rfl⟩
  · rintro ⟨first, mid, rest, hfirst, hrest, rfl⟩
    exact ⟨first, mid, hfirst, rest, s', hrest, rfl, rfl⟩

/-- Running over a concatenation is running over its parts in turn. -/
theorem emitAll_append (s : σ) (xs ys : List α) :
    emitAll step s (xs ++ ys) = (do
      let (out, s) ← emitAll step s xs
      let (rest, s) ← emitAll step s ys
      .ok (out ++ rest, s)) := by
  induction xs generalizing s with
  | nil =>
    simp only [List.nil_append, emitAll_nil, bind, Except.bind]
    cases emitAll step s ys <;> rfl
  | cons x xs ih =>
    simp only [List.cons_append, emitAll_cons, bind, Except.bind]
    cases step s x with
    | error e => rfl
    | ok first =>
      simp only [ih, bind, Except.bind]
      cases emitAll step first.2 xs with
      | error e => rfl
      | ok mid =>
        simp only
        cases emitAll step mid.2 ys with
        | error e => rfl
        | ok last => simp only [List.append_assoc]

/-- A change of state and output that every step commutes with commutes with every run. -/
theorem emitAll_map {f : σ → σ} {h : β → β}
    (hstep : ∀ s x, step (f s) x = (step s x).map fun r => (r.1.map h, f r.2)) (s : σ)
    (xs : List α) :
    emitAll step (f s) xs = (emitAll step s xs).map fun r => (r.1.map h, f r.2) := by
  induction xs generalizing s with
  | nil => rfl
  | cons x xs ih =>
    rw [emitAll_cons, emitAll_cons, hstep]
    cases step s x with
    | error e => rfl
    | ok first =>
      simp only [Except.map, bind, Except.bind, ih]
      cases emitAll step first.2 xs with
      | error e => rfl
      | ok rest => simp only [List.map_append]

theorem emitAll_comm {f : σ → σ}
    (hstep : ∀ s x, step (f s) x = (step s x).map fun r => (r.1, f r.2)) (s : σ) (xs : List α) :
    emitAll step (f s) xs = (emitAll step s xs).map fun r => (r.1, f r.2) := by
  have hmap := @emitAll_map _ _ _ _ step f id (by simpa using hstep) s xs
  simpa using hmap

/-! ## Rules for whole runs -/

/-- A relation that is reflexive on empty output, composes along emission, and holds of
every step taken from a state satisfying a preserved invariant holds of every run. -/
theorem emitAll_rel {P : σ → Prop} {R : σ → List β → σ → Prop}
    (hrefl : ∀ s, R s [] s)
    (htrans : ∀ s a t b r, R s a t → R t b r → R s (a ++ b) r)
    (hstep : ∀ s x out s', P s → step s x = .ok (out, s') → P s' ∧ R s out s')
    {s s' : σ} {xs : List α} {out : List β} (hs : P s)
    (h : emitAll step s xs = .ok (out, s')) : P s' ∧ R s out s' := by
  induction xs generalizing s out with
  | nil =>
    rw [emitAll_nil, Except.ok.injEq, Prod.mk.injEq] at h
    obtain ⟨rfl, rfl⟩ := h
    exact ⟨hs, hrefl s⟩
  | cons x xs ih =>
    obtain ⟨first, mid, rest, hfirst, hrest, rfl⟩ := emitAll_cons_eq_ok.mp h
    obtain ⟨hmid, hR⟩ := hstep s x first mid hs hfirst
    obtain ⟨hlast, hR'⟩ := ih hmid hrest
    exact ⟨hlast, htrans s first mid rest s' hR hR'⟩

/-- An invariant preserved by every successful step is preserved by every run. -/
theorem emitAll_invariant {P : σ → Prop}
    (hstep : ∀ s x out s', P s → step s x = .ok (out, s') → P s')
    {s s' : σ} {xs : List α} {out : List β} (hs : P s)
    (h : emitAll step s xs = .ok (out, s')) : P s' :=
  (emitAll_rel (R := fun _ _ _ => True) (fun _ => trivial) (fun _ _ _ _ _ _ _ => trivial)
    (fun s x out s' hs h => ⟨hstep s x out s' hs h, trivial⟩) hs h).1

/-- A run succeeds when every step does from a state that fits the inputs still to come;
the relation between the ends of a run composes as in `emitAll_rel`. -/
theorem emitAll_total {P : List α → σ → Prop} {R : σ → List β → σ → Prop}
    (hrefl : ∀ s, R s [] s)
    (htrans : ∀ s a t b r, R s a t → R t b r → R s (a ++ b) r)
    (hstep : ∀ s x xs, P (x :: xs) s →
      ∃ out s', step s x = .ok (out, s') ∧ P xs s' ∧ R s out s')
    {s : σ} {xs : List α} (hs : P xs s) :
    ∃ out s', emitAll step s xs = .ok (out, s') ∧ P [] s' ∧ R s out s' := by
  induction xs generalizing s with
  | nil => exact ⟨[], s, rfl, hs, hrefl s⟩
  | cons x xs ih =>
    obtain ⟨first, mid, hfirst, hmid, hR⟩ := hstep s x xs hs
    obtain ⟨rest, last, hrest, hlast, hR'⟩ := ih hmid
    exact ⟨first ++ rest, last, emitAll_cons_eq_ok.mpr ⟨first, mid, rest, hfirst, hrest, rfl⟩,
      hlast, htrans s first mid rest last hR hR'⟩

end CwStation.Emit
