import Mathlib.Data.List.Induction

/-! # Scripts: threads whose statements have names

A script performs statements on a shared store and goes on with what they answer. Any number of
scripts take turns statement by statement; the history tells who performed what. -/

namespace CwStation.Scripts

/-- A program over statements `Op`, where `op` answers an `Ans op`. -/
inductive Script (Op : Type) (Ans : Op → Type) (α : Type)
  | ret (a : α)
  | act (op : Op) (k : Ans op → Script Op Ans α)

variable {Op : Type} {Ans : Op → Type} {σ α β ρ ι : Type}

/-- A statement with its answer. -/
abbrev Event (Ans : Op → Type) : Type := (op : Op) × Ans op

namespace Script

def bind : Script Op Ans α → (α → Script Op Ans β) → Script Op Ans β
  | .ret a, f => f a
  | .act op k, f => .act op fun a => (k a).bind f

instance instMonad : Monad (Script Op Ans) where
  pure := .ret
  bind := bind

theorem bind_assoc {γ : Type} (p : Script Op Ans α) (f : α → Script Op Ans β)
    (g : β → Script Op Ans γ) : (p >>= f) >>= g = p >>= fun a => f a >>= g := by
  induction p with
  | ret a => rfl
  | act op k ih => exact congrArg (Script.act op) (funext fun a => ih a)

/-- One statement. -/
def perform (op : Op) : Script Op Ans (Ans op) := .act op .ret

/-- A loop that gathers what its rounds give. -/
def forEach (body : ρ → Script Op Ans α) : List ρ → Script Op Ans (List α)
  | [] => pure []
  | x :: l => do
      let a ← body x
      let rest ← forEach body l
      return a :: rest

/-- A script that nothing interrupts. -/
def eval (exec : (op : Op) → σ → Ans op × σ) : Script Op Ans α → σ → α × σ
  | .ret a, s => (a, s)
  | .act op k, s => (k (exec op s).1).eval exec (exec op s).2

section eval

variable {exec : (op : Op) → σ → Ans op × σ} {s : σ}

theorem eval_bind (p : Script Op Ans α) (f : α → Script Op Ans β) :
    (p >>= f).eval exec s = (f (p.eval exec s).1).eval exec (p.eval exec s).2 := by
  induction p generalizing s with
  | ret a => rfl
  | act op k ih => exact ih _

theorem eval_perform_bind (op : Op) (f : Ans op → Script Op Ans β) :
    (perform op >>= f).eval exec s = (f (exec op s).1).eval exec (exec op s).2 := rfl

end eval

/-- What the script has ended with. -/
def result : Script Op Ans α → Option α
  | .ret a => some a
  | .act _ _ => none

/-- `Q` holds of the statements that the script has taken, whatever these answer, at every point
and with the result at its end. -/
def Traces : Script Op Ans α → (List (Event Ans) → Option α → Prop) → Prop
  | .ret a, Q => Q [] (some a)
  | .act op k, Q => Q [] none ∧ ∀ a, (k a).Traces fun trace r => Q (⟨op, a⟩ :: trace) r

variable {Q R : List (Event Ans) → Option α → Prop}

theorem traces_of_forall (p : Script Op Ans α) (h : ∀ t r, Q t r) : p.Traces Q := by
  induction p generalizing Q with
  | ret a => exact h _ _
  | act op k ih => exact ⟨h _ _, fun a => ih a fun t r => h _ _⟩

theorem Traces.mono {p : Script Op Ans α} (h : p.Traces Q) (hQ : ∀ t r, Q t r → R t r) :
    p.Traces R := by
  induction p generalizing Q R with
  | ret a => exact hQ _ _ h
  | act op k ih =>
    refine ⟨hQ _ _ h.1, ?_⟩
    intro a
    exact ih a (h.2 a) fun t r => hQ _ _

theorem Traces.bind {p : Script Op Ans α} {f : α → Script Op Ans β}
    {R : List (Event Ans) → Option β → Prop} (h : p.Traces Q) (hnone : ∀ t, Q t none → R t none)
    (hf : ∀ t a, Q t (some a) → (f a).Traces fun t' r => R (t ++ t') r) : (p >>= f).Traces R := by
  induction p generalizing Q R with
  | ret a => exact hf [] a h
  | act op k ih =>
    refine ⟨hnone _ h.1, ?_⟩
    intro a
    exact ih a (h.2 a) (fun t => hnone _) fun t b => hf _ b

/-- A statement at the head of a script. -/
theorem traces_perform_bind {op : Op} {f : Ans op → Script Op Ans β}
    {R : List (Event Ans) → Option β → Prop} (hnone : R [] none)
    (hf : ∀ a, (f a).Traces fun t r => R (⟨op, a⟩ :: t) r) : (perform op >>= f).Traces R :=
  ⟨hnone, hf⟩

theorem Traces.at_result {p : Script Op Ans α} (h : p.Traces Q) : Q [] p.result := by
  cases p with
  | ret a => exact h
  | act op k => exact h.1

/-! ### Accounts -/

section accounts

variable {κ : Type} [DecidableEq κ]

/-- The books of a script: which of its events open an account, which settle one, and which it may
perform before it settles. -/
structure Books (Ans : Op → Type) (κ : Type) where
  opens : Event Ans → Option κ
  settles : Event Ans → Option κ
  waits : Event Ans → Bool

/-- No account of a trace is settled more often than it is opened, and an account that is opened
is settled before the trace ends or goes on to anything but waiting. -/
structure Books.Settled (B : Books Ans κ) (t : List (Event Ans)) (ended : Bool) : Prop where
  le : ∀ k, (t.countP fun e => B.settles e = some k) ≤ t.countP fun e => B.opens e = some k
  settled : ∀ a e b k, t = a ++ e :: b → B.opens e = some k →
    ended = true ∨ (∃ x ∈ b, B.waits x = false) → ∃ x ∈ b, B.settles x = some k

variable {B : Books Ans κ} {x w : Event Ans} {t : List (Event Ans)} {ended : Bool}

namespace Books.Settled

theorem nil (ended : Bool) : B.Settled [] ended := by
  refine ⟨fun _ => Nat.le_refl 0, ?_⟩
  intro a e b k h
  simp at h

theorem append {t' : List (Event Ans)} (h : B.Settled t true) (h' : B.Settled t' ended) :
    B.Settled (t ++ t') ended := by
  refine ⟨?_, ?_⟩
  · intro k
    rw [List.countP_append, List.countP_append]
    exact Nat.add_le_add (h.le k) (h'.le k)
  · intro a e b k hsplit hopens hgone
    rcases List.append_eq_append_iff.mp hsplit with ⟨c, rfl, rfl⟩ | ⟨c, rfl, hc⟩
    · exact h'.settled c e b k rfl hopens hgone
    · cases c with
      | nil => exact h'.settled [] e b k hc.symm hopens hgone
      | cons e' c =>
        obtain ⟨rfl, rfl⟩ := List.cons.inj hc
        obtain ⟨x, hx, hsettles⟩ := h.settled a e c k rfl hopens (.inl rfl)
        exact ⟨x, List.mem_append_left t' hx, hsettles⟩

/-- An event that no account knows. -/
theorem cons_quiet (hopens : B.opens x = none) (hsettles : B.settles x = none)
    (h : B.Settled t ended) : B.Settled (x :: t) ended := by
  refine ⟨?_, ?_⟩
  · intro k
    simpa [List.countP_cons, hopens, hsettles] using h.le k
  · intro a e b k hsplit hopened hgone
    cases a with
    | nil =>
      obtain ⟨rfl, -⟩ := List.cons.inj hsplit
      rw [hopens] at hopened
      cases hopened
    | cons e' a => exact h.settled a e b k (List.cons.inj hsplit).2 hopened hgone

/-- An account that is open stays so while the script waits. -/
theorem cons_waits (hwaits : B.waits x = true) (hopens : B.opens x = none)
    (hsettles : B.settles x = none) (h : B.Settled (w :: t) ended) :
    B.Settled (w :: x :: t) ended := by
  refine ⟨?_, ?_⟩
  · intro k
    simpa [List.countP_cons, hopens, hsettles] using h.le k
  · intro a e b k hsplit hopened hgone
    rcases a with - | ⟨e', - | ⟨e'', a⟩⟩
    · obtain ⟨rfl, rfl⟩ := List.cons.inj hsplit
      obtain ⟨y, hy, hk⟩ := h.settled [] w t k rfl hopened
        (hgone.imp_right fun ⟨y, hy, hnot⟩ => by
          rcases List.mem_cons.mp hy with rfl | hy
          · rw [hwaits] at hnot
            cases hnot
          · exact ⟨y, hy, hnot⟩)
      exact ⟨y, List.mem_cons_of_mem x hy, hk⟩
    · obtain ⟨rfl, -⟩ := List.cons.inj (List.cons.inj hsplit).2
      rw [hopens] at hopened
      cases hopened
    · have htail : t = a ++ e :: b := (List.cons.inj (List.cons.inj hsplit).2).2
      exact h.settled (w :: a) e b k (congrArg (w :: ·) htail) hopened hgone

/-- The event that settles what is open. -/
theorem cons_settles {k : κ} (hw : B.opens w = some k) (hnone : B.settles w = none)
    (hopens : B.opens x = none) (hsettles : B.settles x = some k) (h : B.Settled t ended) :
    B.Settled (w :: x :: t) ended := by
  refine ⟨?_, ?_⟩
  · intro k'
    have hle := h.le k'
    simp only [List.countP_cons, hw, hnone, hopens, hsettles, reduceCtorEq, decide_false,
      Bool.false_eq_true, if_false, Nat.add_zero]
    omega
  · intro a e b k' hsplit hopened hgone
    rcases a with - | ⟨e', - | ⟨e'', a⟩⟩
    · obtain ⟨rfl, rfl⟩ := List.cons.inj hsplit
      obtain rfl : k = k' := Option.some.inj (hw.symm.trans hopened)
      exact ⟨x, List.mem_cons_self, hsettles⟩
    · obtain ⟨rfl, -⟩ := List.cons.inj (List.cons.inj hsplit).2
      rw [hopens] at hopened
      cases hopened
    · exact h.settled a e b k' (List.cons.inj (List.cons.inj hsplit).2).2 hopened hgone

/-- An account is open as long as the script only waits. -/
theorem singleton (hsettles : B.settles w = none) : B.Settled [w] false := by
  refine ⟨?_, ?_⟩
  · intro k
    simp [hsettles]
  · intro a e b k hsplit _ hgone
    rcases a with - | ⟨e', a⟩
    · obtain ⟨-, rfl⟩ := List.cons.inj hsplit
      simp at hgone
    · simp at hsplit

end Books.Settled

/-- Behind the events `before`, the script settles what it opens, as long as its events are in
`E`. -/
def Settles (B : Books Ans κ) (E : Event Ans → Prop) (before : List (Event Ans))
    (p : Script Op Ans α) : Prop :=
  p.Traces fun t r => (∀ e ∈ before ++ t, E e) → B.Settled (before ++ t) r.isSome

variable {E : Event Ans → Prop} {before : List (Event Ans)}

theorem settles_ret (a : α) : Settles B E [] (pure a : Script Op Ans α) := fun _ => .nil true

theorem Settles.bind {p : Script Op Ans α} {f : α → Script Op Ans β} (hp : Settles B E before p)
    (hf : ∀ a, Settles B E [] (f a)) : Settles B E before (p >>= f) := by
  refine Traces.bind hp (fun t h => h) fun t a h => ?_
  refine (hf a).mono fun t' r h' hE => ?_
  rw [← List.append_assoc] at hE ⊢
  exact (h fun e he => hE e (List.mem_append_left t' he)).append
    (h' fun e he => hE e (List.mem_append_right _ he))

/-- A statement, and what follows upon its answer. -/
theorem settles_perform {op : Op} {f : Ans op → Script Op Ans β}
    (hbefore : (∀ e ∈ before, E e) → B.Settled before false)
    (hf : ∀ a, Settles B E (before ++ [⟨op, a⟩]) (f a)) : Settles B E before (perform op >>= f) := by
  refine traces_perform_bind ?_ fun a => ?_
  · intro hE
    rw [List.append_nil] at hE ⊢
    exact hbefore hE
  · refine (hf a).mono fun t r h => ?_
    rw [List.append_assoc] at h
    exact h

theorem Settles.quiet {p : Script Op Ans α} (h : Settles B E [] p) (hopens : B.opens x = none)
    (hsettles : B.settles x = none) : Settles B E [x] p :=
  Traces.mono h fun _ _ h hE => (h fun e he => hE e (List.mem_cons_of_mem x he)).cons_quiet hopens hsettles

theorem Settles.waits {p : Script Op Ans α} (h : Settles B E [w] p) (hwaits : B.waits x = true)
    (hopens : B.opens x = none) (hsettles : B.settles x = none) : Settles B E [w, x] p := by
  refine Traces.mono h fun t r h hE => (h ?_).cons_waits hwaits hopens hsettles
  intro e he
  rcases List.mem_cons.mp he with rfl | he
  · exact hE e List.mem_cons_self
  · exact hE e (List.mem_cons_of_mem w (List.mem_cons_of_mem x he))

theorem Settles.settle {p : Script Op Ans α} {k : κ} (h : Settles B E [] p)
    (hw : B.opens w = some k) (hnone : B.settles w = none) (hopens : B.opens x = none)
    (hsettles : B.settles x = some k) : Settles B E [w, x] p :=
  Traces.mono h fun _ _ h hE =>
    (h fun e he => hE e (List.mem_cons_of_mem w (List.mem_cons_of_mem x he))).cons_settles
      hw hnone hopens hsettles

/-- Where an event before is not in `E`, nothing is left to show. -/
theorem settles_of_imp {p : Script Op Ans α} (h : (∀ e ∈ before, E e) → Settles B E before p) :
    Settles B E before p := by
  by_cases hE : ∀ e ∈ before, E e
  · exact h hE
  · exact traces_of_forall p fun t r hall => absurd (fun e he => hall e (List.mem_append_left t he)) hE

/-! ### What is spent has been earned -/

section covers

variable {opens spends : Event Ans → Option κ}

/-- No account is charged more often than it is opened. -/
def Covered (opens spends : Event Ans → Option κ) (t : List (Event Ans)) : Prop :=
  ∀ k, (t.countP fun e => spends e = some k) ≤ t.countP fun e => opens e = some k

/-- Behind the events `before`, the script charges no account more often than it is opened. -/
def Covers (opens spends : Event Ans → Option κ) (before : List (Event Ans)) (p : Script Op Ans α) :
    Prop := p.Traces fun t _ => Covered opens spends (before ++ t)

theorem Covered.append {t t' : List (Event Ans)} (h : Covered opens spends t)
    (h' : Covered opens spends t') : Covered opens spends (t ++ t') := by
  intro k
  rw [List.countP_append, List.countP_append]
  exact Nat.add_le_add (h k) (h' k)

theorem covered_nil : Covered opens spends ([] : List (Event Ans)) := fun _ => Nat.le_refl 0

theorem covers_ret (a : α) : Covers opens spends [] (pure a : Script Op Ans α) := covered_nil

theorem Covers.bind {p : Script Op Ans α} {f : α → Script Op Ans β}
    (hp : Covers opens spends before p) (hf : ∀ a, Covers opens spends [] (f a)) :
    Covers opens spends before (p >>= f) := by
  refine Traces.bind hp (fun t h => h) fun t a h => (hf a).mono fun t' r h' => ?_
  rw [← List.append_assoc]
  exact h.append h'

theorem covers_perform {op : Op} {f : Ans op → Script Op Ans β}
    (hbefore : Covered opens spends before)
    (hf : ∀ a, Covers opens spends (before ++ [⟨op, a⟩]) (f a)) :
    Covers opens spends before (perform op >>= f) := by
  refine traces_perform_bind ?_ fun a => (hf a).mono fun t r h => ?_
  · rw [List.append_nil]
    exact hbefore
  · rw [List.append_assoc] at h
    exact h

/-- What is even may be forgotten. -/
theorem Covers.behind {p : Script Op Ans α} (h : Covers opens spends [] p)
    (hbefore : Covered opens spends before) : Covers opens spends before p :=
  Traces.mono h fun _ _ h => hbefore.append h

/-- What no account knows may be forgotten. -/
theorem Covers.quiet {p : Script Op Ans α} (h : Covers opens spends before p)
    (hopens : opens x = none) (hspends : spends x = none) :
    Covers opens spends (before ++ [x]) p := by
  refine Traces.mono h fun t _ h k => ?_
  simpa [List.countP_append, List.countP_cons, hopens, hspends] using h k

end covers

end accounts

end Script

open Script

/-! ## Rely and guarantee

`Γ s op` is what every thread promises of a statement `op` that it performs on the store `s`. -/

section rules

variable (exec : (op : Op) → σ → Ans op × σ) (Γ : σ → Op → Prop)

/-- Statements in `Γ` keep `P`. -/
def Stable (P : σ → Prop) : Prop := ∀ s op, P s → Γ s op → P (exec op s).2

/-- Started in `P` among threads that keep to `Γ`, the script keeps to `Γ` and ends in `Q`. -/
def Fits : Script Op Ans α → (σ → Prop) → (α → σ → Prop) → Prop
  | .ret a, P, Q => ∀ s, P s → Q a s
  | .act op k, P, Q => ∀ s, P s → Γ s op ∧
      ∃ P', Stable exec Γ P' ∧ P' (exec op s).2 ∧ Fits (k (exec op s).1) P' Q

variable {exec Γ} {P P' : σ → Prop} {Q Q' : α → σ → Prop}

theorem Stable.and (hP : Stable exec Γ P) (hP' : Stable exec Γ P') :
    Stable exec Γ fun s => P s ∧ P' s :=
  fun s op h hΓ => ⟨hP s op h.1 hΓ, hP' s op h.2 hΓ⟩

theorem stable_const (p : Prop) : Stable exec Γ fun _ => p := fun _ _ h _ => h

theorem fits_ret {a : α} (h : ∀ s, P s → Q a s) :
    Fits exec Γ (pure a : Script Op Ans α) P Q := h

theorem Fits.before {p : Script Op Ans α} (h : Fits exec Γ p P Q) (hP : ∀ s, P' s → P s) :
    Fits exec Γ p P' Q := by
  cases p with
  | ret a => exact fun s hs => h s (hP s hs)
  | act op k => exact fun s hs => h s (hP s hs)

/-- What is known of an answer for good may be assumed. -/
theorem fits_assume {p : Script Op Ans α} {fact : Prop} (h : fact → Fits exec Γ p P Q) :
    Fits exec Γ p (fun s => P s ∧ fact) Q := by
  cases p with
  | ret a => exact fun s hs => h hs.2 s hs.1
  | act op k => exact fun s hs => h hs.2 s hs.1

theorem Fits.bind {p : Script Op Ans α} {f : α → Script Op Ans β} {R : β → σ → Prop}
    (hp : Fits exec Γ p P Q) (hf : ∀ a, Fits exec Γ (f a) (Q a) R) : Fits exec Γ (p >>= f) P R := by
  induction p generalizing P with
  | ret a => exact (hf a).before hp
  | act op k ih =>
    intro s hs
    obtain ⟨hΓ, R', hstable, hR, hk⟩ := hp s hs
    exact ⟨hΓ, R', hstable, hR, ih _ hk⟩

theorem fits_perform {op : Op} {Q : Ans op → σ → Prop} (hQ : ∀ a, Stable exec Γ (Q a))
    (h : ∀ s, P s → Γ s op ∧ Q (exec op s).1 (exec op s).2) :
    Fits exec Γ (perform op : Script Op Ans (Ans op)) P Q :=
  fun s hs => ⟨(h s hs).1, Q _, hQ _, (h s hs).2, fun _ h => h⟩

/-- As `Fits`, where what is known between two statements is in `G`. -/
def FitsIn (exec : (op : Op) → σ → Ans op × σ) (Γ : σ → Op → Prop) (G : (σ → Prop) → Prop) :
    Script Op Ans α → (σ → Prop) → (α → σ → Prop) → Prop
  | .ret a, P, Q => ∀ s, P s → Q a s
  | .act op k, P, Q => ∀ s, P s → Γ s op ∧
      ∃ P', G P' ∧ P' (exec op s).2 ∧ FitsIn exec Γ G (k (exec op s).1) P' Q

section kinds

variable {G : (σ → Prop) → Prop}

theorem FitsIn.before {p : Script Op Ans α} (h : FitsIn exec Γ G p P Q) (hP : ∀ s, P' s → P s) :
    FitsIn exec Γ G p P' Q := by
  cases p with
  | ret a => exact fun s hs => h s (hP s hs)
  | act op k => exact fun s hs => h s (hP s hs)

theorem FitsIn.bind {p : Script Op Ans α} {f : α → Script Op Ans β} {R : β → σ → Prop}
    (hp : FitsIn exec Γ G p P Q) (hf : ∀ a, FitsIn exec Γ G (f a) (Q a) R) :
    FitsIn exec Γ G (p >>= f) P R := by
  induction p generalizing P with
  | ret a => exact (hf a).before hp
  | act op k ih =>
    intro s hs
    obtain ⟨hΓ, R', hkind, hR, hk⟩ := hp s hs
    exact ⟨hΓ, R', hkind, hR, ih _ hk⟩

theorem fitsIn_perform {op : Op} {Q : Ans op → σ → Prop} (hQ : ∀ a, G (Q a))
    (h : ∀ s, P s → Γ s op ∧ Q (exec op s).1 (exec op s).2) :
    FitsIn exec Γ G (perform op : Script Op Ans (Ans op)) P Q :=
  fun s hs => ⟨(h s hs).1, Q _, hQ _, (h s hs).2, fun _ h => h⟩

/-- The script among threads that keep what is in `G`. -/
theorem FitsIn.fits {p : Script Op Ans α} (h : FitsIn exec Γ G p P Q)
    (hG : ∀ P, G P → Stable exec Γ P) : Fits exec Γ p P Q := by
  induction p generalizing P with
  | ret a => exact h
  | act op k ih =>
    intro s hs
    obtain ⟨hΓ, P', hkind, hP', hk⟩ := h s hs
    exact ⟨hΓ, P', hG P' hkind, hP', ih _ hk⟩

end kinds

end rules

/-! ## More statements -/

section more

variable {More : Type} {AnsMore : More → Type}

/-- A script that has more statements beside its own. -/
def Script.embed (More : Type) (AnsMore : More → Type) :
    Script Op Ans α → Script (Op ⊕ More) (Sum.elim Ans AnsMore) α
  | .ret a => .ret a
  | .act op k => .act (.inl op) fun a => (k a).embed More AnsMore

/-- An embedded script performs no other statement than its own. -/
theorem traces_embed (p : Script Op Ans α) :
    (p.embed More AnsMore).Traces fun t _ => ∀ e ∈ t, ∃ op a, e = ⟨.inl op, a⟩ := by
  induction p with
  | ret a => exact fun e he => by cases he
  | act op k ih =>
    refine ⟨fun e he => (by cases he), fun a => (ih a).mono fun t r h e he => ?_⟩
    rcases List.mem_cons.mp he with rfl | he
    · exact ⟨op, a, rfl⟩
    · exact h e he

/-- The statements of both kinds. -/
def both (exec : (op : Op) → σ → Ans op × σ) (execMore : (op : More) → σ → AnsMore op × σ) :
    (op : Op ⊕ More) → σ → Sum.elim Ans AnsMore op × σ
  | .inl op, s => exec op s
  | .inr op, s => execMore op s

/-- What the threads promise of their statements, where they promise nothing of the others. -/
def Beside (Γ : σ → Op → Prop) (s : σ) : Op ⊕ More → Prop
  | .inl op => Γ s op
  | .inr _ => True

/-- A script fits among more statements if these keep what is in `G`, too. -/
theorem FitsIn.embed {exec : (op : Op) → σ → Ans op × σ} {Γ : σ → Op → Prop} {G : (σ → Prop) → Prop}
    {execMore : (op : More) → σ → AnsMore op × σ} {p : Script Op Ans α} {P : σ → Prop}
    {Q : α → σ → Prop} (h : FitsIn exec Γ G p P Q)
    (hG : ∀ P, G P → Stable (both exec execMore) (Beside Γ) P) :
    Fits (both exec execMore) (Beside Γ) (p.embed More AnsMore) P Q := by
  induction p generalizing P with
  | ret a => exact h
  | act op k ih =>
    intro s hs
    obtain ⟨hΓ, P', hkind, hP', hk⟩ := h s hs
    exact ⟨hΓ, P', hG P' hkind, hP', ih _ hk⟩

end more

/-! ## Sessions -/

/-- A thread: its job and what is left of its script. One that dies takes no further turn. -/
structure Thread (Op : Type) (Ans : Op → Type) (ι α : Type) where
  job : ι
  rest : Script Op Ans α

/-- The store, the threads begun so far and what they have performed, oldest first. -/
structure Session (Op : Type) (Ans : Op → Type) (σ ι α : Type) where
  store : σ
  threads : List (Thread Op Ans ι α) := []
  history : List (ℕ × Event Ans) := []

/-- A job is begun, or a thread takes its turn. -/
inductive Move (ι : Type)
  | start (job : ι)
  | turn (i : ℕ)

namespace Session

/-- What one thread has performed. -/
def trace (y : Session Op Ans σ ι α) (i : ℕ) : List (Event Ans) :=
  (y.history.filter fun e => e.1 = i).map (·.2)

/-- The statement that a move performs. -/
def next (y : Session Op Ans σ ι α) : Move ι → Option Op
  | .start _ => none
  | .turn i =>
      match y.threads[i]? with
      | some ⟨_, .act op _⟩ => some op
      | _ => none

variable (exec : (op : Op) → σ → Ans op × σ) (prog : ι → Script Op Ans α)

def step (y : Session Op Ans σ ι α) : Move ι → Session Op Ans σ ι α
  | .start job => { y with threads := y.threads ++ [⟨job, prog job⟩] }
  | .turn i =>
      match y.threads[i]? with
      | some ⟨job, .act op k⟩ => {
          store := (exec op y.store).2
          threads := y.threads.set i ⟨job, k (exec op y.store).1⟩
          history := y.history ++ [(i, ⟨op, (exec op y.store).1⟩)] }
      | _ => y

def run (y : Session Op Ans σ ι α) (moves : List (Move ι)) : Session Op Ans σ ι α :=
  moves.foldl (step exec prog) y

/-- Every statement of a run is performed where `ok` allows it, behind this history and on this
store. -/
def Meets (ok : List (ℕ × Event Ans) → σ → Op → Prop) :
    Session Op Ans σ ι α → List (Move ι) → Prop
  | _, [] => True
  | y, move :: moves => (∀ op ∈ y.next move, ok y.history y.store op) ∧
      Meets ok (y.step exec prog move) moves

instance decidableMeets (ok : List (ℕ × Event Ans) → σ → Op → Prop)
    [∀ history s op, Decidable (ok history s op)] :
    ∀ (y : Session Op Ans σ ι α) moves, Decidable (Meets exec prog ok y moves)
  | _, [] => .isTrue trivial
  | y, move :: moves =>
      have := decidableMeets ok (y.step exec prog move) moves
      inferInstanceAs (Decidable (_ ∧ _))

variable {exec prog} {y : Session Op Ans σ ι α} {ok : List (ℕ × Event Ans) → σ → Op → Prop}

theorem run_append (moves more : List (Move ι)) :
    y.run exec prog (moves ++ more) = (y.run exec prog moves).run exec prog more :=
  List.foldl_append

theorem meets_append {moves more : List (Move ι)} :
    Meets exec prog ok y (moves ++ more) ↔
      Meets exec prog ok y moves ∧ Meets exec prog ok (y.run exec prog moves) more := by
  induction moves generalizing y with
  | nil => simp [Meets, run]
  | cons move moves ih =>
    simp only [List.cons_append, Meets, ih, and_assoc]
    rfl

theorem meets_true (moves : List (Move ι)) : Meets exec prog (fun _ _ _ => True) y moves := by
  induction moves generalizing y with
  | nil => trivial
  | cons move moves ih => exact ⟨fun _ _ => trivial, ih⟩

/-- A move begins a thread, performs a statement, or changes nothing. -/
theorem step_cases (exec : (op : Op) → σ → Ans op × σ) (prog : ι → Script Op Ans α)
    (y : Session Op Ans σ ι α) (move : Move ι) :
    (∃ job, move = .start job ∧
      y.step exec prog move = { y with threads := y.threads ++ [⟨job, prog job⟩] }) ∨
    (∃ i job op k, move = .turn i ∧ y.threads[i]? = some ⟨job, .act op k⟩ ∧
      y.next move = some op ∧
      y.step exec prog move = {
        store := (exec op y.store).2
        threads := y.threads.set i ⟨job, k (exec op y.store).1⟩
        history := y.history ++ [(i, ⟨op, (exec op y.store).1⟩)] }) ∨
    y.step exec prog move = y := by
  cases move with
  | start job => exact .inl ⟨job, rfl, rfl⟩
  | turn i =>
    cases hi : y.threads[i]? with
    | none => exact .inr (.inr (by simp only [step, hi]))
    | some thread =>
      obtain ⟨job, rest⟩ := thread
      cases rest with
      | ret a => exact .inr (.inr (by simp only [step, hi]))
      | act op k =>
        refine .inr (.inl ⟨i, job, op, k, rfl, hi, ?_, ?_⟩)
        · simp only [next, hi]
        · simp only [step, hi]

theorem history_of_next (exec : (op : Op) → σ → Ans op × σ) (prog : ι → Script Op Ans α)
    {move : Move ι} {op : Op} (hop : y.next move = some op) :
    ∃ i, (y.step exec prog move).history = y.history ++ [(i, ⟨op, (exec op y.store).1⟩)] := by
  cases move with
  | start job => cases hop
  | turn i =>
    refine ⟨i, ?_⟩
    cases hi : y.threads[i]? with
    | none => simp [next, hi] at hop
    | some thread =>
      obtain ⟨job, rest⟩ := thread
      cases rest with
      | ret a => simp [next, hi] at hop
      | act op' k =>
        simp only [next, hi, Option.some.injEq] at hop
        subst hop
        simp only [step, hi]

theorem store_of_next (exec : (op : Op) → σ → Ans op × σ) (prog : ι → Script Op Ans α)
    {move : Move ι} {op : Op} (hop : y.next move = some op) :
    (y.step exec prog move).store = (exec op y.store).2 := by
  rcases step_cases exec prog y move with ⟨job, rfl, -⟩ | ⟨i, job, op', k, -, -, hnext, heq⟩ | heq
  · cases hop
  · obtain rfl : op' = op := Option.some.inj (hnext.symm.trans hop)
    rw [heq]
  · obtain ⟨i, hi⟩ := history_of_next exec prog hop
    rw [heq] at hi
    simp at hi

/-- A condition on every statement is one on every statement behind a prefix. -/
theorem meets_iff_forall {moves : List (Move ι)} : Meets exec prog ok y moves ↔
    ∀ a move b, moves = a ++ move :: b → ∀ op ∈ (y.run exec prog a).next move,
      ok (y.run exec prog a).history (y.run exec prog a).store op := by
  induction moves generalizing y with
  | nil => simp [Meets]
  | cons first moves ih =>
    rw [Meets, ih]
    constructor
    · rintro ⟨hfirst, hrest⟩ a move b hsplit
      cases a with
      | nil =>
        obtain ⟨rfl, -⟩ := List.cons.inj hsplit
        exact hfirst
      | cons x a =>
        obtain ⟨rfl, htail⟩ := List.cons.inj hsplit
        exact hrest a move b htail
    · intro h
      exact ⟨h [] first moves rfl, fun a move b hsplit => h (first :: a) move b (by rw [hsplit]; rfl)⟩

/-! ### What a thread has performed -/

/-- The threads of a session are as far as their traces tell. -/
structure Traced (prog : ι → Script Op Ans α) (y : Session Op Ans σ ι α) : Prop where
  numbers : ∀ e ∈ y.history, e.1 < y.threads.length
  traces : ∀ i (thread : Thread Op Ans ι α), y.threads[i]? = some thread →
    ∀ Q, (prog thread.job).Traces Q → thread.rest.Traces fun t r => Q (y.trace i ++ t) r

theorem trace_append (i j : ℕ) (e : Event Ans) (y : Session Op Ans σ ι α) (s : σ)
    (threads : List (Thread Op Ans ι α)) :
    Session.trace { store := s, threads, history := y.history ++ [(i, e)] } j =
      y.trace j ++ if i = j then [e] else [] := by
  by_cases h : i = j <;> simp [Session.trace, h]

theorem Traced.step (exec : (op : Op) → σ → Ans op × σ) (h : Traced prog y) (move : Move ι) :
    Traced prog (y.step exec prog move) := by
  rcases step_cases exec prog y move with
    ⟨job, -, heq⟩ | ⟨i, job, op, k, -, hi, -, heq⟩ | heq
  · rw [heq]
    refine ⟨?_, ?_⟩
    · intro e he
      have := h.numbers e he
      simp only [List.length_append, List.length_singleton]
      omega
    · intro j thread hj Q hQ
      by_cases hlt : j < y.threads.length
      · rw [List.getElem?_append_left hlt] at hj
        exact h.traces j thread hj Q hQ
      · rw [List.getElem?_append_right (by omega), List.getElem?_singleton] at hj
        split at hj
        · cases hj
          have hnew : y.trace j = [] := by
            rw [Session.trace, List.filter_eq_nil_iff.mpr, List.map_nil]
            intro e he hej
            have := h.numbers e he
            simp only [decide_eq_true_eq] at hej
            omega
          show (prog job).Traces fun t r => Q (y.trace j ++ t) r
          simp only [hnew, List.nil_append]
          exact hQ
        · cases hj
  · rw [heq]
    have hlt : i < y.threads.length := (List.getElem?_eq_some_iff.mp hi).1
    refine ⟨?_, ?_⟩
    · intro e he
      simp only [List.length_set]
      rcases List.mem_append.mp he with he | he
      · exact h.numbers e he
      · rw [List.mem_singleton] at he
        subst he
        exact hlt
    · intro j thread hj Q hQ
      rw [trace_append]
      by_cases hij : i = j
      · subst hij
        simp only [List.getElem?_set_self hlt, Option.some.injEq] at hj
        subst hj
        have hrest := (h.traces i _ hi Q hQ).2 (exec op y.store).1
        simpa using hrest
      · simp only [List.getElem?_set_ne hij] at hj
        simpa [hij] using h.traces j thread hj Q hQ
  · rw [heq]
    exact h

theorem Traced.run (exec : (op : Op) → σ → Ans op × σ) (h : Traced prog y) (moves : List (Move ι)) :
    Traced prog (y.run exec prog moves) := by
  induction moves generalizing y with
  | nil => exact h
  | cons move moves ih => exact ih (h.step exec move)

theorem traced_start (prog : ι → Script Op Ans α) (s : σ) :
    Traced prog ({ store := s } : Session Op Ans σ ι α) := by
  refine ⟨?_, ?_⟩ <;> simp

/-- Who is no thread has performed nothing. -/
theorem trace_of_none (s : σ) (moves : List (Move ι)) {i : ℕ}
    (hi : (run exec prog { store := s } moves).threads[i]? = none) :
    (run exec prog { store := s } moves).trace i = [] := by
  have hnumbers := ((traced_start prog s).run exec moves).numbers
  rw [Session.trace, List.filter_eq_nil_iff.mpr, List.map_nil]
  intro e he hei
  have := hnumbers e he
  rw [List.getElem?_eq_none_iff] at hi
  simp only [decide_eq_true_eq] at hei
  omega

/-- What a script's traces have in common holds of every thread that runs it. -/
theorem traced (s : σ) (moves : List (Move ι)) {i : ℕ} {thread : Thread Op Ans ι α}
    (hi : (run exec prog { store := s } moves).threads[i]? = some thread)
    {Q : List (Event Ans) → Option α → Prop} (hQ : (prog thread.job).Traces Q) :
    Q ((run exec prog { store := s } moves).trace i) thread.rest.result := by
  have htraces := ((traced_start prog s).run exec moves).traces i thread hi Q hQ
  simpa using htraces.at_result

section counting

variable {P : Event Ans → Bool} {i : ℕ}

/-- Two threads share out what the history counts. -/
theorem trace_countP_add_le {j : ℕ} (y : Session Op Ans σ ι α) (P : Event Ans → Bool) (hij : i ≠ j) :
    (y.trace i).countP P + (y.trace j).countP P ≤ y.history.countP fun e => P e.2 := by
  unfold trace
  induction y.history with
  | nil => exact Nat.le_refl 0
  | cons e history ih =>
    simp only [List.filter_cons, List.countP_cons]
    by_cases hi : e.1 = i
    · have hj : e.1 ≠ j := fun hj => hij (hi.symm.trans hj)
      simp only [hi, hij, decide_true, decide_false, if_true, Bool.false_eq_true, if_false,
        List.map_cons, List.countP_cons]
      omega
    · by_cases hj : e.1 = j
      · simp only [hj, hij.symm, decide_true, decide_false, if_true, Bool.false_eq_true, if_false,
          List.map_cons, List.countP_cons]
        omega
      · simp only [hi, hj, decide_false, Bool.false_eq_true, if_false]
        omega

theorem trace_countP_le (y : Session Op Ans σ ι α) (P : Event Ans → Bool) (i : ℕ) :
    (y.trace i).countP P ≤ y.history.countP fun e => P e.2 := by
  have := trace_countP_add_le y P (Nat.ne_of_lt (Nat.lt_succ_self i))
  omega

/-- What only one thread has performed. -/
theorem countP_history_of_only (h : ∀ j, j ≠ i → (y.trace j).countP P = 0) :
    (y.history.countP fun e => P e.2) = (y.trace i).countP P := by
  rw [trace, List.countP_map, List.countP_filter]
  apply List.countP_congr
  intro e he
  simp only [Function.comp_apply, Bool.and_eq_true, decide_eq_true_eq, iff_self_and]
  intro hP
  by_contra hne
  have hmem : e.2 ∈ y.trace e.1 :=
    List.mem_map_of_mem (List.mem_filter.mpr ⟨he, decide_eq_true rfl⟩)
  have hnone := List.countP_eq_zero.mp (h e.1 hne) e.2 hmem
  exact hnone hP

/-- An account that is opened once, and settled by its thread, is settled once. -/
theorem countP_settles_eq_one {κ : Type} [DecidableEq κ] {B : Script.Books Ans κ} {k : κ}
    {before after : List (Event Ans)} {w x : Event Ans}
    (hle : ∀ j, ((y.trace j).countP fun e => B.settles e = some k) ≤
      (y.trace j).countP fun e => B.opens e = some k)
    (honce : (y.history.countP fun e => B.opens e.2 = some k) ≤ 1)
    (htrace : y.trace i = before ++ w :: after) (hw : B.opens w = some k) (hx : x ∈ after)
    (hsettles : B.settles x = some k) :
    (y.history.countP fun e => B.settles e.2 = some k) = 1 := by
  have hopened : 1 ≤ (y.trace i).countP fun e => B.opens e = some k := by
    rw [Nat.one_le_iff_ne_zero, ← Nat.pos_iff_ne_zero, List.countP_pos_iff]
    exact ⟨w, htrace ▸ List.mem_append_right before List.mem_cons_self, decide_eq_true hw⟩
  have hsettled : 1 ≤ (y.trace i).countP fun e => B.settles e = some k := by
    rw [Nat.one_le_iff_ne_zero, ← Nat.pos_iff_ne_zero, List.countP_pos_iff]
    exact ⟨x, htrace ▸ List.mem_append_right before (List.mem_cons_of_mem w hx),
      decide_eq_true hsettles⟩
  have hothers : ∀ j, j ≠ i → ((y.trace j).countP fun e => B.settles e = some k) = 0 := by
    intro j hj
    have := y.trace_countP_add_le (fun e => B.opens e = some k) hj
    have := hle j
    omega
  have hall := y.trace_countP_le (fun e => B.opens e = some k) i
  have := hle i
  rw [countP_history_of_only hothers]
  omega

/-- Where each thread spends no more than it earns, what is earned once is spent at most once. -/
theorem countP_le_one_of_covered {Q : Event Ans → Bool}
    (hle : ∀ j, (y.trace j).countP Q ≤ (y.trace j).countP P)
    (honce : (y.history.countP fun e => P e.2) ≤ 1) : (y.history.countP fun e => Q e.2) ≤ 1 := by
  by_cases hspends : ∃ j, (y.trace j).countP Q ≠ 0
  · obtain ⟨j, hj⟩ := hspends
    have hothers : ∀ k, k ≠ j → (y.trace k).countP Q = 0 := by
      intro k hk
      have := y.trace_countP_add_le P hk
      have := hle j
      have := hle k
      omega
    have := y.trace_countP_le P j
    have := hle j
    rw [countP_history_of_only hothers]
    omega
  · have hnone : ∀ k, (y.trace k).countP Q = 0 := fun k => by_contra fun hk => hspends ⟨k, hk⟩
    rw [countP_history_of_only fun k _ => hnone k, hnone 0]
    exact Nat.zero_le 1

/-- Where each thread spends no more than it earns, so do all of them. -/
theorem countP_history_le {Q : Event Ans → Bool}
    (hle : ∀ j, (y.trace j).countP Q ≤ (y.trace j).countP P) :
    (y.history.countP fun e => Q e.2) ≤ y.history.countP fun e => P e.2 := by
  -- what the threads below a number have performed
  have hnext : ∀ (R : Event Ans → Bool) n, (y.history.countP fun e => e.1 < n + 1 && R e.2) =
      (y.history.countP fun e => e.1 < n && R e.2) + (y.trace n).countP R := by
    intro R n
    rw [trace, List.countP_map, List.countP_filter]
    induction y.history with
    | nil => rfl
    | cons e history ih =>
      simp only [List.countP_cons, ih, Function.comp_apply]
      by_cases hn : e.1 = n
      · simp only [hn, Nat.lt_irrefl, Nat.lt_succ_self, decide_true, decide_false, Bool.true_and,
          Bool.false_and, Bool.and_true, Bool.false_eq_true, if_false]
        omega
      · have hlt : e.1 < n + 1 ↔ e.1 < n := by omega
        simp only [hlt, hn, decide_false, Bool.and_false, Bool.false_eq_true, if_false]
        omega
  have hbelow : ∀ n, (y.history.countP fun e => e.1 < n && Q e.2) ≤
      y.history.countP fun e => e.1 < n && P e.2 := by
    intro n
    induction n with
    | zero => simp
    | succ n ih =>
      have := hle n
      rw [hnext, hnext]
      omega
  obtain ⟨n, hn⟩ : ∃ n, ∀ e ∈ y.history, e.1 < n := by
    induction y.history with
    | nil => exact ⟨0, by simp⟩
    | cons e history ih =>
      obtain ⟨n, hn⟩ := ih
      refine ⟨max n (e.1 + 1), ?_⟩
      intro e' he'
      rcases List.mem_cons.mp he' with rfl | he'
      · omega
      · have := hn e' he'
        omega
  have hall : ∀ R : Event Ans → Bool, (y.history.countP fun e => e.1 < n && R e.2) =
      y.history.countP fun e => R e.2 := by
    intro R
    apply List.countP_congr
    intro e he
    simp [hn e he]
  rw [← hall Q, ← hall P]
  exact hbelow n

end counting

section covers

variable {κ : Type} [DecidableEq κ] {opens spends : Event Ans → Option κ}

/-- Scripts that charge no account more often than they open it do so together, too. -/
theorem covered_history (exec : (op : Op) → σ → Ans op × σ)
    (hprog : ∀ job, Script.Covers opens spends [] (prog job)) (s : σ) (moves : List (Move ι)) :
    Script.Covered opens spends ((run exec prog { store := s } moves).history.map (·.2)) := by
  intro k
  rw [List.countP_map, List.countP_map]
  apply countP_history_le (Q := fun e => decide (spends e = some k)) (P := fun e => decide (opens e = some k))
  intro j
  cases hj : (run exec prog { store := s } moves).threads[j]? with
  | none =>
    rw [trace_of_none s moves hj]
    exact Nat.le_refl 0
  | some thread => exact traced s moves hj (hprog thread.job) k

theorem meets_covered (exec : (op : Op) → σ → Ans op × σ)
    (hprog : ∀ job, Script.Covers opens spends [] (prog job)) (s : σ) (moves : List (Move ι)) :
    Meets exec prog (fun history s op =>
      Script.Covered opens spends (history.map (·.2) ++ [⟨op, (exec op s).1⟩])) { store := s } moves := by
  induction moves using List.reverseRecOn with
  | nil => trivial
  | append_singleton moves move ih =>
    refine meets_append.mpr ⟨ih, ?_, trivial⟩
    intro op hop
    have hcovered := covered_history exec hprog s (moves ++ [move])
    obtain ⟨i, hhistory⟩ := history_of_next exec prog hop
    have hstep : run exec prog { store := s } (moves ++ [move]) =
        (run exec prog { store := s } moves).step exec prog move := run_append moves [move]
    rw [hstep, hhistory, List.map_append] at hcovered
    exact hcovered

end covers

/-! ### What all threads keep -/

variable {Γ : σ → Op → Prop} {I : σ → Prop}

/-- The store is in `I`, and every thread keeps to `Γ`. -/
structure Sound (exec : (op : Op) → σ → Ans op × σ) (Γ : σ → Op → Prop) (I : σ → Prop)
    (y : Session Op Ans σ ι α) : Prop where
  store : I y.store
  threads : ∀ t ∈ y.threads, ∃ P, Stable exec Γ P ∧ P y.store ∧ Fits exec Γ t.rest P fun _ _ => True

theorem Sound.next (h : Sound exec Γ I y) {move : Move ι} {op : Op} (hop : y.next move = some op) :
    Γ y.store op := by
  cases move with
  | start job => cases hop
  | turn i =>
    cases hi : y.threads[i]? with
    | none => simp [Session.next, hi] at hop
    | some thread =>
      obtain ⟨job, rest⟩ := thread
      cases rest with
      | ret a => simp [Session.next, hi] at hop
      | act op' k =>
        simp only [Session.next, hi, Option.some.injEq] at hop
        subst hop
        obtain ⟨P, -, hP, hfits⟩ := h.threads _ (List.mem_of_getElem? hi)
        exact (hfits y.store hP).1

theorem Sound.step (hI : Stable exec Γ I) (h : Sound exec Γ I y) (move : Move ι)
    (hprog : ∀ job, Fits exec Γ (prog job) I fun _ _ => True) :
    Sound exec Γ I (y.step exec prog move) := by
  rcases step_cases exec prog y move with
    ⟨job, -, heq⟩ | ⟨i, job, op, k, -, hi, hnext, heq⟩ | heq
  · rw [heq]
    refine ⟨h.store, ?_⟩
    intro t ht
    rcases List.mem_append.mp ht with ht | ht
    · exact h.threads t ht
    · rw [List.mem_singleton] at ht
      subst ht
      exact ⟨I, hI, h.store, hprog job⟩
  · rw [heq]
    have hΓ : Γ y.store op := h.next hnext
    refine ⟨hI _ _ h.store hΓ, ?_⟩
    intro t ht
    rcases List.mem_or_eq_of_mem_set ht with ht | rfl
    · obtain ⟨P, hstable, hP, hfits⟩ := h.threads t ht
      exact ⟨P, hstable, hstable _ _ hP hΓ, hfits⟩
    · obtain ⟨P, -, hP, hfits⟩ := h.threads _ (List.mem_of_getElem? hi)
      obtain ⟨-, P', hstable, hP', hk⟩ := hfits y.store hP
      exact ⟨P', hstable, hP', hk⟩
  · rw [heq]
    exact h

/-- Over a run whose statements `ok` allows, the history and the store keep what each statement
in `Γ` keeps. -/
theorem Sound.run (hI : Stable exec Γ I) (hprog : ∀ job, Fits exec Γ (prog job) I fun _ _ => True)
    (moves : List (Move ι)) (h : Sound exec Γ I y) (hok : Meets exec prog ok y moves)
    {J : List (ℕ × Event Ans) → σ → Prop}
    (hJ : ∀ history s i op, I s → Γ s op → ok history s op → J history s →
      J (history ++ [(i, ⟨op, (exec op s).1⟩)]) (exec op s).2)
    (hy : J y.history y.store) :
    Sound exec Γ I (y.run exec prog moves) ∧
      J (y.run exec prog moves).history (y.run exec prog moves).store := by
  induction moves generalizing y with
  | nil => exact ⟨h, hy⟩
  | cons move moves ih =>
    apply ih (h.step hI move hprog) hok.2
    rcases step_cases exec prog y move with
      ⟨job, -, heq⟩ | ⟨i, job, op, k, -, -, hnext, heq⟩ | heq
    · rw [heq]
      exact hy
    · rw [heq]
      exact hJ _ _ _ _ h.store (h.next hnext) (hok.1 op hnext) hy
    · rw [heq]
      exact hy

end Session

end CwStation.Scripts
