import Mathlib.Data.List.Flatten
import Mathlib.Tactic.Common

/-! # Signals that change now and then

A signal is a list of samples. Where it changes there is an edge; patterns that lead from one
level to the next are written over the samples behind the edges. -/

namespace CwStation.Edges

variable {α : Type*}

/-! ## Writing patterns -/

/-- Write a pattern from a place on, as far as the list goes. -/
def write (pattern out : List α) (start : ℕ) : List α :=
  out.take start ++ pattern.take (out.length - start) ++ out.drop (start + pattern.length)

variable {pattern out : List α} {start p : ℕ} {starts : List ℕ}

theorem length_write : (write pattern out start).length = out.length := by
  simp only [write, List.length_append, List.length_take, List.length_drop]
  omega

theorem getElem?_write_of_not_covered (h : ¬(start ≤ p ∧ p < start + pattern.length)) :
    (write pattern out start)[p]? = out[p]? := by
  rw [write, List.append_assoc]
  by_cases hlow : p < start
  · by_cases hp : p < out.length
    · rw [List.getElem?_append_left (by simp; omega), List.getElem?_take_of_lt hlow]
    · have hlen : (write pattern out start).length = out.length := length_write
      rw [write, List.append_assoc] at hlen
      rw [List.getElem?_eq_none (by omega), List.getElem?_eq_none (by omega)]
  · have hhigh : start + pattern.length ≤ p := by omega
    by_cases hp : p < out.length
    · rw [List.getElem?_append_right (by simp; omega), List.getElem?_append_right (by simp; omega),
        List.getElem?_drop]
      congr 1
      simp
      omega
    · have hlen : (write pattern out start).length = out.length := length_write
      rw [write, List.append_assoc] at hlen
      rw [List.getElem?_eq_none (by omega), List.getElem?_eq_none (by omega)]

theorem getElem?_write_of_covered (hlow : start ≤ p) (hhigh : p < start + pattern.length)
    (hp : p < out.length) : (write pattern out start)[p]? = pattern[p - start]? := by
  have htake : (out.take start).length = start := by simp; omega
  rw [write, List.append_assoc, List.getElem?_append_right (by omega), htake,
    List.getElem?_append_left (by simp; omega), List.getElem?_take_of_lt (by omega)]

theorem length_foldl_write : (starts.foldl (write pattern) out).length = out.length := by
  induction starts generalizing out with
  | nil => rfl
  | cons start starts ih => rw [List.foldl_cons, ih, length_write]

theorem foldl_write_of_not_covered
    (h : ∀ start ∈ starts, ¬(start ≤ p ∧ p < start + pattern.length)) :
    (starts.foldl (write pattern) out)[p]? = out[p]? := by
  induction starts generalizing out with
  | nil => rfl
  | cons start starts ih =>
    rw [List.foldl_cons, ih fun s hs => h s (List.mem_cons_of_mem _ hs),
      getElem?_write_of_not_covered (h start List.mem_cons_self)]

/-- Patterns that are apart do not disturb each other. -/
theorem foldl_write_of_covered (hapart : starts.Pairwise fun s s' => s + pattern.length ≤ s')
    (hstart : start ∈ starts) (hlow : start ≤ p) (hhigh : p < start + pattern.length)
    (hp : p < out.length) : (starts.foldl (write pattern) out)[p]? = pattern[p - start]? := by
  induction starts generalizing out with
  | nil => cases hstart
  | cons s starts ih =>
    rw [List.pairwise_cons] at hapart
    rw [List.foldl_cons]
    rcases List.mem_cons.mp hstart with rfl | hstart
    · rw [foldl_write_of_not_covered, getElem?_write_of_covered hlow hhigh hp]
      intro s' hs' hcovers
      have hle := hapart.1 s' hs'
      omega
    · exact ih hapart.2 hstart (by rwa [length_write])

theorem forall_mem_foldl_write {P : α → Prop} (hout : ∀ v ∈ out, P v) (hpattern : ∀ v ∈ pattern, P v) :
    ∀ v ∈ starts.foldl (write pattern) out, P v := by
  induction starts generalizing out with
  | nil => exact hout
  | cons start starts ih =>
    apply ih
    intro v hv
    rcases List.mem_append.mp hv with hv | hv
    · rcases List.mem_append.mp hv with hv | hv
      · exact hout v (List.mem_of_mem_take hv)
      · exact hpattern v (List.mem_of_mem_take hv)
    · exact hout v (List.mem_of_mem_drop hv)

/-! ## Edges -/

/-- The signal changes to a new level at this sample. -/
def Edge (signal : List α) (e : ℕ) : Prop :=
  ∃ i x y, e = i + 1 ∧ signal[i]? = some x ∧ signal[i + 1]? = some y ∧ x ≠ y

/-- Edges are at least `n` samples apart, and from the end. -/
structure Spaced (n : ℕ) (signal : List α) : Prop where
  apart : ∀ e e', Edge signal e → Edge signal e' → e < e' → e + n ≤ e'
  late : ∀ e, Edge signal e → e + n ≤ signal.length

variable {n : ℕ} {signal : List α}

theorem getElem?_succ_of_not_edge (h : ¬Edge signal (p + 1)) (hp : p + 1 < signal.length) :
    signal[p + 1]? = signal[p]? := by
  rw [List.getElem?_eq_getElem hp, List.getElem?_eq_getElem (by omega : p < signal.length)]
  by_contra hne
  refine h ⟨p, _, _, rfl, List.getElem?_eq_getElem (by omega), List.getElem?_eq_getElem hp, ?_⟩
  exact fun heq => hne (congrArg some heq.symm)

/-- Behind an edge the signal keeps its level. -/
theorem Spaced.level (h : Spaced n signal) {e j : ℕ} (he : Edge signal e) (hj : j < n) :
    signal[e + j]? = signal[e]? := by
  induction j with
  | zero => rfl
  | succ j ih =>
    have hend := h.late e he
    have hnot : ¬Edge signal (e + j + 1) := by
      intro hedge
      have hle := h.apart e (e + j + 1) he hedge (by omega)
      omega
    have hin : e + j + 1 < signal.length := by omega
    rw [← ih (by omega)]
    exact getElem?_succ_of_not_edge hnot hin

/-! ## Runs of one level -/

/-- The signal made of runs of one level each. -/
def fromRuns (runs : List (α × ℕ)) : List α := runs.flatMap fun run => List.replicate run.2 run.1

/-- An edge of a run followed by a signal is at its end, or in the signal. -/
theorem edge_replicate_append {x : α} {k e : ℕ} (h : Edge (List.replicate k x ++ signal) e) :
    e = k ∧ signal ≠ [] ∨ ∃ e', Edge signal e' ∧ e = k + e' := by
  obtain ⟨i, a, b, rfl, ha, hb, hne⟩ := h
  by_cases hlast : i + 1 < k
  · rw [List.getElem?_append_left (by simp; omega), List.getElem?_replicate_of_lt (by omega)] at ha hb
    cases ha
    cases hb
    exact absurd rfl hne
  · by_cases hfirst : k ≤ i
    · rw [List.getElem?_append_right (by simpa), List.length_replicate] at ha
      rw [List.getElem?_append_right (by simp; omega), List.length_replicate] at hb
      have hnext : i + 1 - k = i - k + 1 := by omega
      rw [hnext] at hb
      exact .inr ⟨i - k + 1, ⟨i - k, a, b, rfl, ha, hb, hne⟩, by omega⟩
    · refine .inl ⟨by omega, ?_⟩
      rintro rfl
      rw [List.append_nil, List.getElem?_eq_none (by simp; omega)] at hb
      cases hb

/-- Where every run is long enough, edges are apart. -/
theorem spaced_fromRuns {runs : List (α × ℕ)} (h : ∀ run ∈ runs, n ≤ run.2) :
    Spaced n (fromRuns runs) ∧ ∀ e, Edge (fromRuns runs) e → n ≤ e := by
  induction runs with
  | nil =>
    have hnone : ∀ e, ¬Edge (fromRuns ([] : List (α × ℕ))) e := by
      rintro e ⟨i, x, y, -, hx, -⟩
      cases hx
    exact ⟨⟨fun e _ he => absurd he (hnone e), fun e he => absurd he (hnone e)⟩,
      fun e he => absurd he (hnone e)⟩
  | cons run runs ih =>
    obtain ⟨hspaced, hearly⟩ := ih fun r hr => h r (List.mem_cons_of_mem _ hr)
    have hrun := h run List.mem_cons_self
    have hcons : fromRuns (run :: runs) = List.replicate run.2 run.1 ++ fromRuns runs := rfl
    have hlen : (fromRuns (run :: runs)).length = run.2 + (fromRuns runs).length := by
      rw [hcons, List.length_append, List.length_replicate]
    have hrest : fromRuns runs ≠ [] → n ≤ (fromRuns runs).length := by
      intro hne
      cases runs with
      | nil => exact absurd rfl hne
      | cons r runs =>
        have hr := h r (by simp)
        change n ≤ (List.replicate r.2 r.1 ++ fromRuns runs).length
        rw [List.length_append, List.length_replicate]
        omega
    refine ⟨⟨?_, ?_⟩, ?_⟩
    · intro e e' he he' hlt
      rcases edge_replicate_append he with ⟨rfl, _⟩ | ⟨k, hk, rfl⟩ <;>
        rcases edge_replicate_append he' with ⟨rfl, _⟩ | ⟨k', hk', rfl⟩
      · omega
      · have hle := hearly k' hk'
        omega
      · omega
      · have hle := hspaced.apart k k' hk hk' (by omega)
        omega
    · intro e he
      rw [hlen]
      rcases edge_replicate_append he with ⟨rfl, hne⟩ | ⟨k, hk, rfl⟩
      · have hle := hrest hne
        omega
      · have hle := hspaced.late k hk
        omega
    · intro e he
      rcases edge_replicate_append he with ⟨rfl, _⟩ | ⟨k, hk, rfl⟩ <;> omega

/-! ## Easing the edges -/

/-- A pattern that leads from the level before an edge to the one behind it, in steps along
`R`. -/
structure Eases (R : α → α → Prop) (n : ℕ) (signal : List α) (e : ℕ) (pattern : List α) : Prop where
  length : pattern.length = n
  first : pattern[0]? = signal[e - 1]?
  last : pattern[n - 1]? = signal[e]?
  steps : ∀ j a b, pattern[j]? = some a → pattern[j + 1]? = some b → R a b

/-- A signal with such a pattern behind every edge, and unchanged elsewhere. -/
structure Eased (R : α → α → Prop) (n : ℕ) (signal out : List α) : Prop where
  length : out.length = signal.length
  edge : ∀ e, Edge signal e → ∃ pattern, Eases R n signal e pattern ∧
    ∀ j < n, out[e + j]? = pattern[j]?
  plain : ∀ p, (∀ e, Edge signal e → ¬(e ≤ p ∧ p < e + n)) → out[p]? = signal[p]?

/-- What an eased edge leaves behind is the level of the signal. -/
theorem Eased.end_of_edge {R : α → α → Prop} (h : Eased R n signal out) (hspaced : Spaced n signal)
    (hn : 0 < n) {e : ℕ} (he : Edge signal e) (hp : p + 1 = e + n) : out[p]? = signal[p]? := by
  obtain ⟨pattern, hpattern, htrace⟩ := h.edge e he
  have hplace : p = e + (n - 1) := by omega
  rw [hplace, htrace (n - 1) (by omega), hpattern.last, hspaced.level he (by omega)]

/-- The eased signal moves along `R`. -/
theorem Eased.steps {R : α → α → Prop} (hrefl : ∀ a, R a a) (h : Eased R n signal out)
    (hspaced : Spaced n signal) (hn : 0 < n) {a b : α} (ha : out[p]? = some a)
    (hb : out[p + 1]? = some b) : R a b := by
  have hlen : p + 1 < signal.length := by
    rw [← h.length]
    exact (List.getElem?_eq_some_iff.mp hb).1
  by_cases hedge : Edge signal (p + 1)
  · -- the pattern starts at the level the signal had before
    obtain ⟨pattern, hpattern, htrace⟩ := h.edge (p + 1) hedge
    have hfirst := htrace 0 hn
    rw [Nat.add_zero, hb, hpattern.first, Nat.add_sub_cancel] at hfirst
    have hbefore : out[p]? = signal[p]? := by
      by_cases hcovered : ∃ e, Edge signal e ∧ e ≤ p ∧ p < e + n
      · obtain ⟨e, he, hle, hlt⟩ := hcovered
        have hapart := hspaced.apart e (p + 1) he hedge (by omega)
        exact h.end_of_edge hspaced hn he (by omega)
      · exact h.plain p fun e he hcover => hcovered ⟨e, he, hcover⟩
    rw [hbefore, ← hfirst] at ha
    cases ha
    exact hrefl a
  · have hsame := getElem?_succ_of_not_edge hedge hlen
    by_cases hcovered : ∃ e, Edge signal e ∧ e ≤ p ∧ p + 1 < e + n
    · obtain ⟨e, he, hle, hlt⟩ := hcovered
      obtain ⟨pattern, hpattern, htrace⟩ := h.edge e he
      have hp := htrace (p - e) (by omega)
      have hp' := htrace (p - e + 1) (by omega)
      rw [show e + (p - e) = p by omega, ha] at hp
      rw [show e + (p - e + 1) = p + 1 by omega, hb] at hp'
      exact hpattern.steps (p - e) a b hp.symm hp'.symm
    · -- the next sample is behind every pattern
      have hnext : out[p + 1]? = signal[p + 1]? := by
        apply h.plain
        rintro e he ⟨hle, hlt⟩
        by_cases heq : e = p + 1
        · exact hedge (heq ▸ he)
        · exact hcovered ⟨e, he, by omega, hlt⟩
      have hbefore : out[p]? = signal[p]? := by
        by_cases hend : ∃ e, Edge signal e ∧ p + 1 = e + n
        · obtain ⟨e, he, hp⟩ := hend
          exact h.end_of_edge hspaced hn he hp
        · apply h.plain
          rintro e he ⟨hle, hlt⟩
          by_cases heq : p + 1 = e + n
          · exact hend ⟨e, he, heq⟩
          · exact hcovered ⟨e, he, hle, by omega⟩
      rw [hnext, hsame, ← hbefore, ha] at hb
      cases hb
      exact hrefl a

end CwStation.Edges
