import Mathlib.Data.List.Basic
import Mathlib.Data.List.Infix
import Mathlib.Data.List.TakeDrop
import Mathlib.Data.List.TakeWhile

/-! # Buffers

A buffer is read in blocks, in frames, or from where a cursor stands. -/

/-! ## Fixed-size blocks with a remainder

A buffer is consumed in blocks of `n` items; what is left over is carried and put in
front of the next buffer. Cutting a sequence into buffers does not change the blocks. -/

namespace CwStation.Blocks

variable {α : Type*} {n : ℕ}

/-- The whole blocks of length `n` at the front of a buffer. -/
def blocks (n : ℕ) (buf : List α) : List (List α) :=
  (List.range (buf.length / n)).map fun b => (buf.drop (b * n)).take n

/-- What is left after the whole blocks. -/
def remainder (n : ℕ) (buf : List α) : List α :=
  buf.drop (buf.length / n * n)

theorem remainder_length (buf : List α) :
    (remainder n buf).length = buf.length % n := by
  have h := Nat.div_add_mod' buf.length n
  simp only [remainder, List.length_drop]
  omega

theorem remainder_length_lt (hn : 0 < n) (buf : List α) :
    (remainder n buf).length < n := by
  rw [remainder_length]
  exact Nat.mod_lt _ hn

theorem blocks_of_length_lt {buf : List α} (h : buf.length < n) : blocks n buf = [] := by
  simp [blocks, Nat.div_eq_of_lt h]

theorem remainder_of_length_lt {buf : List α} (h : buf.length < n) :
    remainder n buf = buf := by
  simp [remainder, Nat.div_eq_of_lt h]

theorem drop_div_mul_append (buf more : List α) (k : ℕ) :
    (buf ++ more).drop ((buf.length / n + k) * n) =
      (remainder n buf ++ more).drop (k * n) := by
  have hle : buf.length / n * n ≤ buf.length := Nat.div_mul_le_self _ _
  rw [Nat.add_mul, ← List.drop_drop, List.drop_append_of_le_length hle]
  rfl

theorem length_append_div (hn : 0 < n) (buf more : List α) :
    (buf ++ more).length / n =
      buf.length / n + (remainder n buf ++ more).length / n := by
  have h := Nat.div_add_mod' buf.length n
  rw [List.length_append, List.length_append, remainder_length, ← h, Nat.add_assoc,
    Nat.mul_comm _ n, Nat.mul_add_div hn, ← Nat.mul_comm _ n, h]

/-- Appending to a buffer keeps its blocks and continues from the remainder. -/
theorem blocks_append (hn : 0 < n) (buf more : List α) :
    blocks n (buf ++ more) = blocks n buf ++ blocks n (remainder n buf ++ more) := by
  unfold blocks
  rw [length_append_div hn buf more, List.range_add, List.map_append, List.map_map]
  congr 1
  · apply List.map_congr_left
    intro b hb
    have hb' : (b + 1) * n ≤ buf.length :=
      Nat.le_trans (Nat.mul_le_mul_right n (List.mem_range.mp hb)) (Nat.div_mul_le_self _ _)
    rw [Nat.succ_mul] at hb'
    rw [List.drop_append_of_le_length (by omega), List.take_append_of_le_length]
    rw [List.length_drop]
    omega
  · apply List.map_congr_left
    intro b _
    exact congrArg (List.take n) (drop_div_mul_append buf more b)

theorem remainder_append (hn : 0 < n) (buf more : List α) :
    remainder n (buf ++ more) = remainder n (remainder n buf ++ more) := by
  conv_lhs => rw [remainder, length_append_div hn buf more]
  rw [drop_div_mul_append]
  rfl

end CwStation.Blocks

/-! ## Frames ended by a separator -/

namespace CwStation.Frames

variable {α : Type} [DecidableEq α]

/-- The complete frames of a stream; what stands behind the last separator is not one. -/
def frames (sep : α) (xs : List α) : List (List α) := (xs.splitOn sep).dropLast

/-- The first frame of a stream that has one. -/
def first (sep : α) (xs : List α) : List α := xs.takeWhile (· ≠ sep)

/-- What stands behind the first frame. -/
def rest (sep : α) (xs : List α) : List α := (xs.dropWhile (· ≠ sep)).drop 1

theorem not_mem_first (sep : α) (xs : List α) : sep ∉ first sep xs := by
  intro h
  simpa using List.mem_takeWhile_imp h

theorem first_append_rest {sep : α} {xs : List α} (h : sep ∈ xs) :
    xs = first sep xs ++ sep :: rest sep xs := by
  induction xs with
  | nil => simp at h
  | cons x xs ih =>
    by_cases hx : x = sep
    · simp [first, rest, hx]
    · have hmem : sep ∈ xs := by simpa [Ne.symm hx] using h
      have hcut := ih hmem
      simp only [first, rest] at hcut
      simp only [first, rest, ne_eq, hx, not_false_eq_true, decide_true,
        List.takeWhile_cons_of_pos, List.dropWhile_cons_of_pos, List.cons_append]
      rw [← hcut]

omit [DecidableEq α] in
/-- A stream is cut at its first separator in one way only. -/
theorem cut_unique {sep : α} {a b x y : List α} (ha : sep ∉ a) (hb : sep ∉ b)
    (h : a ++ sep :: x = b ++ sep :: y) : a = b ∧ x = y := by
  induction a generalizing b with
  | nil =>
    cases b with
    | nil => simpa using h
    | cons e b =>
      have he : sep = e := by simpa using congrArg List.head? h
      simp [he] at hb
  | cons d a ih =>
    cases b with
    | nil =>
      have hd : d = sep := by simpa using congrArg List.head? h
      simp [hd] at ha
    | cons e b =>
      simp only [List.mem_cons, not_or] at ha hb
      simp only [List.cons_append, List.cons.injEq] at h
      have htail := ih ha.2 hb.2 h.2
      exact ⟨by rw [h.1, htail.1], htail.2⟩

theorem frames_of_not_mem {sep : α} {xs : List α} (h : sep ∉ xs) : frames sep xs = [] := by
  simp [frames, List.splitOn_eq_singleton h]

theorem frames_of_cut {sep : α} {xs ys : List α} (h : sep ∉ xs) :
    frames sep (xs ++ sep :: ys) = xs :: frames sep ys := by
  have hne : ys.splitOn sep ≠ [] := List.splitOn_ne_nil sep ys
  rw [frames, List.splitOn_append_cons_self_of_not_mem h, List.dropLast_cons_of_ne_nil hne, frames]

/-- A stream whose first part holds a separator: the frame is cut from that part alone. -/
theorem frames_append {sep : α} {xs : List α} (h : sep ∈ xs) (ys : List α) :
    frames sep (xs ++ ys) = first sep xs :: frames sep (rest sep xs ++ ys) := by
  have hcut := congrArg (· ++ ys) (first_append_rest h)
  simp only [List.append_assoc, List.cons_append] at hcut
  rw [hcut]
  exact frames_of_cut (not_mem_first sep xs)

end CwStation.Frames

/-! ## A cursor into a list that grows

A reader keeps a position in a list that others append to, and takes what is behind the
position. What it has taken is always the front of the list. -/

namespace CwStation.Cursor

variable {α : Type*} {seen xs ys : List α} {n : ℕ}

/-- A reader at position `n` of `xs` that has taken `seen`. -/
structure Follows (seen : List α) (n : ℕ) (xs : List α) : Prop where
  le : n ≤ xs.length
  seen_eq : seen = xs.take n

theorem Follows.start (xs : List α) : Follows [] 0 xs :=
  ⟨Nat.zero_le _, rfl⟩

theorem Follows.grow (h : Follows seen n xs) (hgrow : xs <+: ys) : Follows seen n ys := by
  obtain ⟨more, rfl⟩ := hgrow
  refine ⟨?_, ?_⟩
  · rw [List.length_append]
    exact h.le.trans (Nat.le_add_right _ _)
  · rw [h.seen_eq, List.take_append_of_le_length h.le]

/-- Taking the rest reaches the end, with everything taken once. -/
theorem Follows.take (h : Follows seen n xs) : Follows (seen ++ xs.drop n) xs.length xs := by
  refine ⟨le_rfl, ?_⟩
  rw [h.seen_eq, List.take_append_drop, List.take_length]

theorem Follows.complete (h : Follows seen n xs) (hnil : xs.drop n = []) : seen = xs := by
  rw [h.seen_eq]
  exact List.take_of_length_le (List.drop_eq_nil_iff.mp hnil)

end CwStation.Cursor
