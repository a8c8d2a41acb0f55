import Mathlib.Data.List.GetD
import Mathlib.Data.List.Sort

/-! # The median of a list -/

namespace CwStation.Median

/-- The middle of the sorted list, or the mean of its two middle entries. The value for
the empty list is the caller's. -/
def median {α : Type*} [LE α] [DecidableLE α] (mean : α → α → α) (empty : α) (xs : List α) : α :=
  let ys := xs.insertionSort (· ≤ ·)
  if ys.length % 2 = 1 then ys.getD (ys.length / 2) empty
  else mean (ys.getD (ys.length / 2 - 1) empty) (ys.getD (ys.length / 2) empty)

/-- A property of every entry that the mean keeps is a property of the median. -/
theorem median_of_forall {α : Type*} [LE α] [DecidableLE α] {mean : α → α → α} {empty : α}
    {P : α → Prop} (hmean : ∀ a b, P a → P b → P (mean a b)) {xs : List α} (hne : xs ≠ [])
    (h : ∀ x ∈ xs, P x) : P (median mean empty xs) := by
  have hget : ∀ i, i < (xs.insertionSort (· ≤ ·)).length →
      P ((xs.insertionSort (· ≤ ·)).getD i empty) := by
    intro i hi
    rw [List.getD_eq_getElem _ _ hi]
    exact h _ ((List.perm_insertionSort (· ≤ ·) xs).mem_iff.mp (List.getElem_mem hi))
  have hpos : 0 < (xs.insertionSort (· ≤ ·)).length := by
    rw [List.length_insertionSort]
    exact List.length_pos_iff.mpr hne
  unfold median
  dsimp only
  split
  · exact hget _ (by omega)
  · exact hmean _ _ (hget _ (by omega)) (hget _ (by omega))

theorem getD_map {α β : Type*} (f : α → β) {l : List α} {i : ℕ} (hi : i < l.length) (a : α) (b : β) :
    (l.map f).getD i b = f (l.getD i a) := by
  rw [List.getD_eq_getElem _ _ hi, List.getD_eq_getElem _ _ (by rwa [List.length_map]),
    List.getElem_map]

/-- A change that keeps the order and goes through the mean goes through the median. -/
theorem median_map {α : Type*} [LE α] [DecidableLE α] {mean : α → α → α} {empty : α} {f : α → α}
    (horder : ∀ a b, a ≤ b ↔ f a ≤ f b) (hmean : ∀ a b, mean (f a) (f b) = f (mean a b))
    {xs : List α} (hne : xs ≠ []) :
    median mean empty (xs.map f) = f (median mean empty xs) := by
  have hsort := List.map_insertionSort (· ≤ ·) (· ≤ ·) f xs fun a _ b _ => horder a b
  have hpos : 0 < (xs.insertionSort (· ≤ ·)).length := by
    rw [List.length_insertionSort]
    exact List.length_pos_iff.mpr hne
  unfold median
  dsimp only
  rw [← hsort, List.length_map]
  split
  · exact getD_map f (by omega) _ _
  · rw [getD_map f (a := empty) (by omega), getD_map f (a := empty) (by omega)]
    exact hmean _ _

end CwStation.Median
