import CwStation.Model.SearchIndex
import Mathlib.Tactic.Common

/-! # What the operations on the search index leave behind -/

namespace CwStation.SearchIndex

variable {κ ρ : Type} [DecidableEq κ] {engine : Engine} {view : View ρ} {store : Store κ ρ}
  {pk : κ} {row : ρ}

/-! ## The table -/

@[simp] theorem rows_indexObject (engine : Engine) (view : View ρ) (store : Store κ ρ)
    (obj : κ × ρ) : (indexObject engine view store obj).rows = store.rows := by
  cases engine with
  | sqlite => rfl
  | postgres =>
    simp only [indexObject]
    split
    · rfl
    · rfl

@[simp] theorem rows_writeBatch (engine : Engine) (view : View ρ) (store : Store κ ρ)
    (batch : List (κ × ρ)) : (writeBatch engine view store batch).rows = store.rows := by
  induction batch generalizing store with
  | nil => rfl
  | cons obj batch ih => exact (ih _).trans (rows_indexObject engine view store obj)

theorem rows_indexBatches (engine : Engine) (view : View ρ) (chunkSize : ℕ) (pks : List κ)
    (store : Store κ ρ) : (indexBatches engine view chunkSize pks store).rows = store.rows := by
  unfold indexBatches
  induction slices chunkSize pks.length pks generalizing store with
  | nil => rfl
  | cons slice rest ih => exact (ih _).trans (rows_writeBatch engine view store _)

theorem rows_rebuild (engine : Engine) (view : View ρ) (store : Store κ ρ) :
    (rebuild engine view store).rows = store.rows := by
  cases engine with
  | sqlite => exact rows_indexBatches _ _ _ _ _
  | postgres =>
    simp only [rebuild]
    split
    · rfl
    · exact rows_indexBatches _ _ _ _ _

/-! ## Which rows are indexed -/

/-- Whether the index has an entry for a key. -/
def Indexed (store : Store κ ρ) (pk : κ) : Prop := pk ∈ store.entries.map Prod.fst

theorem mem_deleteEntries {e : κ × List Str} {entries : List (κ × List Str)} :
    e ∈ deleteEntries pk entries ↔ e ∈ entries ∧ e.1 ≠ pk := by
  simp [deleteEntries]

theorem indexed_of_putEntry {other : κ} {texts : List Str} {entries : List (κ × List Str)}
    (h : other ∈ (putEntry pk texts entries).map Prod.fst) :
    other ∈ entries.map Prod.fst ∨ other = pk := by
  obtain ⟨e, he, rfl⟩ := List.mem_map.mp h
  rcases List.mem_append.mp he with he | he
  · exact .inl (List.mem_map_of_mem (mem_deleteEntries.mp he).1)
  · exact .inr (congrArg Prod.fst (List.mem_singleton.mp he))

theorem indexed_of_indexObject {obj : κ × ρ} (h : Indexed (indexObject engine view store obj) pk) :
    Indexed store pk ∨ pk = obj.1 := by
  cases engine with
  | sqlite => exact indexed_of_putEntry h
  | postgres =>
    simp only [indexObject] at h
    split at h
    · exact .inl h
    · exact indexed_of_putEntry h

theorem indexed_of_writeBatch {batch : List (κ × ρ)}
    (h : Indexed (writeBatch engine view store batch) pk) :
    Indexed store pk ∨ pk ∈ batch.map Prod.fst := by
  induction batch generalizing store with
  | nil => exact .inl h
  | cons obj batch ih =>
    rcases ih h with h | h
    · rcases indexed_of_indexObject h with h | h
      · exact .inl h
      · exact .inr (by rw [h]; exact List.mem_cons_self)
    · exact .inr (List.mem_cons_of_mem _ h)

theorem mem_loadBatch {rows : List (κ × ρ)} {pks : List κ} {obj : κ × ρ} :
    obj ∈ loadBatch rows pks ↔ obj ∈ rows ∧ obj.1 ∈ pks := by
  simp [loadBatch]

omit [DecidableEq κ] in
theorem mem_of_mem_slices {chunkSize fuel : ℕ} {pks slice : List κ}
    (hslice : slice ∈ slices chunkSize fuel pks) (hpk : pk ∈ slice) : pk ∈ pks := by
  induction fuel generalizing pks with
  | zero => simp [slices] at hslice
  | succ fuel ih =>
    rw [slices] at hslice
    split at hslice
    · simp at hslice
    · rcases List.mem_cons.mp hslice with rfl | hslice
      · exact List.mem_of_mem_take hpk
      · exact List.mem_of_mem_drop (ih hslice)

theorem indexed_of_batches {slices : List (List κ)}
    (h : Indexed (slices.foldl
      (fun store slice => writeBatch engine view store (loadBatch store.rows slice)) store) pk) :
    Indexed store pk ∨ ∃ slice ∈ slices, pk ∈ slice := by
  induction slices generalizing store with
  | nil => exact .inl h
  | cons slice slices ih =>
    rcases ih h with h | ⟨other, hother, hpk⟩
    · rcases indexed_of_writeBatch h with h | h
      · exact .inl h
      · obtain ⟨obj, hobj, rfl⟩ := List.mem_map.mp h
        exact .inr ⟨slice, List.mem_cons_self, (mem_loadBatch.mp hobj).2⟩
    · exact .inr ⟨other, List.mem_cons_of_mem _ hother, hpk⟩

/-- Indexing batches of keys adds entries for these keys only. -/
theorem indexed_of_indexBatches {chunkSize : ℕ} {pks : List κ}
    (h : Indexed (indexBatches engine view chunkSize pks store) pk) :
    Indexed store pk ∨ pk ∈ pks := by
  rcases indexed_of_batches h with h | ⟨slice, hslice, hpk⟩
  · exact .inl h
  · exact .inr (mem_of_mem_slices hslice hpk)

theorem indexed_of_onDelete {other : κ} (h : Indexed (onDelete engine pk store) other) :
    Indexed store other ∧ other ≠ pk := by
  have hmem : other ∈ (deleteEntries pk store.entries).map Prod.fst := by
    cases engine with
    | sqlite => exact h
    | postgres => exact h
  obtain ⟨e, he, rfl⟩ := List.mem_map.mp hmem
  have hkept := mem_deleteEntries.mp he
  exact ⟨List.mem_map_of_mem hkept.1, hkept.2⟩

end CwStation.SearchIndex
