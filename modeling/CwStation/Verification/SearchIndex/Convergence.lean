import CwStation.Verification.SearchIndex.Entries
import Mathlib.Data.List.Induction

/-! # The SQLite index among processes that change rows while it is rebuilt -/

namespace CwStation.SearchIndex

open Table (get)

variable {κ ρ : Type} [DecidableEq κ] {view : View ρ} {store : Store κ ρ} {pk other : κ} {row : ρ}

/-! ## Entries of one key -/

/-- The texts of the entries a key has. -/
def textsOf (entries : List (κ × List Str)) (pk : κ) : List (List Str) :=
  (entries.filter fun e => e.1 = pk).map Prod.snd

theorem textsOf_deleteEntries (entries : List (κ × List Str)) (pk other : κ) :
    textsOf (deleteEntries pk entries) other = if other = pk then [] else textsOf entries other := by
  unfold textsOf deleteEntries
  rw [List.filter_filter]
  split
  · rename_i heq
    rw [heq]
    simp
  · rename_i hne
    congr 1
    apply List.filter_congr
    intro e _
    by_cases he : e.1 = other
    · simp [he, hne]
    · simp [he]

theorem textsOf_putEntry (entries : List (κ × List Str)) (pk other : κ) (texts : List Str) :
    textsOf (putEntry pk texts entries) other =
      if other = pk then [texts] else textsOf entries other := by
  have hdelete := textsOf_deleteEntries entries pk other
  unfold putEntry
  unfold textsOf at hdelete ⊢
  rw [List.filter_append, List.map_append, hdelete]
  by_cases heq : other = pk
  · simp [heq]
  · simp [heq, Ne.symm heq]

/-! ## Rows -/

theorem get_saveRow (rows : List (κ × ρ)) (pk other : κ) (row : ρ) :
    get Prod.fst (saveRow pk row rows) other =
      if other = pk then some (pk, row) else get Prod.fst rows other := by
  unfold saveRow
  split
  · rename_i hmem
    obtain ⟨r, hr, hkey⟩ := List.mem_map.mp hmem
    have hsome : (get Prod.fst rows pk).isSome = true := Table.get_isSome_iff.mpr ⟨r, hr, hkey⟩
    obtain ⟨old, hold⟩ := Option.isSome_iff_exists.mp hsome
    have hkeeps : ∀ r : κ × ρ, r.1 = pk → (pk, row).1 = pk := fun _ _ => rfl
    rw [Table.get_alter_of hkeeps, hold]
    rfl
  · rename_i hmem
    by_cases heq : other = pk
    · have hnone : get Prod.fst rows pk = none := by
        apply Table.get_eq_none_iff.mpr
        intro r hr hkey
        exact hmem (hkey ▸ List.mem_map_of_mem hr)
      rw [heq, Table.get_append, hnone]
      simp
    · rw [Table.get_append_of_ne _ (Ne.symm heq), if_neg heq]

theorem get_deleted (rows : List (κ × ρ)) (pk other : κ) :
    get Prod.fst (rows.filter fun r => r.1 ≠ pk) other =
      if other = pk then none else get Prod.fst rows other := by
  split
  · rename_i heq
    apply Table.get_eq_none_iff.mpr
    intro r hr hkey
    have hne := (List.mem_filter.mp hr).2
    simp [hkey, heq] at hne
  · rename_i hne
    apply Table.get_filter
    intro r _ hkey
    simp [hkey, hne]

theorem unique_saveRow {rows : List (κ × ρ)} (h : Table.Unique Prod.fst rows) (pk : κ) (row : ρ) :
    Table.Unique Prod.fst (saveRow pk row rows) := by
  unfold saveRow
  split
  · unfold Table.Unique at h ⊢
    rw [Table.alter, List.map_map]
    convert h using 1
    apply List.map_congr_left
    intro r _
    by_cases hr : r.1 = pk
    · simp [hr]
    · simp [hr]
  · rename_i hmem
    apply h.append
    apply Table.get_eq_none_iff.mpr
    intro r hr (hkey : r.1 = pk)
    exact hmem (hkey ▸ List.mem_map_of_mem hr)

omit [DecidableEq κ] in
theorem unique_filter {rows : List (κ × ρ)} (h : Table.Unique Prod.fst rows) (p : κ × ρ → Bool) :
    Table.Unique Prod.fst (rows.filter p) :=
  h.sublist (List.filter_sublist.map Prod.fst)

theorem row_eq_some : store.row pk = some row ↔ get Prod.fst store.rows pk = some (pk, row) := by
  unfold Store.row
  constructor
  · intro h
    obtain ⟨r, hr, rfl⟩ := Option.map_eq_some_iff.mp h
    rw [hr]
    have hkey := Table.key_of_get hr
    rw [← hkey]
  · intro h
    rw [h]
    rfl

/-! ## What is up to date, and what a call has yet to index -/

/-- The index has one entry for an existing row, with the row's current values, and none for a
row that does not exist. -/
def Current (view : View ρ) (store : Store κ ρ) (pk : κ) : Prop :=
  textsOf store.entries pk = ((store.row pk).map (extractValues view)).toList

/-- Whether a call that is to list its rows lists this one. -/
def Objects.Selects (pk : κ) (row : ρ) : Objects κ ρ → Prop
  | .all => True
  | .queryset p => p pk row = true
  | .keys pks => pk ∈ pks

/-- A call has yet to index a row, or to clear the index. -/
def Job.Owes (store : Store κ ρ) (pk : κ) (job : Job κ ρ) : Prop :=
  match job.phase with
  | .clear => True
  | .list objects => ∃ row, store.row pk = some row ∧ objects.Selects pk row
  | .load pks => (store.row pk).isSome = true ∧ pk ∈ pks
  | .write batch pks => (store.row pk).isSome = true ∧ (pk ∈ batch.map Prod.fst ∨ pk ∈ pks)

/-- The rows a call has loaded still have the texts they had. -/
def Job.Fresh (view : View ρ) (store : Store κ ρ) (job : Job κ ρ) : Prop :=
  ∀ batch pks, job.phase = .write batch pks → ∀ obj ∈ batch, ∃ row, store.row obj.1 = some row ∧
    extractValues view row = extractValues view obj.2

/-- Every row is up to date in the index, or a call has yet to index it. -/
structure Converging (view : View ρ) (system : System κ ρ) : Prop where
  unique : Table.Unique Prod.fst system.store.rows
  fresh : ∀ job ∈ system.jobs, job.Fresh view system.store
  owed : ∀ pk, Current view system.store pk ∨ ∃ job ∈ system.jobs, job.Owes system.store pk

theorem Job.Owes.congr {job : Job κ ρ} {store' : Store κ ρ} (hrow : store'.row pk = store.row pk)
    (h : job.Owes store pk) : job.Owes store' pk := by
  unfold Job.Owes at h ⊢
  rwa [hrow]

theorem Current.congr {store' : Store κ ρ} (hrow : store'.row pk = store.row pk)
    (htexts : textsOf store'.entries pk = textsOf store.entries pk) (h : Current view store pk) :
    Current view store' pk := by
  unfold Current at h ⊢
  rw [htexts, hrow, h]

/-! ## Writing a batch -/

theorem textsOf_writeBatch_of_not_mem {batch : List (κ × ρ)} (h : pk ∉ batch.map Prod.fst) :
    textsOf (writeBatch .sqlite view store batch).entries pk = textsOf store.entries pk := by
  induction batch generalizing store with
  | nil => rfl
  | cons obj batch ih =>
    rw [List.map_cons, List.mem_cons, not_or] at h
    refine (ih h.2).trans ?_
    exact (textsOf_putEntry store.entries obj.1 pk _).trans (if_neg h.1)

theorem textsOf_writeBatch_of_mem {batch : List (κ × ρ)} {texts : List Str}
    (htexts : ∀ obj ∈ batch, obj.1 = pk → extractValues view obj.2 = texts)
    (h : pk ∈ batch.map Prod.fst) :
    textsOf (writeBatch .sqlite view store batch).entries pk = [texts] := by
  induction batch generalizing store with
  | nil => simp at h
  | cons obj batch ih =>
    have hrest : ∀ o ∈ batch, o.1 = pk → extractValues view o.2 = texts :=
      fun o ho => htexts o (List.mem_cons_of_mem _ ho)
    by_cases hmem : pk ∈ batch.map Prod.fst
    · exact ih hrest hmem
    · have hobj : pk = obj.1 := (List.mem_cons.mp h).resolve_right hmem
      refine (textsOf_writeBatch_of_not_mem hmem).trans ?_
      refine (textsOf_putEntry store.entries obj.1 pk _).trans ?_
      rw [if_pos hobj, htexts obj List.mem_cons_self hobj.symm]

/-- A batch of fresh rows brings their entries up to date. -/
theorem current_writeBatch {batch : List (κ × ρ)}
    (hfresh : ∀ obj ∈ batch, ∃ row, store.row obj.1 = some row ∧
      extractValues view row = extractValues view obj.2) (h : pk ∈ batch.map Prod.fst) :
    Current view (writeBatch .sqlite view store batch) pk := by
  obtain ⟨obj, hobj, rfl⟩ := List.mem_map.mp h
  obtain ⟨row, hrow, hvalues⟩ := hfresh obj hobj
  have htexts : ∀ o ∈ batch, o.1 = obj.1 → extractValues view o.2 = extractValues view row := by
    intro o ho hkey
    obtain ⟨row', hrow', hvalues'⟩ := hfresh o ho
    rw [hkey, hrow] at hrow'
    obtain rfl := Option.some.inj hrow'
    exact hvalues'.symm
  have hsame : (writeBatch .sqlite view store batch).row obj.1 = some row := by
    rw [Store.row, rows_writeBatch]
    exact hrow
  rw [Current, textsOf_writeBatch_of_mem htexts h, hsame]
  rfl

/-! ## A call goes on -/

theorem mem_resolvePks {objects : Objects κ ρ} (hrow : store.row pk = some row)
    (h : objects.Selects pk row) : pk ∈ resolvePks store.rows objects := by
  have hmem : (pk, row) ∈ store.rows := Table.get_mem (row_eq_some.mp hrow)
  cases objects with
  | all => exact List.mem_map_of_mem hmem
  | queryset p =>
    have hkept : p (pk, row).1 (pk, row).2 = true := h
    exact List.mem_map_of_mem (List.mem_filter.mpr ⟨hmem, hkept⟩)
  | keys pks => exact h

theorem rows_advance (view : View ρ) (store : Store κ ρ) (job : Job κ ρ) :
    (job.advance view store).2.rows = store.rows := by
  unfold Job.advance
  split
  · rfl
  · rfl
  · rfl
  · rfl
  · exact rows_writeBatch _ _ _ _

theorem row_advance (view : View ρ) (store : Store κ ρ) (job : Job κ ρ) (pk : κ) :
    (job.advance view store).2.row pk = store.row pk := by
  rw [Store.row, rows_advance]
  rfl

/-- What is up to date stays so, but for a cleared index, which the call has yet to fill. -/
theorem advance_of_current {job : Job κ ρ} (hfresh : job.Fresh view store)
    (h : Current view store pk) :
    Current view (job.advance view store).2 pk ∨
      (job.advance view store).1.Owes (job.advance view store).2 pk := by
  obtain ⟨phase, chunkSize⟩ := job
  cases phase with
  | clear =>
    cases hrow : store.row pk with
    | none =>
      left
      have hnone : ({ store with entries := [] } : Store κ ρ).row pk = none := hrow
      simp [Job.advance, Current, hnone, textsOf]
    | some row => exact .inr ⟨row, hrow, trivial⟩
  | list objects => exact .inl h
  | load pks =>
    cases pks with
    | nil => exact .inl h
    | cons first pks => exact .inl h
  | write batch pks =>
    left
    by_cases hmem : pk ∈ batch.map Prod.fst
    · exact current_writeBatch (hfresh batch pks rfl) hmem
    · exact h.congr (row_advance view store _ pk) (textsOf_writeBatch_of_not_mem hmem)

/-- What a call has yet to index it indexes now, or later. -/
theorem advance_of_owes {job : Job κ ρ} (hfresh : job.Fresh view store)
    (h : job.Owes store pk) :
    Current view (job.advance view store).2 pk ∨
      (job.advance view store).1.Owes (job.advance view store).2 pk := by
  obtain ⟨phase, chunkSize⟩ := job
  cases phase with
  | clear =>
    cases hrow : store.row pk with
    | none =>
      left
      have hnone : ({ store with entries := [] } : Store κ ρ).row pk = none := hrow
      simp [Job.advance, Current, hnone, textsOf]
    | some row => exact .inr ⟨row, hrow, trivial⟩
  | list objects =>
    obtain ⟨row, hrow, hselects⟩ := h
    exact .inr ⟨by simp [Job.advance, hrow], mem_resolvePks hrow hselects⟩
  | load pks =>
    cases pks with
    | nil => exact .inr h
    | cons first pks =>
      obtain ⟨hrow, hmem⟩ := h
      refine .inr ⟨hrow, ?_⟩
      rw [← List.take_append_drop chunkSize (first :: pks)] at hmem
      rcases List.mem_append.mp hmem with hmem | hmem
      · left
        obtain ⟨row, hsome⟩ := Option.isSome_iff_exists.mp hrow
        have hloaded := Table.get_mem (row_eq_some.mp hsome)
        exact List.mem_map_of_mem (mem_loadBatch.mpr ⟨hloaded, hmem⟩)
      · exact .inr hmem
  | write batch pks =>
    obtain ⟨hrow, hmem⟩ := h
    rcases hmem with hmem | hmem
    · exact .inl (current_writeBatch (hfresh batch pks rfl) hmem)
    · refine .inr ⟨?_, hmem⟩
      rwa [row_advance]

theorem advance_fresh (job : Job κ ρ) (hunique : Table.Unique Prod.fst store.rows)
    (hfresh : job.Fresh view store) :
    (job.advance view store).1.Fresh view (job.advance view store).2 := by
  obtain ⟨phase, chunkSize⟩ := job
  intro batch pks hphase obj hobj
  rw [row_advance]
  cases phase with
  | clear => cases hphase
  | list objects => cases hphase
  | load keys =>
    cases keys with
    | nil => cases hphase
    | cons first keys =>
      cases hphase
      have hrow := Table.get_of_mem hunique (mem_loadBatch.mp hobj).1
      exact ⟨obj.2, row_eq_some.mpr hrow, rfl⟩
  | write batch' pks' => cases hphase

/-! ## Events -/

/-- An event leaves the rows alone that a call has loaded and not yet written: it does not change
their texts and does not delete them. -/
def Event.Clear (view : View ρ) (system : System κ ρ) : Event κ ρ → Prop
  | .save pk row => ∀ job ∈ system.jobs, ∀ batch pks, job.phase = .write batch pks →
      ∀ obj ∈ batch, obj.1 = pk → extractValues view row = extractValues view obj.2
  | .delete pk => ∀ job ∈ system.jobs, ∀ batch pks, job.phase = .write batch pks →
      ∀ obj ∈ batch, obj.1 ≠ pk
  | .advance _ => True

theorem row_onSave (view : View ρ) (store : Store κ ρ) (pk other : κ) (row : ρ) :
    (onSave .sqlite view pk row store).row other =
      if other = pk then some row else store.row other := by
  have hrow : (onSave .sqlite view pk row store).row other =
      (get Prod.fst (saveRow pk row store.rows) other).map Prod.snd := rfl
  rw [hrow, get_saveRow]
  split
  · rfl
  · rfl

theorem textsOf_onSave (view : View ρ) (store : Store κ ρ) (pk other : κ) (row : ρ) :
    textsOf (onSave .sqlite view pk row store).entries other =
      if other = pk then [extractValues view row] else textsOf store.entries other :=
  textsOf_putEntry store.entries pk other _

theorem row_onDelete (store : Store κ ρ) (pk other : κ) :
    (onDelete .sqlite pk store).row other = if other = pk then none else store.row other := by
  have hrow : (onDelete .sqlite pk store).row other =
      (get Prod.fst (store.rows.filter fun r => r.1 ≠ pk) other).map Prod.snd := rfl
  rw [hrow, get_deleted]
  split
  · rfl
  · rfl

theorem textsOf_onDelete (store : Store κ ρ) (pk other : κ) :
    textsOf (onDelete .sqlite pk store).entries other =
      if other = pk then [] else textsOf store.entries other :=
  textsOf_deleteEntries store.entries pk other

/-- A change of one row that brings its entry up to date, and leaves the rows alone that are
loaded. -/
theorem Converging.change {system : System κ ρ} {store' : Store κ ρ}
    (h : Converging view system) (pk : κ) (hunique : Table.Unique Prod.fst store'.rows)
    (hrow : ∀ other, other ≠ pk → store'.row other = system.store.row other)
    (htexts : ∀ other, other ≠ pk →
      textsOf store'.entries other = textsOf system.store.entries other)
    (hcurrent : Current view store' pk)
    (hfresh : ∀ job ∈ system.jobs, ∀ batch pks, job.phase = .write batch pks →
      ∀ obj ∈ batch, obj.1 = pk → ∃ row, store'.row pk = some row ∧
        extractValues view row = extractValues view obj.2) :
    Converging view { system with store := store' } where
  unique := hunique
  fresh := by
    intro job hjob batch pks hphase obj hobj
    by_cases hkey : obj.1 = pk
    · rw [hkey]
      exact hfresh job hjob batch pks hphase obj hobj hkey
    · obtain ⟨row, hold, hvalues⟩ := h.fresh job hjob batch pks hphase obj hobj
      exact ⟨row, (hrow obj.1 hkey).trans hold, hvalues⟩
  owed := by
    intro other
    by_cases hother : other = pk
    · rw [hother]
      exact .inl hcurrent
    · rcases h.owed other with hold | ⟨job, hjob, howes⟩
      · exact .inl (hold.congr (hrow other hother) (htexts other hother))
      · exact .inr ⟨job, hjob, howes.congr (hrow other hother)⟩

theorem Converging.save {system : System κ ρ} (h : Converging view system)
    (hclear : (Event.save pk row).Clear view system) :
    Converging view (system.next view (.save pk row)) := by
  have hsaved := row_onSave view system.store pk pk row
  rw [if_pos rfl] at hsaved
  apply h.change pk
  · have hrows : (onSave .sqlite view pk row system.store).rows =
        saveRow pk row system.store.rows := rfl
    rw [hrows]
    exact unique_saveRow h.unique pk row
  · intro other hother
    rw [row_onSave, if_neg hother]
  · intro other hother
    rw [textsOf_onSave, if_neg hother]
  · rw [Current, textsOf_onSave, if_pos rfl, hsaved]
    rfl
  · intro job hjob batch pks hphase obj hobj hkey
    exact ⟨row, hsaved, hclear job hjob batch pks hphase obj hobj hkey⟩

theorem Converging.delete {system : System κ ρ} (h : Converging view system)
    (hclear : (Event.delete pk).Clear view system) :
    Converging view (system.next view (.delete pk)) := by
  apply h.change pk
  · exact unique_filter h.unique _
  · intro other hother
    rw [row_onDelete, if_neg hother]
  · intro other hother
    rw [textsOf_onDelete, if_neg hother]
  · rw [Current, textsOf_onDelete, if_pos rfl, row_onDelete, if_pos rfl]
    rfl
  · intro job hjob batch pks hphase obj hobj hkey
    exact absurd hkey (hclear job hjob batch pks hphase obj hobj)

theorem Converging.advance {system : System κ ρ} (h : Converging view system) (i : ℕ) :
    Converging view (system.next view (.advance i)) := by
  cases hjob : system.jobs[i]? with
  | none => simpa [System.next, hjob] using h
  | some job =>
    have hnext : system.next view (.advance i) =
        { store := (job.advance view system.store).2
          jobs := system.jobs.set i (job.advance view system.store).1 } := by
      simp [System.next, hjob]
    obtain ⟨hi, hget⟩ := List.getElem?_eq_some_iff.mp hjob
    have hmem : job ∈ system.jobs := List.mem_of_getElem? hjob
    have hset := List.mem_set hi (job.advance view system.store).1
    rw [hnext]
    refine ⟨?_, ?_, ?_⟩
    · rw [rows_advance]
      exact h.unique
    · intro other hother
      rcases List.mem_or_eq_of_mem_set hother with hother | rfl
      · intro batch pks hphase obj hobj
        rw [row_advance]
        exact h.fresh other hother batch pks hphase obj hobj
      · exact advance_fresh job h.unique (h.fresh job hmem)
    · intro pk
      rcases h.owed pk with hcurrent | ⟨other, hother, howes⟩
      · rcases advance_of_current (h.fresh job hmem) hcurrent with hdone | howes
        · exact .inl hdone
        · exact .inr ⟨_, hset, howes⟩
      · obtain ⟨k, hk⟩ := List.mem_iff_getElem?.mp hother
        by_cases hik : i = k
        · rw [hik, hk] at hjob
          obtain rfl := Option.some.inj hjob
          rcases advance_of_owes (h.fresh other hmem) howes with hdone | howes
          · exact .inl hdone
          · exact .inr ⟨_, hset, howes⟩
        · refine .inr ⟨other, ?_, howes.congr (row_advance view system.store job pk)⟩
          apply List.mem_of_getElem?
          rw [List.getElem?_set_ne hik]
          exact hk

theorem Converging.next {system : System κ ρ} {event : Event κ ρ} (h : Converging view system)
    (hclear : event.Clear view system) : Converging view (system.next view event) := by
  cases event with
  | save pk row => exact h.save hclear
  | delete pk => exact h.delete hclear
  | advance i => exact h.advance i

/-! ## Runs -/

/-- Events that are all clear when they come. -/
def ClearEvents (view : View ρ) (system : System κ ρ) : List (Event κ ρ) → Prop
  | [] => True
  | event :: events =>
      event.Clear view system ∧ ClearEvents view (system.next view event) events

theorem Converging.after {system : System κ ρ} {events : List (Event κ ρ)}
    (h : Converging view system) (hclear : ClearEvents view system events) :
    Converging view (system.after view events) := by
  induction events generalizing system with
  | nil => exact h
  | cons event events ih => exact ih (h.next hclear.1) hclear.2

/-- The calls of `rebuild` and `reindex_instances` have not begun, and index every row that is
not up to date. -/
structure Started (view : View ρ) (system : System κ ρ) : Prop where
  unique : Table.Unique Prod.fst system.store.rows
  called : ∀ job ∈ system.jobs, job = .rebuild ∨ ∃ objects n, job = .reindex objects n
  owed : ∀ pk, Current view system.store pk ∨ ∃ job ∈ system.jobs, job.Owes system.store pk

theorem Started.converging {system : System κ ρ} (h : Started view system) :
    Converging view system where
  unique := h.unique
  fresh := by
    intro job hjob batch pks hphase
    rcases h.called job hjob with rfl | ⟨objects, n, rfl⟩
    · cases hphase
    · cases hphase
  owed := h.owed

/-- Once the calls have finished, the index is up to date, if no row was changed or deleted
between the load and the write of its batch. -/
theorem index_converges {system : System κ ρ} {events : List (Event κ ρ)}
    (hstart : Started view system) (hclear : ClearEvents view system events)
    (hdone : ∀ job ∈ (system.after view events).jobs, job.Finished) (pk : κ) :
    Current view (system.after view events).store pk := by
  rcases (hstart.converging.after hclear).owed pk with hcurrent | ⟨job, hjob, howes⟩
  · exact hcurrent
  · have hphase : job.phase = .load [] := hdone job hjob
    rw [Job.Owes, hphase] at howes
    exact absurd howes.2 List.not_mem_nil

/-! ## Rebuilding an index of titles -/

def titleView : View Str where
  fields := ["title".toList]
  text title _ := title
  castText title _ := title
  setBased := true

/-- A table of one row, an empty index, and a call of `rebuild`. -/
def rebuilding : System ℕ Str where
  store := { rows := [(1, "old".toList)] }
  jobs := [.rebuild]

theorem started_rebuilding : Started titleView rebuilding where
  unique := by simp [Table.Unique, rebuilding]
  called job hjob := .inl (List.mem_singleton.mp hjob)
  owed _ := .inr ⟨.rebuild, List.mem_cons_self, trivial⟩

/-- A row that is saved while the keys are listed ends up in the index. -/
theorem early_save_indexed :
    Current titleView (rebuilding.after titleView
      [.advance 0, .advance 0, .save 1 "new".toList, .advance 0, .advance 0]).store 1 := by
  refine index_converges started_rebuilding ?_ ?_ 1
  · refine ⟨trivial, trivial, ?_, trivial, trivial, trivial⟩
    intro job hjob batch pks hphase
    rw [List.mem_singleton.mp hjob] at hphase
    cases hphase
  · intro job hjob
    rw [List.mem_singleton.mp hjob]
    rfl

/-- The row is changed by another process between the load and the write of its batch. -/
def lateChange (change : Event ℕ Str) : System ℕ Str :=
  rebuilding.after titleView [.advance 0, .advance 0, .advance 0, change, .advance 0]

/-- If it is saved, it keeps its old text in the index; if it is deleted, its entry comes back. -/
theorem late_change_overwritten :
    (∀ job ∈ (lateChange (.save 1 "new".toList)).jobs, job.Finished) ∧
      ¬Current titleView (lateChange (.save 1 "new".toList)).store 1 ∧
      (∀ job ∈ (lateChange (.delete 1)).jobs, job.Finished) ∧
      ¬Current titleView (lateChange (.delete 1)).store 1 := by
  refine ⟨?_, ?_, ?_, ?_⟩
  · intro job hjob
    rw [List.mem_singleton.mp hjob]
    rfl
  · unfold Current
    decide +kernel
  · intro job hjob
    rw [List.mem_singleton.mp hjob]
    rfl
  · unfold Current
    decide +kernel

end CwStation.SearchIndex
