import CwStation.Library.Table
import CwStation.Model.Floats
import CwStation.Model.Python

/-! # The search index: the backends, the signals and `maintenance.py`

One indexed view over one table, with rows of any kind under keys of any kind. -/

namespace CwStation.SearchIndex

variable {κ ρ : Type} [DecidableEq κ]

/-- What the backends read of an `IndexedView` and its rows. -/
structure View (ρ : Type) where
  fields : List Str
  /-- `str(_resolve_field(obj, field) or "")`. -/
  text : ρ → Str → Str
  /-- `coalesce(column::text, '')`. -/
  castText : ρ → Str → Str
  /-- Whether `_set_based_columns` finds a column for every field. -/
  setBased : Bool

/-- `_extract_values`. -/
def extractValues (view : View ρ) (row : ρ) : List Str := view.fields.map (view.text row)

inductive Engine
  | sqlite
  | postgres
  deriving DecidableEq

/-- The table, and what the index holds: the rows of the FTS5 table, or on Postgres the search
vectors that are not `NULL`, each with the texts it was made of. -/
structure Store (κ ρ : Type) where
  rows : List (κ × ρ)
  entries : List (κ × List Str) := []

/-- The row with a key. -/
def Store.row (store : Store κ ρ) (pk : κ) : Option ρ :=
  (Table.get Prod.fst store.rows pk).map Prod.snd

/-- The primary keys, in the order of the table. -/
def Store.pks (store : Store κ ρ) : List κ := store.rows.map Prod.fst

/-! ## One row -/

/-- `DELETE … WHERE object_id = pk`. -/
def deleteEntries (pk : κ) (entries : List (κ × List Str)) : List (κ × List Str) :=
  entries.filter fun e => e.1 ≠ pk

/-- Delete and insert, or the `UPDATE` of a vector. -/
def putEntry (pk : κ) (texts : List Str) (entries : List (κ × List Str)) : List (κ × List Str) :=
  deleteEntries pk entries ++ [(pk, texts)]

/-- `index_object`. On Postgres the vector is a column of the row. -/
def indexObject (engine : Engine) (view : View ρ) (store : Store κ ρ) (obj : κ × ρ) :
    Store κ ρ :=
  match engine with
  | .sqlite =>
      { store with entries := putEntry obj.1 (extractValues view obj.2) store.entries }
  | .postgres =>
      if view.fields = [] ∨ obj.1 ∉ store.pks then store
      else { store with entries := putEntry obj.1 (extractValues view obj.2) store.entries }

/-- `remove_object`. -/
def removeObject (engine : Engine) (store : Store κ ρ) (pk : κ) : Store κ ρ :=
  match engine with
  | .sqlite => { store with entries := deleteEntries pk store.entries }
  | .postgres => store

/-- The `INSERT` or `UPDATE` of a `save()`. -/
def saveRow (pk : κ) (row : ρ) (rows : List (κ × ρ)) : List (κ × ρ) :=
  if pk ∈ rows.map Prod.fst then Table.alter Prod.fst pk (fun _ => (pk, row)) rows
  else rows ++ [(pk, row)]

/-- The `DELETE` of a row, with whatever column it has. -/
def deleteRow (engine : Engine) (pk : κ) (store : Store κ ρ) : Store κ ρ where
  rows := store.rows.filter fun r => r.1 ≠ pk
  entries :=
    match engine with
    | .sqlite => store.entries
    | .postgres => deleteEntries pk store.entries

/-- A `save()` and `_on_save`. -/
def onSave (engine : Engine) (view : View ρ) (pk : κ) (row : ρ) (store : Store κ ρ) :
    Store κ ρ :=
  indexObject engine view { store with rows := saveRow pk row store.rows } (pk, row)

/-- A `delete()` and `_on_delete`. -/
def onDelete (engine : Engine) (pk : κ) (store : Store κ ρ) : Store κ ρ :=
  removeObject engine (deleteRow engine pk store) pk

/-! ## Many rows -/

/-- The `objects` of `reindex_instances`. -/
inductive Objects (κ ρ : Type)
  | all
  | queryset (p : κ → ρ → Bool)
  /-- Instances or their keys. -/
  | keys (pks : List κ)

/-- `_resolve_pks`. -/
def resolvePks (rows : List (κ × ρ)) : Objects κ ρ → List κ
  | .all => rows.map Prod.fst
  | .queryset p => (rows.filter fun r => p r.1 r.2).map Prod.fst
  | .keys pks => pks

/-- `_default_manager.filter(pk__in=pks)`. -/
def loadBatch (rows : List (κ × ρ)) (pks : List κ) : List (κ × ρ) :=
  rows.filter fun r => r.1 ∈ pks

/-- The loop over the rows of a batch. -/
def writeBatch (engine : Engine) (view : View ρ) (store : Store κ ρ) (batch : List (κ × ρ)) :
    Store κ ρ :=
  batch.foldl (indexObject engine view) store

/-- The slices of a list of keys, as many as there is fuel for. -/
def slices (chunkSize : ℕ) : ℕ → List κ → List (List κ)
  | 0, _ => []
  | fuel + 1, pks =>
      if pks = [] then [] else pks.take chunkSize :: slices chunkSize fuel (pks.drop chunkSize)

/-- The batches one after the other. -/
def indexBatches (engine : Engine) (view : View ρ) (chunkSize : ℕ) (pks : List κ)
    (store : Store κ ρ) : Store κ ρ :=
  (slices chunkSize pks.length pks).foldl
    (fun store slice => writeBatch engine view store (loadBatch store.rows slice)) store

/-- `reindex_instances`, for a view that is searchable. -/
def reindexInstances (engine : Engine) (view : View ρ) (objects : Objects κ ρ) (chunkSize : ℕ)
    (store : Store κ ρ) : Store κ ρ :=
  indexBatches engine view chunkSize (resolvePks store.rows objects) store

/-- `_rebuild_set_based`. -/
def rebuildSetBased (view : View ρ) (store : Store κ ρ) : Store κ ρ :=
  { store with
    entries := store.rows.map fun r => (r.1, view.fields.map (view.castText r.2)) }

/-- `chunk_size` of `rebuild`. -/
def rebuildChunkSize : ℕ := 500

/-- `rebuild`, with no one else at work. -/
def rebuild (engine : Engine) (view : View ρ) (store : Store κ ρ) : Store κ ρ :=
  match engine with
  | .sqlite =>
      indexBatches .sqlite view rebuildChunkSize store.pks { store with entries := [] }
  | .postgres =>
      if view.setBased then rebuildSetBased view store
      else indexBatches .postgres view rebuildChunkSize store.pks store

/-! ## Queries -/

/-- The database's search: which texts a query matches and in which order the entries come. -/
structure Matching (κ : Type) where
  found : Str → List Str → Bool
  order : Str → List (κ × List Str) → List (κ × List Str)
  order_mem : ∀ query entries, ∀ e ∈ order query entries, e ∈ entries

/-- The rows `query` makes hits of. -/
def query (matching : Matching κ) (store : Store κ ρ) (text : Str) (limit : ℕ) : List (κ × ρ) :=
  let matched := store.entries.filter fun e => matching.found text e.2
  ((matching.order text matched).take limit).filterMap fun e =>
    Table.get Prod.fst store.rows e.1

/-! ## Columns and their weights on SQLite -/

/-- A number that a view gives as a weight. -/
inductive Weight
  | int (n : ℤ)
  | float (x : Float64)
  deriving DecidableEq

/-- `float(w)`. -/
def Weight.toFloat : Weight → Except PyExc Float64
  | .int n =>
      match Float64.ofRat n with
      | .num x => .ok (.num x)
      | _ => .error ⟨.overflowError, "int too large to convert to float"⟩
  | .float x => .ok x

/-- What the columns of an index and their weights are made of. -/
structure Ranked where
  fields : List Str
  weights : List (Str × Weight) := []

/-- `float(view.weights.get(f, 1))`. -/
def Ranked.weight (view : Ranked) (f : Str) : Except PyExc Float64 :=
  ((view.weights.lookup f).getD (.int 1)).toFloat

/-- `expected` of `ensure_index`. -/
def Ranked.columns (view : Ranked) : List Str := "object_id".toList :: view.fields

/-- `ensure_index`, given which columns FTS5 makes a table of and the columns of the table that
is there. -/
def ensureIndex (accepts : List Str → Bool) (view : Ranked) (existing : Option (List Str)) :
    Bool × Option (List Str) :=
  if existing = some view.columns then (true, existing)
  else if accepts view.columns then (true, some view.columns)
  else (false, none)

/-- `_bm25_weights`, before the weights are written out. -/
def bm25Weights (view : Ranked) : Except PyExc (List Float64) := view.fields.mapM view.weight

/-- Whether SQL reads `str(x)` as a number: `nan` and `inf` are names to it. -/
def isLiteral : Float64 → Bool
  | .num _ => true
  | _ => false

/-- The weights of the `bm25` call of `query`, `none` where there is no such call. -/
def issuedWeights (view : Ranked) : Option (List Float64) :=
  match bm25Weights view with
  | .ok args => if args.all isLiteral then some args else none
  | .error _ => none

/-- The weight that FTS5 gives the `i`-th column: the `i`-th argument, or else 1. -/
def columnWeight (args : List Float64) (i : ℕ) : Float64 := args.getD i (Float64.ofRat 1)

/-! ## Runs without concurrency -/

/-- What happens to the table and the index. -/
inductive Step (κ ρ : Type)
  | save (pk : κ) (row : ρ)
  | delete (pk : κ)
  | reindex (objects : Objects κ ρ) (chunkSize : ℕ)
  | rebuild

def Step.apply (engine : Engine) (view : View ρ) (store : Store κ ρ) : Step κ ρ → Store κ ρ
  | .save pk row => onSave engine view pk row store
  | .delete pk => onDelete engine pk store
  | .reindex objects chunkSize => reindexInstances engine view objects chunkSize store
  | .rebuild => SearchIndex.rebuild engine view store

def run (engine : Engine) (view : View ρ) (store : Store κ ρ) (steps : List (Step κ ρ)) :
    Store κ ρ :=
  steps.foldl (Step.apply engine view) store

/-! ## Maintenance among other processes, on SQLite -/

/-- What a call of `rebuild` or `reindex_instances` has yet to do. -/
inductive Phase (κ ρ : Type)
  /-- Clearing the index. -/
  | clear
  /-- Listing the keys. -/
  | list (objects : Objects κ ρ)
  /-- Loading a batch of these keys, if any are left. -/
  | load (pks : List κ)
  /-- Writing the batch. -/
  | write (batch : List (κ × ρ)) (pks : List κ)

/-- A call with its `chunk_size`, which is positive (`range` takes no other). -/
structure Job (κ ρ : Type) where
  phase : Phase κ ρ
  chunkSize : ℕ := rebuildChunkSize

/-- `rebuild`, called. -/
def Job.rebuild : Job κ ρ := { phase := .clear }

/-- `reindex_instances`, called. -/
def Job.reindex (objects : Objects κ ρ) (chunkSize : ℕ) : Job κ ρ where
  phase := .list objects
  chunkSize := chunkSize

/-- The next step of a call. -/
def Job.advance (view : View ρ) (store : Store κ ρ) (job : Job κ ρ) : Job κ ρ × Store κ ρ :=
  match job.phase with
  | .clear => ({ job with phase := .list .all }, { store with entries := [] })
  | .list objects => ({ job with phase := .load (resolvePks store.rows objects) }, store)
  | .load [] => (job, store)
  | .load pks =>
      ({ job with
        phase := .write (loadBatch store.rows (pks.take job.chunkSize)) (pks.drop job.chunkSize) },
        store)
  | .write batch pks => ({ job with phase := .load pks }, writeBatch .sqlite view store batch)

/-- Whether a call has returned. -/
def Job.Finished (job : Job κ ρ) : Prop := job.phase = .load []

/-- The database and the calls that work on the index. -/
structure System (κ ρ : Type) where
  store : Store κ ρ
  jobs : List (Job κ ρ)

/-- A step of the system: another process saves or deletes a row, which commits the row and the
index together, or a call goes on. -/
inductive Event (κ ρ : Type)
  | save (pk : κ) (row : ρ)
  | delete (pk : κ)
  | advance (i : ℕ)

def System.next (view : View ρ) (system : System κ ρ) : Event κ ρ → System κ ρ
  | .save pk row => { system with store := onSave .sqlite view pk row system.store }
  | .delete pk => { system with store := onDelete .sqlite pk system.store }
  | .advance i =>
      match system.jobs[i]? with
      | none => system
      | some job =>
          let (job, store) := job.advance view system.store
          { store := store, jobs := system.jobs.set i job }

def System.after (view : View ρ) (system : System κ ρ) (events : List (Event κ ρ)) :
    System κ ρ :=
  events.foldl (System.next view) system

end CwStation.SearchIndex
