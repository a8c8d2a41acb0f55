import CwStation.Model.Telemetry
import Mathlib.Data.List.Sort

/-! # Log records: `search_records` of `queries.py`, and who writes them -/

namespace CwStation.Telemetry

/-! ## Records -/

/-- A captured log line, as far as a search reads it. -/
structure LogLine where
  ts : ℤ
  levelNo : ℤ
  logger : Str
  message : Str
  requestId : Str := []
  traceId : Str := []
  excText : Str := []
  deriving DecidableEq

/-- A `LogRecord`. -/
structure LogRecord extends LogLine where
  pk : ℕ
  deriving DecidableEq

/-- How the database compares texts. -/
structure LogDb where
  icontains : Str → Str → Bool
  startsWith : Str → Str → Bool

/-! ## Filters -/

/-- A timestamp of a request: whether it is `None` or empty, the time in it, if there is one, and
`repr(value)`. Parsing one fails on a date there is not. -/
structure TimeValue where
  blank : Bool
  parsed : Except Unit (Option ℤ)
  repr : Str

/-- `None`. -/
def TimeValue.none : TimeValue := ⟨true, .ok .none, "None".toList⟩

/-- `None`. -/
def Value.none : Value := ⟨[], true, .error .rejected, "None".toList⟩

/-- `parse_timestamp`. -/
def parseTimestamp (value : TimeValue) (field : Str) : Except QueryError (Option ℤ) :=
  if value.blank then .ok .none
  else match value.parsed with
    | .error _ => .error .noSuchDate
    | .ok .none => .error (.notTime field value.repr)
    | .ok (some t) => .ok (some t)

/-- The arguments of `search_records`, but for the cursor. -/
structure SearchArgs where
  level : Value := .none
  logger : Value := .none
  requestId : Value := .none
  traceId : Value := .none
  search : Value := .none
  since : TimeValue := .none
  until_ : TimeValue := .none
  limit : Value := .none

/-- The filters as they are applied, an empty text for none. -/
structure Filters where
  level : Str
  logger : Str
  requestId : Str
  traceId : Str
  search : Str
  since : Option ℤ
  until_ : Option ℤ
  deriving DecidableEq

def parseFilters (u : Unicode) (args : SearchArgs) : Except QueryError Filters := do
  let level ← parseLevel u args.level
  let since ← parseTimestamp args.since "since".toList
  let until_ ← parseTimestamp args.until_ "until".toList
  .ok {
    level := level
    logger := strip args.logger.text
    requestId := strip args.requestId.text
    traceId := strip args.traceId.text
    search := strip args.search.text
    since := since
    until_ := until_ }

/-- `prefix_q`. -/
def underLogger (db : LogDb) (logger above : Str) : Bool :=
  logger = above || db.startsWith (above ++ ['.']) logger

/-- Whether a record passes the filters. -/
def Filters.pass (db : LogDb) (f : Filters) (r : LogRecord) : Bool :=
  (f.level = [] || (levels.lookup f.level).getD 0 ≤ r.levelNo) &&
  (f.logger = [] || underLogger db r.logger f.logger) &&
  (f.requestId = [] || r.requestId = f.requestId) &&
  (f.traceId = [] || r.traceId = f.traceId) &&
  (f.search = [] || db.icontains f.search r.message || db.icontains f.search r.excText) &&
  (f.since.all fun since => since ≤ r.ts) &&
  (f.until_.all fun until_ => r.ts ≤ until_)

/-! ## A page -/

/-- `DEFAULT_LIMIT` and `MAX_LIMIT`. -/
def defaultLimit : ℤ := 50
def maxLimit : ℤ := 200

/-- The cursor of a request. -/
def parseCursor (afterId : Value) : Except QueryError (Option ℤ) :=
  if afterId.blank then .ok .none
  else (parseInt afterId "after_id".toList 0 .none).map some

def parseLimit (limit : Value) : Except QueryError ℤ :=
  if limit.blank then .ok defaultLimit else parseInt limit "limit".toList 1 (some maxLimit)

/-- `("-ts", "-pk")`. -/
def newerFirst (a b : LogRecord) : Prop := b.ts < a.ts ∨ a.ts = b.ts ∧ b.pk ≤ a.pk

instance instDecidableNewerFirst (a b : LogRecord) : Decidable (newerFirst a b) :=
  inferInstanceAs (Decidable (_ ∨ _))

/-- The rows in the order of the page: with a cursor along the cursor's axis. -/
def inPageOrder (cursor : Option ℤ) (rows : List LogRecord) : List LogRecord :=
  match cursor with
  | some _ => rows.insertionSort fun a b => a.pk ≤ b.pk
  | .none => rows.insertionSort newerFirst

/-- The answer of `search_records`. -/
structure Page where
  records : List LogRecord
  count : ℕ
  hasMore : Bool
  nextAfterId : Option ℤ
  totalMatching : ℕ
  applied : Filters
  afterId : Option ℤ
  limit : ℤ
  deriving DecidableEq

/-- `search_records` on the committed records. -/
def searchRecords (u : Unicode) (db : LogDb) (args : SearchArgs) (afterId : Value)
    (visible : List LogRecord) : Except QueryError Page := do
  let filters ← parseFilters u args
  let cursor ← parseCursor afterId
  let limit ← parseLimit args.limit
  let matched := visible.filter fun r =>
    filters.pass db r && cursor.all fun c => c < (r.pk : ℤ)
  let rows := (inPageOrder cursor matched).take (limit.toNat + 1)
  let records := rows.take limit.toNat
  .ok {
    records := records
    count := records.length
    hasMore := limit.toNat < rows.length
    nextAfterId := match records.getLast? with
      | some r => some r.pk
      | .none => cursor
    totalMatching := matched.length
    applied := filters
    afterId := cursor
    limit := limit }

/-! ## Writers and a client -/

/-- What a client passes back. -/
def Value.ofNext : Option ℤ → Value
  | some n => .ofInt n
  | .none => .none

/-- The table with the transactions that are open on it, and a client: what it passes next, and
the answers it has had. `late` are the records committed since the first of them. -/
structure Tail where
  nextPk : ℕ := 1
  pending : ℕ → List LogRecord := fun _ => []
  visible : List LogRecord := []
  after : Value
  pages : List Page := []
  late : List LogRecord := []

/-- A writer inserts a line in its `bulk_create`, commits or fails; or the client calls. -/
inductive TailEvent
  | insert (writer : ℕ) (line : LogLine)
  | commit (writer : ℕ)
  | rollback (writer : ℕ)
  | call

def Tail.next (u : Unicode) (db : LogDb) (args : SearchArgs) (s : Tail) : TailEvent → Tail
  | .insert writer line =>
      { s with
        nextPk := s.nextPk + 1
        pending := Function.update s.pending writer
          (s.pending writer ++ [{ line with pk := s.nextPk }]) }
  | .commit writer =>
      { s with
        pending := Function.update s.pending writer []
        visible := s.visible ++ s.pending writer
        late := if s.pages = [] then s.late else s.late ++ s.pending writer }
  | .rollback writer => { s with pending := Function.update s.pending writer [] }
  | .call =>
      match searchRecords u db args s.after s.visible with
      | .error _ => s
      | .ok page => { s with after := .ofNext page.nextAfterId, pages := s.pages ++ [page] }

/-- A client that starts with the given cursor, on a table that fills from empty. -/
def Tail.run (u : Unicode) (db : LogDb) (args : SearchArgs) (first : Value)
    (events : List TailEvent) : Tail :=
  events.foldl (Tail.next u db args) { after := first }

/-- The records the client has been given. -/
def Tail.returned (s : Tail) : List LogRecord := s.pages.flatMap Page.records

end CwStation.Telemetry
