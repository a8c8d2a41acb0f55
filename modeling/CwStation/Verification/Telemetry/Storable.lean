import CwStation.Model.LogHandler

/-! # Rows that the database takes

`_to_row` bounds the texts of a record and keeps values that raise from costing the row. It lets
through what is no JSON, and characters that no column takes. -/

namespace CwStation.LogHandler

open Documents

variable {encoder : Encoder}

/-! ## What may be stored -/

/-- A number or a text of a JSON value. -/
inductive Leaf
  | number (x : Float64)
  | text (s : Text)

mutual

/-- The numbers and texts of a value, keys included. -/
def Json.leaves : Json → List Leaf
  | .float x => [.number x]
  | .str s => [.text s]
  | .arr js => leavesOf js
  | .obj entries => leavesOfEntries entries
  | _ => []

def leavesOf : List Json → List Leaf
  | [] => []
  | j :: js => j.leaves ++ leavesOf js

def leavesOfEntries : List (Text × Json) → List Leaf
  | [] => []
  | (key, j) :: entries => .text key :: (j.leaves ++ leavesOfEntries entries)

end

/-- UTF-8 can encode the text, which is free of NUL. -/
def IsText (s : Text) : Prop := (encode s).isSome = true ∧ CodePoint.char (Char.ofNat 0) ∉ s

instance (s : Text) : Decidable (IsText s) := inferInstanceAs (Decidable (_ ∧ _))

/-- JSON has no other numbers than finite ones. -/
def Leaf.Storable : Leaf → Prop
  | .number (.num _) => True
  | .number _ => False
  | .text s => IsText s

/-- The extra values are JSON and all texts may be stored, those among the extra values too. -/
structure Row.Storable (row : Row) : Prop where
  extra : ∀ leaf ∈ row.extra.leaves, leaf.Storable
  level : IsText row.level
  logger : IsText row.logger
  message : IsText row.message
  module : IsText row.module
  func : IsText row.func
  requestId : IsText row.requestId
  traceId : IsText row.traceId
  excType : IsText row.excType
  excText : IsText row.excText

/-! ## Clean records -/

/-- A key as it comes back. -/
def Key.loaded (encoder : Encoder) (key : Key) : Except PyExc Text :=
  (key.text encoder).map joinPairs

mutual

/-- The encoder does not raise. -/
def Value.Encodes (encoder : Encoder) : ℕ → Value → Prop
  | _, .int n => ∃ s, intText n = .ok s
  | 0, .list _ | 0, .dict _ | _, .cycle => False
  | depth + 1, .list vs => AllEncode encoder depth vs
  | depth + 1, .dict entries => EntriesEncode encoder depth entries
  | _, .object o => ∃ s, jsonDefault o = .ok s
  | _, _ => True

def AllEncode (encoder : Encoder) : ℕ → List Value → Prop
  | _, [] => True
  | depth, v :: vs => v.Encodes encoder depth ∧ AllEncode encoder depth vs

def EntriesEncode (encoder : Encoder) : ℕ → List (Key × Value) → Prop
  | _, [] => True
  | depth, (key, v) :: entries =>
      (∃ s, key.text encoder = .ok s) ∧ v.Encodes encoder depth ∧
        EntriesEncode encoder depth entries

end

mutual

/-- No infinite number, no `nan`, no NUL and no lone surrogate is in a value, but under a key that
a later one replaces. -/
def Value.Clean (encoder : Encoder) : Value → Prop
  | .float x => (Leaf.number x).Storable
  | .str s => IsText (joinPairs s)
  | .list vs => AllClean encoder vs
  | .dict entries => EntriesClean encoder entries
  | .object o => ∀ s, jsonDefault o = .ok s → IsText (joinPairs s)
  | _ => True

def AllClean (encoder : Encoder) : List Value → Prop
  | [] => True
  | v :: vs => v.Clean encoder ∧ AllClean encoder vs

def EntriesClean (encoder : Encoder) : List (Key × Value) → Prop
  | [] => True
  | (key, v) :: entries =>
      ((∃ e ∈ entries, e.1.loaded encoder = key.loaded encoder) ∨
        (∀ s, key.loaded encoder = .ok s → IsText s) ∧ v.Clean encoder) ∧
          EntriesClean encoder entries

end

/-- The extra values of a record, as one `dict`. -/
def Record.extra (record : Record) : Value :=
  .dict ((extractExtra record).map fun e => (.str e.1, e.2))

/-- The texts of a record may be stored as far as the columns take them, and its extra values are
clean or cannot be encoded at all. -/
structure Record.Clean (encoder : Encoder) (record : Record) : Prop where
  extra : record.extra.Encodes encoder encoder.depth → record.extra.Clean encoder
  level : IsText (record.levelname.take 10)
  logger : IsText (record.name.take 200)
  message : ∀ s, safeMessage record = .ok s → IsText (s.take 10000)
  module : IsText ((record.module.getD []).take 200)
  func : IsText ((record.funcName.getD []).take 200)
  requestId : ∀ s, record.requestId = .ok s → IsText (s.take 255)
  traceId : ∀ s, record.traceId = .ok s → IsText (s.take 255)
  excType : ∀ e, exception record = .ok e → IsText (e.1.take 200)
  excText : ∀ e, exception record = .ok e → IsText (e.2.take 20000)

/-! ## Entries of a `dict` -/

/-- An entry may be stored. -/
def EntryStorable (e : Text × Json) : Prop :=
  IsText e.1 ∧ ∀ leaf ∈ e.2.leaves, leaf.Storable

theorem forall_leavesOfEntries {entries : List (Text × Json)} :
    (∀ leaf ∈ leavesOfEntries entries, leaf.Storable) ↔ ∀ e ∈ entries, EntryStorable e := by
  induction entries with
  | nil => simp [leavesOfEntries]
  | cons e entries ih =>
    rw [leavesOfEntries, List.forall_mem_cons, List.forall_mem_append, ih, List.forall_mem_cons,
      ← and_assoc]
    rfl

/-- What a `dict` holds of a list of entries: the last one of each key. -/
theorem forall_items_update {P : Text × Json → Prop} (l : List (Text × Json)) :
    (∀ e ∈ (Dict.empty.update l).items, P e) ↔ ∀ k j, Dict.last k l = some j → P (k, j) := by
  have hget : ∀ k, (Dict.empty.update l).get k = Dict.last k l := by
    intro k
    rw [Dict.get_update, Dict.get_empty, Option.or_none]
  simp only [Prod.forall, Dict.mem_items_iff, hget]

/-! ## The round trip -/

theorem map_ok_iff {ε α β : Type} {x : Except ε α} {f : α → β} {b : β} :
    x.map f = .ok b ↔ ∃ a, x = .ok a ∧ f a = b := by
  cases x <;> simp [Except.map]

theorem bind_ok_iff {ε α β : Type} {x : Except ε α} {f : α → Except ε β} {b : β} :
    (x >>= f) = .ok b ↔ ∃ a, x = .ok a ∧ f a = .ok b := by
  cases x <;> simp [bind, Except.bind]

mutual

theorem exists_roundTrip_iff : ∀ (depth : ℕ) (v : Value),
    (∃ j, roundTrip encoder depth v = .ok j) ↔ v.Encodes encoder depth
  | _, .none | _, .bool _ | _, .float _ | _, .str _ => by simp [roundTrip, Value.Encodes]
  | _, .int n => by simp [roundTrip, Value.Encodes, map_ok_iff]
  | 0, .list _ | 0, .dict _ | _, .cycle => by simp [roundTrip, Value.Encodes]
  | depth + 1, .list vs => by
      rw [roundTrip, Value.Encodes, ← exists_roundTrips_iff depth vs]
      simp [map_ok_iff]
  | depth + 1, .dict entries => by
      rw [roundTrip, Value.Encodes, ← exists_roundTripEntries_iff depth entries]
      simp [map_ok_iff]
  | _, .object o => by simp [roundTrip, Value.Encodes, map_ok_iff]

theorem exists_roundTrips_iff : ∀ (depth : ℕ) (vs : List Value),
    (∃ js, roundTrips encoder depth vs = .ok js) ↔ AllEncode encoder depth vs
  | _, [] => by simp [roundTrips, AllEncode]
  | depth, v :: vs => by
      rw [AllEncode, ← exists_roundTrip_iff depth v, ← exists_roundTrips_iff depth vs, roundTrips]
      simp [bind_ok_iff, pure, Except.pure]

theorem exists_roundTripEntries_iff : ∀ (depth : ℕ) (entries : List (Key × Value)),
    (∃ l, roundTripEntries encoder depth entries = .ok l) ↔ EntriesEncode encoder depth entries
  | _, [] => by simp [roundTripEntries, EntriesEncode]
  | depth, (key, v) :: entries => by
      rw [EntriesEncode, ← exists_roundTrip_iff depth v,
        ← exists_roundTripEntries_iff depth entries, roundTripEntries]
      simp [bind_ok_iff, pure, Except.pure]

end

theorem keys_roundTripEntries {depth : ℕ} {entries : List (Key × Value)} {l : List (Text × Json)}
    (h : roundTripEntries encoder depth entries = .ok l) (s : Text) :
    s ∈ l.map Prod.fst ↔ ∃ e ∈ entries, e.1.loaded encoder = .ok s := by
  induction entries generalizing l with
  | nil =>
    rw [roundTripEntries] at h
    cases h
    simp
  | cons e entries ih =>
    rw [roundTripEntries] at h
    obtain ⟨text, htext, h₁⟩ := bind_ok_iff.mp h
    obtain ⟨j, -, h₂⟩ := bind_ok_iff.mp h₁
    obtain ⟨rest, hrest, h₃⟩ := bind_ok_iff.mp h₂
    cases h₃
    rw [List.map_cons, List.mem_cons, ih hrest, List.exists_mem_cons_iff, Key.loaded, htext]
    simp [Except.map, eq_comm]

mutual

/-- What comes back may be stored exactly if the value is clean. -/
theorem leaves_roundTrip_iff : ∀ (depth : ℕ) (v : Value) (j : Json),
    roundTrip encoder depth v = .ok j →
      ((∀ leaf ∈ j.leaves, leaf.Storable) ↔ v.Clean encoder)
  | _, .none, j, h | _, .bool _, j, h => by
      rw [roundTrip] at h
      cases h
      simp [Json.leaves, Value.Clean]
  | _, .int n, j, h => by
      rw [roundTrip] at h
      obtain ⟨-, -, rfl⟩ := map_ok_iff.mp h
      simp [Json.leaves, Value.Clean]
  | _, .float x, j, h => by
      rw [roundTrip] at h
      cases h
      simp [Json.leaves, Value.Clean]
  | _, .str s, j, h => by
      rw [roundTrip] at h
      cases h
      simp [Json.leaves, Value.Clean, Leaf.Storable]
  | 0, .list _, j, h | 0, .dict _, j, h | _, .cycle, j, h => by
      rw [roundTrip] at h
      cases h
  | depth + 1, .list vs, j, h => by
      rw [roundTrip] at h
      obtain ⟨js, hjs, rfl⟩ := map_ok_iff.mp h
      rw [Json.leaves, Value.Clean]
      exact leaves_roundTrips_iff depth vs js hjs
  | depth + 1, .dict entries, j, h => by
      rw [roundTrip] at h
      obtain ⟨l, hl, rfl⟩ := map_ok_iff.mp h
      rw [Json.leaves, Value.Clean, forall_leavesOfEntries, forall_items_update]
      exact last_roundTripEntries_iff depth entries l hl
  | _, .object o, j, h => by
      rw [roundTrip] at h
      obtain ⟨s, hs, rfl⟩ := map_ok_iff.mp h
      simp [Json.leaves, Value.Clean, Leaf.Storable, hs]

theorem leaves_roundTrips_iff : ∀ (depth : ℕ) (vs : List Value) (js : List Json),
    roundTrips encoder depth vs = .ok js →
      ((∀ leaf ∈ leavesOf js, leaf.Storable) ↔ AllClean encoder vs)
  | _, [], js, h => by
      rw [roundTrips] at h
      cases h
      simp [leavesOf, AllClean]
  | depth, v :: vs, js, h => by
      rw [roundTrips] at h
      obtain ⟨j, hj, h₁⟩ := bind_ok_iff.mp h
      obtain ⟨rest, hrest, h₂⟩ := bind_ok_iff.mp h₁
      cases h₂
      rw [leavesOf, List.forall_mem_append, AllClean, leaves_roundTrip_iff depth v j hj,
        leaves_roundTrips_iff depth vs rest hrest]

theorem last_roundTripEntries_iff : ∀ (depth : ℕ) (entries : List (Key × Value))
    (l : List (Text × Json)), roundTripEntries encoder depth entries = .ok l →
      ((∀ k j, Dict.last k l = some j → EntryStorable (k, j)) ↔ EntriesClean encoder entries)
  | _, [], l, h => by
      rw [roundTripEntries] at h
      cases h
      simp [Dict.last, EntriesClean]
  | depth, (key, v) :: entries, l, h => by
      rw [roundTripEntries] at h
      obtain ⟨text, htext, h₁⟩ := bind_ok_iff.mp h
      obtain ⟨j, hj, h₂⟩ := bind_ok_iff.mp h₁
      obtain ⟨rest, hrest, h₃⟩ := bind_ok_iff.mp h₂
      cases h₃
      have hloaded : key.loaded encoder = .ok (joinPairs text) := by
        rw [Key.loaded, htext]
        rfl
      rw [@Dict.forall_last_cons _ _ _ _ _ _ fun k j => EntryStorable (k, j),
        keys_roundTripEntries hrest, EntriesClean, hloaded,
        last_roundTripEntries_iff depth entries rest hrest, EntryStorable,
        leaves_roundTrip_iff depth v j hj]
      simp

end

/-! ## Rows -/

theorem jsonable_storable_iff (record : Record) :
    (∀ leaf ∈ (jsonable encoder (extractExtra record)).leaves, leaf.Storable) ↔
      (record.extra.Encodes encoder encoder.depth → record.extra.Clean encoder) := by
  rw [← exists_roundTrip_iff]
  have hvalue : roundTrip encoder encoder.depth
      (.dict ((extractExtra record).map fun e => (.str e.1, e.2))) =
        roundTrip encoder encoder.depth record.extra := rfl
  rw [jsonable, hvalue]
  cases hextra : roundTrip encoder encoder.depth record.extra with
  | ok j => simp [leaves_roundTrip_iff _ _ _ hextra]
  | error e =>
    have hfallback : IsText (.ofStr "unserializable".toList) ∧
        IsText (.ofStr "<extra could not be rendered>".toList) := by
      decide +kernel
    simpa [Json.leaves, leavesOfEntries, Leaf.Storable] using hfallback

/-- The row of a record may be stored exactly if the record is clean. -/
theorem row_storable_iff (encoder : Encoder) (record : Record) (row : Row)
    (h : toRow encoder record = .ok row) : row.Storable ↔ record.Clean encoder := by
  rw [toRow] at h
  obtain ⟨⟨excType, excText⟩, hexc, h₁⟩ := bind_ok_iff.mp h
  obtain ⟨ts, -, h₂⟩ := bind_ok_iff.mp h₁
  obtain ⟨message, hmessage, h₃⟩ := bind_ok_iff.mp h₂
  obtain ⟨requestId, hrequest, h₄⟩ := bind_ok_iff.mp h₃
  obtain ⟨traceId, htrace, h₅⟩ := bind_ok_iff.mp h₄
  cases h₅
  constructor
  · intro hrow
    exact
      { extra := (jsonable_storable_iff record).mp hrow.extra
        level := hrow.level
        logger := hrow.logger
        message := fun s hs => Except.ok.inj (hmessage.symm.trans hs) ▸ hrow.message
        module := hrow.module
        func := hrow.func
        requestId := fun s hs => Except.ok.inj (hrequest.symm.trans hs) ▸ hrow.requestId
        traceId := fun s hs => Except.ok.inj (htrace.symm.trans hs) ▸ hrow.traceId
        excType := fun e he => Except.ok.inj (hexc.symm.trans he) ▸ hrow.excType
        excText := fun e he => Except.ok.inj (hexc.symm.trans he) ▸ hrow.excText }
  · intro hrecord
    exact
      { extra := (jsonable_storable_iff record).mpr hrecord.extra
        level := hrecord.level
        logger := hrecord.logger
        message := hrecord.message _ hmessage
        module := hrecord.module
        func := hrecord.func
        requestId := hrecord.requestId _ hrequest
        traceId := hrecord.traceId _ htrace
        excType := hrecord.excType _ hexc
        excText := hrecord.excText _ hexc }

/-! ### A score -/

def shortEncoder : Encoder := ⟨fun _ => ['0'], 900⟩

/-- A warning with a score attached. -/
def scored (score : Float64) : Record where
  timestamp := .ok 0
  levelname := .ofStr "WARNING".toList
  levelno := 30
  name := .ofStr "apps.tickets".toList
  getMessage := .ok (.ofStr "slow".toList)
  unformattable := .ok []
  module := some (.ofStr "views".toList)
  funcName := none
  lineno := some 12
  requestId := .ok []
  traceId := .ok []
  excInfo := none
  excText := []
  attributes := [(.ofStr "score".toList, .value (.float score))]

/-- A score that is not a number makes a row that the database refuses, with all others of its
batch. -/
theorem nan_not_storable : ∃ row, toRow shortEncoder (scored .nan) = .ok row ∧ ¬row.Storable :=
  ⟨_, rfl, fun h => h.extra (.number .nan) (.tail _ (.head _))⟩

theorem half_storable : ∃ row, toRow shortEncoder (scored (.ofRat (1 / 2))) = .ok row ∧
    row.Storable := by
  have hfinite : (Leaf.number (.ofRat (1 / 2))).Storable := by
    have hbounded : |nearestFloat (1 / 2)| < floatLimit := by decide +kernel
    rw [Float64.ofRat, dif_pos hbounded]
    trivial
  have hkey : ∀ s, (Key.str (.ofStr "score".toList)).loaded shortEncoder = .ok s → IsText s := by
    intro s hs
    cases hs
    decide +kernel
  refine ⟨_, rfl, (row_storable_iff shortEncoder (scored (.ofRat (1 / 2))) _ rfl).mpr ?_⟩
  exact
    { extra := fun _ => ⟨.inr ⟨hkey, hfinite⟩, trivial⟩
      level := by decide +kernel
      logger := by decide +kernel
      message := fun s hs => by cases hs; decide +kernel
      module := by decide +kernel
      func := by decide +kernel
      requestId := fun s hs => by cases hs; decide +kernel
      traceId := fun s hs => by cases hs; decide +kernel
      excType := fun s hs => by cases hs; decide +kernel
      excText := fun s hs => by cases hs; decide +kernel }

end CwStation.LogHandler
