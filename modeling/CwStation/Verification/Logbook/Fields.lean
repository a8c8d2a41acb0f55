import CwStation.Model.Logbook
import CwStation.Verification.Adif.RoundTrip
import CwStation.Verification.Python.Floats

/-! # The fields of an exported contact -/

namespace CwStation.Adif

variable {u : Unicode}

/-! ## Records with fields left out -/

/-- A field that is written only under a condition. -/
structure FieldRow where
  name : Str
  shown : Bool
  text : Str

def written (rows : List FieldRow) : Record :=
  (rows.filter FieldRow.shown).map fun row => (row.name, row.text)

theorem names_written (rows : List FieldRow) :
    (written rows).map Prod.fst = (rows.filter FieldRow.shown).map FieldRow.name := by
  rw [written, List.map_map]
  rfl

theorem nodup_written {rows : List FieldRow} (h : (rows.map FieldRow.name).Nodup) :
    ((written rows).map Prod.fst).Nodup := by
  rw [names_written]
  exact h.sublist (List.filter_sublist.map _)

theorem lookup_eq_none {name : Str} {r : Record} (h : name ∉ r.map Prod.fst) :
    r.lookup name = none := by
  induction r with
  | nil => rfl
  | cons f r ih =>
    simp only [List.map_cons, List.mem_cons, not_or] at h
    rw [List.lookup_cons, beq_eq_false_iff_ne.mpr h.1, ih h.2]

/-- What a reader of the record gets for a field. -/
theorem get_written {rows : List FieldRow} (h : (rows.map FieldRow.name).Nodup) {row : FieldRow}
    (hrow : row ∈ rows) (default : Str) :
    Record.get (written rows) row.name default = if row.shown then row.text else default := by
  induction rows with
  | nil => cases hrow
  | cons first rows ih =>
    rw [List.map_cons, List.nodup_cons] at h
    rcases List.mem_cons.mp hrow with rfl | hrow
    · cases hshown : row.shown with
      | true => simp [Record.get, written, hshown]
      | false =>
        have hmissing : row.name ∉ (written rows).map Prod.fst := by
          rw [names_written]
          exact fun hmem => h.1 (List.map_subset _ (List.filter_sublist.subset) hmem)
        have hrest : written (row :: rows) = written rows := by
          simp [written, hshown]
        rw [hrest, Record.get, lookup_eq_none hmissing]
        rfl
    · have hne : row.name ≠ first.name := by
        intro he
        exact h.1 (he ▸ List.mem_map_of_mem hrow)
      have hskip : (written (first :: rows)).lookup row.name = (written rows).lookup row.name := by
        cases hshown : first.shown with
        | true => simp [written, hshown, List.lookup_cons, beq_eq_false_iff_ne.mpr hne]
        | false => simp [written, hshown]
      rw [Record.get, hskip]
      exact ih h.2 hrow

/-! ## The table of `adif_export` -/

/-- The fields a contact can have, in their order. -/
def fieldRows (stationCall : Str) (q : Qso) : List FieldRow := [
  ⟨"call".toList, true, q.call⟩,
  ⟨"qso_date".toList, true, dateText q.when⟩,
  ⟨"time_on".toList, true, timeText q.when⟩,
  ⟨"mode".toList, true, q.mode⟩,
  ⟨"band".toList, q.band ≠ [], q.band⟩,
  ⟨"freq".toList, q.freqMhz.any Float64.isTrue, (q.freqMhz.map (Float64.fixed 4)).getD []⟩,
  ⟨"rst_sent".toList, q.rstSent ≠ [], q.rstSent⟩,
  ⟨"rst_rcvd".toList, q.rstRcvd ≠ [], q.rstRcvd⟩,
  ⟨"name".toList, q.name ≠ [], q.name⟩,
  ⟨"qth".toList, q.qth ≠ [], q.qth⟩,
  ⟨"gridsquare".toList, q.gridsquare ≠ [], q.gridsquare⟩,
  ⟨"country".toList, q.country ≠ [], q.country⟩,
  ⟨"station_callsign".toList, stationCall ≠ [], stationCall⟩,
  ⟨"comment".toList, q.comment ≠ [], collapseSpaces q.comment⟩]

def fieldNames : List Str := [
  "call".toList, "qso_date".toList, "time_on".toList, "mode".toList, "band".toList, "freq".toList,
  "rst_sent".toList, "rst_rcvd".toList, "name".toList, "qth".toList, "gridsquare".toList,
  "country".toList, "station_callsign".toList, "comment".toList]

theorem names_fieldRows (stationCall : Str) (q : Qso) :
    (fieldRows stationCall q).map FieldRow.name = fieldNames := rfl

theorem nodup_fieldNames : fieldNames.Nodup := by decide

theorem nodup_fieldRows (stationCall : Str) (q : Qso) :
    ((fieldRows stationCall q).map FieldRow.name).Nodup := nodup_fieldNames

theorem written_append (rows rows' : List FieldRow) :
    written (rows ++ rows') = written rows ++ written rows' := by
  simp [written]

theorem written_optional (name value text : Str) :
    written [⟨name, value ≠ [], text⟩] = optional name value text := by
  by_cases h : value = [] <;> simp [written, optional, h]

theorem written_freqField (f : Option Float64) :
    written [⟨"freq".toList, f.any Float64.isTrue, (f.map (Float64.fixed 4)).getD []⟩] =
      freqField f := by
  cases f with
  | none => rfl
  | some f => cases h : f.isTrue <;> simp [written, freqField, h]

theorem exportFields_eq (stationCall : Str) (q : Qso) :
    exportFields stationCall q = written (fieldRows stationCall q) := by
  have hfirst : [("call".toList, q.call), ("qso_date".toList, dateText q.when),
      ("time_on".toList, timeText q.when), ("mode".toList, q.mode)] =
        written ((fieldRows stationCall q).take 4) := rfl
  rw [exportFields, hfirst]
  simp only [← written_optional, ← written_freqField, ← written_append]
  rfl

/-- The names of the fields are lower-case words. -/
theorem isField_of_name (u : Unicode) {f : Str × Str} (h : f.1 ∈ fieldNames) : IsField u f := by
  have hnames : (fieldNames.all fun name => decide (name ≠ []) && name.all fun c =>
      c.toNat < 128 && ((c.isAlphanum || c == '_') && c.toLower == c)) = true := by decide
  have hname := List.all_eq_true.mp hnames f.1 h
  simp only [Bool.and_eq_true, decide_eq_true_eq, List.all_eq_true, beq_iff_eq] at hname
  obtain ⟨hne, hchars⟩ := hname
  constructor
  · exact hne
  · intro c hc
    rw [u.isWord_ascii c (hchars c hc).1]
    exact (hchars c hc).2.1
  · rw [u.lower_ascii f.1 fun c hc => (hchars c hc).1]
    exact (List.map_congr_left fun c hc => (hchars c hc).2.2).trans (List.map_id' f.1)

theorem isRecord_exportFields (u : Unicode) (stationCall : Str) (q : Qso) :
    IsRecord u (exportFields stationCall q) := by
  rw [exportFields_eq]
  constructor
  · simp [written, fieldRows]
  · intro f hf
    apply isField_of_name u
    have hname : f.1 ∈ (written (fieldRows stationCall q)).map Prod.fst := List.mem_map_of_mem hf
    rw [names_written] at hname
    rw [← names_fieldRows stationCall q]
    exact List.map_subset _ List.filter_sublist.subset hname
  · exact nodup_written (nodup_fieldRows stationCall q)

/-! ## What a reader gets -/

variable (stationCall : Str) (q : Qso)

theorem get_exportFields {row : FieldRow} (hrow : row ∈ fieldRows stationCall q) (default : Str) :
    Record.get (exportFields stationCall q) row.name default =
      if row.shown then row.text else default := by
  rw [exportFields_eq]
  exact get_written (nodup_fieldRows stationCall q) hrow default

theorem get_shown {stationCall : Str} {q : Qso} {name value : Str}
    (hrow : ⟨name, true, value⟩ ∈ fieldRows stationCall q) (default : Str) :
    Record.get (exportFields stationCall q) name default = value :=
  get_exportFields stationCall q hrow default

/-- An empty value is left out, and read as the empty one. -/
theorem get_optional {stationCall : Str} {q : Qso} {name value : Str}
    (hrow : ⟨name, value ≠ [], value⟩ ∈ fieldRows stationCall q) :
    Record.get (exportFields stationCall q) name [] = value := by
  have hget := get_exportFields stationCall q hrow []
  by_cases hvalue : value = []
  · rw [hvalue] at hget ⊢
    exact hget
  · rw [hget, if_pos (decide_eq_true hvalue)]

/-! ## Frequencies -/

theorem ofRat_tenthousandth :
    ∃ y : Finite64, Float64.ofRat (1 / 10000) = .num y ∧ 0 < y.val ∧ y.val < 1 := by
  have hplace : lastPlace (1 / 10000) ≤ -60 := lastPlace_le (by norm_num) (by norm_num) (by norm_num)
  have hfine : (2 : ℚ) ^ lastPlace (1 / 10000) ≤ 2 ^ (-60 : ℤ) :=
    zpow_le_zpow_right₀ one_le_two hplace
  have hsmall : (2 : ℚ) ^ (-60 : ℤ) < 1 / 10000 := by norm_num
  have hnear := abs_le.mp (abs_nearestFloat_sub (1 / 10000))
  have hpos : 0 < nearestFloat (1 / 10000) := by linarith
  have hbound : |nearestFloat (1 / 10000)| < floatLimit := by
    rw [abs_of_pos hpos]
    calc nearestFloat (1 / 10000) < 1 := by linarith
      _ ≤ floatLimit := one_le_pow₀ one_le_two
  have hone : nearestFloat (1 / 10000) < 1 := by linarith
  exact ⟨_, dif_pos hbound, hpos, hone⟩

theorem freq_cases {f : Float64} (h : (Float64.ofRat (1 / 10000)).le f = true) :
    f = .inf false ∨ ∃ x, f = .num x ∧ 0 < x.val := by
  obtain ⟨y, hy, hpos, -⟩ := ofRat_tenthousandth
  rw [hy] at h
  cases f with
  | num x => exact .inr ⟨x, rfl, hpos.trans_le (of_decide_eq_true h)⟩
  | inf negative =>
    cases negative with
    | true => cases h
    | false => exact .inl rfl
  | nan => cases h

/-- A frequency is read as the one it is rounded to. -/
theorem recordFreq_eq (u : Unicode) {freq : Option Float64}
    (hfreq : ∀ f ∈ freq, (Float64.ofRat (1 / 10000)).le f = true) {record : Record}
    (hget : Record.get record "freq".toList [] =
      if freq.any Float64.isTrue then (freq.map (Float64.fixed 4)).getD [] else []) :
    recordFreq u record = freq.map (Float64.round 4) := by
  unfold recordFreq
  rw [hget]
  cases freq with
  | none => rfl
  | some f =>
    rcases freq_cases (hfreq f rfl) with rfl | ⟨x, rfl, hx⟩
    · rfl
    · have htrue : (some (Float64.num x)).any Float64.isTrue = true := decide_eq_true hx.ne'
      have hread : pyFloat u (Float64.fixed 4 (.num x)) = .ok (Float64.round 4 (.num x)) :=
        pyFloat_fixed (by decide) hx.le
      have hne : Float64.fixed 4 (.num x) ≠ [] := by
        intro he
        rw [he] at hread
        cases hread
      have htwice : Float64.round 4 (Float64.round 4 (.num x)) = Float64.round 4 (.num x) := by
        apply round_round
        rintro y ⟨⟩
        exact hx.le
      rw [if_pos htrue]
      simp only [Option.map_some, Option.getD_some, if_neg hne, hread, Except.map, htwice]
      rfl

/-! ## Bands -/

theorem lower_bandForFreq (u : Unicode) (freq : Option Float64) :
    u.lower (bandForFreq freq) = bandForFreq freq := by
  have hnames : (([] :: bands.map fun band => band.2.2).all fun name =>
      name.all fun c => c.toNat < 128 && c.toLower == c) = true := by decide
  have hmem : bandForFreq freq ∈ [] :: bands.map fun band => band.2.2 := by
    cases freq with
    | none => exact List.mem_cons_self
    | some f =>
      rw [bandForFreq]
      split
      · cases hfind : bands.find? (inBand f) with
        | none => exact List.mem_cons_self
        | some band => exact List.mem_cons_of_mem _ (List.mem_map_of_mem (List.mem_of_find?_eq_some hfind))
      · exact List.mem_cons_self
  have hchars := List.all_eq_true.mp hnames _ hmem
  simp only [List.all_eq_true, Bool.and_eq_true, decide_eq_true_eq, beq_iff_eq] at hchars
  rw [u.lower_ascii _ fun c hc => (hchars c hc).1]
  exact (List.map_congr_left fun c hc => (hchars c hc).2).trans (List.map_id' _)

end CwStation.Adif
