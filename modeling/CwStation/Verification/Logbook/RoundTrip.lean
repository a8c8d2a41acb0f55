import CwStation.Verification.Logbook.Fields
import CwStation.Verification.Logbook.Import

/-! # A log that is exported and imported -/

namespace CwStation.Adif

open Effects

variable {u : Unicode} {owner : ℕ} {q : Qso}

/-! ## Contacts that can be told apart -/

/-- A contact as an operator keeps it: the values `import_adif` would normalize are normalized. -/
structure Exportable (u : Unicode) (owner : ℕ) (q : Qso) : Prop where
  user : q.user = owner
  call_ne_nil : q.call ≠ []
  call_stripped : strip q.call = q.call
  call_upper : u.upper q.call = q.call
  mode_ne_nil : q.mode ≠ []
  mode_upper : u.upper q.mode = q.mode
  mode_length : q.mode.length ≤ 12
  year : 1000 ≤ q.when.year
  freq : ∀ f ∈ q.freqMhz, (Float64.ofRat (1 / 10000)).le f = true
  band : q.band ≠ [] ∧ u.lower q.band = q.band ∨
    q.band = bandForFreq (q.freqMhz.map (Float64.round 4))
  rstSent_length : q.rstSent.length ≤ 8
  rstRcvd_length : q.rstRcvd.length ≤ 8
  name_length : q.name.length ≤ 120
  qth_length : q.qth.length ≤ 120
  gridsquare_length : q.gridsquare.length ≤ 8
  country_length : q.country.length ≤ 64

/-- The contact as another operator gets it. -/
def imported (user : ℕ) (q : Qso) : Qso :=
  { q with
    user
    when := q.when.toSecond
    freqMhz := q.freqMhz.map (Float64.round 4)
    comment := collapseSpaces q.comment
    source := .imported }

/-- An operator without a log gets every contact of an export, and the one it comes from none. -/
def LogSurvives (u : Unicode) (owner : ℕ) (stationCall : Str) (qsos : List Qso) : Prop :=
  (∀ user log, (∀ l ∈ log, l.user ≠ user) →
    importAdif u user (adifExport qsos stationCall) log =
      .ok ⟨qsos.length, 0, 0⟩ (log ++ qsos.map (imported user))) ∧
  ∀ own, qsos ⊆ own →
    importAdif u owner (adifExport qsos stationCall) own = .ok ⟨0, qsos.length, 0⟩ own

/-! ## One record -/

section

variable (stationCall : Str)

theorem orElse_of_ne_nil {a : Str} (h : a ≠ []) (b : Str) : orElse a b = a := if_neg h

theorem recordBand_eq (hq : Exportable u owner q) :
    orElse (u.lower q.band) (bandForFreq (q.freqMhz.map (Float64.round 4))) = q.band := by
  rcases hq.band with ⟨hne, hlower⟩ | hband
  · rw [hlower, orElse_of_ne_nil hne]
  · rw [← hband]
    have hlower : u.lower q.band = q.band := by
      rw [hband, lower_bandForFreq]
    rw [hlower, orElse]
    split
    · rfl
    · rfl

theorem recordQso_exportFields (hq : Exportable u owner q) (user : ℕ) :
    recordQso u user q.call q.when.toSecond (exportFields stationCall q) = imported user q := by
  have hmode : Record.get (exportFields stationCall q) "mode".toList "CW".toList = q.mode :=
    get_shown (by simp [fieldRows]) _
  have hband : Record.get (exportFields stationCall q) "band".toList [] = q.band :=
    get_optional (by simp [fieldRows])
  have hfreqRow : ⟨"freq".toList, q.freqMhz.any Float64.isTrue,
      (q.freqMhz.map (Float64.fixed 4)).getD []⟩ ∈ fieldRows stationCall q := by simp [fieldRows]
  have hfreq : recordFreq u (exportFields stationCall q) = q.freqMhz.map (Float64.round 4) :=
    recordFreq_eq u hq.freq (get_exportFields stationCall q hfreqRow [])
  have hsent : Record.get (exportFields stationCall q) "rst_sent".toList [] = q.rstSent :=
    get_optional (by simp [fieldRows])
  have hrcvd : Record.get (exportFields stationCall q) "rst_rcvd".toList [] = q.rstRcvd :=
    get_optional (by simp [fieldRows])
  have hname : Record.get (exportFields stationCall q) "name".toList [] = q.name :=
    get_optional (by simp [fieldRows])
  have hqth : Record.get (exportFields stationCall q) "qth".toList [] = q.qth :=
    get_optional (by simp [fieldRows])
  have hgrid : Record.get (exportFields stationCall q) "gridsquare".toList [] = q.gridsquare :=
    get_optional (by simp [fieldRows])
  have hcountry : Record.get (exportFields stationCall q) "country".toList [] = q.country :=
    get_optional (by simp [fieldRows])
  have hcomment : Record.get (exportFields stationCall q) "comment".toList [] =
      collapseSpaces q.comment := by
    have hrow : ⟨"comment".toList, q.comment ≠ [], collapseSpaces q.comment⟩ ∈
        fieldRows stationCall q := by simp [fieldRows]
    rw [get_exportFields stationCall q hrow []]
    by_cases hempty : q.comment = []
    · rw [hempty]
      rfl
    · rw [if_pos (decide_eq_true hempty)]
  rw [recordQso, hmode, hband, hfreq, hsent, hrcvd, hname, hqth, hgrid, hcountry, hcomment,
    recordBand_eq hq, hq.mode_upper, List.take_of_length_le hq.mode_length,
    orElse_of_ne_nil hq.mode_ne_nil, List.take_of_length_le hq.rstSent_length,
    List.take_of_length_le hq.rstRcvd_length, List.take_of_length_le hq.name_length,
    List.take_of_length_le hq.qth_length, List.take_of_length_le hq.gridsquare_length,
    List.take_of_length_le hq.country_length, imported]

/-- The call and the time of an exported contact are read back. -/
theorem recordCall_exportFields (hq : Exportable u owner q) :
    recordCall u (exportFields stationCall q) = q.call := by
  have hget : Record.get (exportFields stationCall q) "call".toList [] = q.call :=
    get_shown (by simp [fieldRows]) []
  rw [recordCall, hget, hq.call_stripped, hq.call_upper]

theorem parseAdifWhen_exportFields (hq : Exportable u owner q) :
    parseAdifWhen u (exportFields stationCall q) = some q.when.toSecond :=
  q.when.parseAdifWhen_eq u hq.year (get_shown (by simp [fieldRows]) [])
    (get_shown (by simp [fieldRows]) [])

theorem recordCall_ne_nil (hq : Exportable u owner q) :
    recordCall u (exportFields stationCall q) ≠ [] := by
  rw [recordCall_exportFields stationCall hq]
  exact hq.call_ne_nil

theorem importRecord_exported_duplicate (hq : Exportable u owner q)
    (hlast : ¬ q.when.IsLastMinute) {user : ℕ} {log : List Qso}
    (htaken : ∃ l ∈ log, l.user = user ∧ l.key = q.key) :
    importRecord u user (exportFields stationCall q) log = .ok .duplicate log := by
  apply importRecord_duplicate (recordCall_ne_nil stationCall hq)
    (parseAdifWhen_exportFields stationCall hq) hlast
  rw [recordCall_exportFields stationCall hq]
  exact htaken

theorem importRecord_exported_created (hq : Exportable u owner q)
    (hlast : ¬ q.when.IsLastMinute) {user : ℕ} {log : List Qso}
    (hfree : ∀ l ∈ log, l.user = user → l.key ≠ q.key) :
    importRecord u user (exportFields stationCall q) log =
      .ok .created (log ++ [imported user q]) := by
  have hcreated := importRecord_created (recordCall_ne_nil stationCall hq)
    (parseAdifWhen_exportFields stationCall hq) hlast
    (by rw [recordCall_exportFields stationCall hq]; exact hfree)
  rw [hcreated, recordCall_exportFields stationCall hq, recordQso_exportFields stationCall hq]

theorem late_exportFields (hq : Exportable u owner q) (hlast : q.when.IsLastMinute) :
    Late u (exportFields stationCall q) :=
  ⟨recordCall_ne_nil stationCall hq, q.when.toSecond, parseAdifWhen_exportFields stationCall hq,
    hlast⟩

/-! ## All records -/

variable {stationCall} {qsos : List Qso}

theorem importRecords_created (hq : ∀ q ∈ qsos, Exportable u owner q)
    (hlast : ∀ q ∈ qsos, ¬ q.when.IsLastMinute) (hkeys : (qsos.map Qso.key).Nodup) {user : ℕ}
    {log : List Qso} (hfree : ∀ l ∈ log, l.user = user → l.key ∉ qsos.map Qso.key)
    (stats : ImportStats) :
    importRecords u user (qsos.map (exportFields stationCall)) stats log =
      .ok { stats with created := stats.created + qsos.length } (log ++ qsos.map (imported user)) := by
  induction qsos generalizing log stats with
  | nil => simp [importRecords, pure, EStateM.pure]
  | cons q qsos ih =>
    rw [List.map_cons, List.nodup_cons] at hkeys
    have hhead : importRecord u user (exportFields stationCall q) log = _ :=
      importRecord_exported_created stationCall (hq q List.mem_cons_self) (hlast q List.mem_cons_self)
        fun l hl huser hkey => hfree l hl huser (by simp [hkey])
    have hrest : ∀ l ∈ log ++ [imported user q], l.user = user → l.key ∉ qsos.map Qso.key := by
      intro l hl huser hmem
      rcases List.mem_append.mp hl with hl | hl
      · exact hfree l hl huser (List.mem_cons_of_mem _ hmem)
      · rw [List.mem_singleton.mp hl] at hmem
        exact hkeys.1 hmem
    rw [List.map_cons, importRecords_cons_ok hhead,
      ih (fun q' hq' => hq q' (List.mem_cons_of_mem _ hq'))
        (fun q' hq' => hlast q' (List.mem_cons_of_mem _ hq')) hkeys.2 hrest]
    simp [ImportStats.add, Nat.add_assoc, Nat.add_comm 1]

theorem importRecords_duplicates (hq : ∀ q ∈ qsos, Exportable u owner q)
    (hlast : ∀ q ∈ qsos, ¬ q.when.IsLastMinute) {own : List Qso} (hown : qsos ⊆ own)
    (stats : ImportStats) :
    importRecords u owner (qsos.map (exportFields stationCall)) stats own =
      .ok { stats with duplicates := stats.duplicates + qsos.length } own := by
  induction qsos generalizing stats with
  | nil => rfl
  | cons q qsos ih =>
    have hq' := hq q List.mem_cons_self
    have hhead : importRecord u owner (exportFields stationCall q) own = _ :=
      importRecord_exported_duplicate stationCall hq' (hlast q List.mem_cons_self)
        ⟨q, hown List.mem_cons_self, hq'.user, rfl⟩
    rw [List.map_cons, importRecords_cons_ok hhead,
      ih (fun q' hmem => hq q' (List.mem_cons_of_mem _ hmem))
        (fun q' hmem => hlast q' (List.mem_cons_of_mem _ hmem))
        fun q' hmem => hown (List.mem_cons_of_mem _ hmem)]
    simp [ImportStats.add, Nat.add_assoc, Nat.add_comm 1]

/-- One contact in the last minute ends the import. -/
theorem importRecords_raises (hq : ∀ q ∈ qsos, Exportable u owner q)
    (hlast : ∃ q ∈ qsos, q.when.IsLastMinute) (user : ℕ) (log : List Qso) (stats : ImportStats) :
    ∃ e log', importRecords u user (qsos.map (exportFields stationCall)) stats log =
      .error e log' := by
  obtain ⟨q, hmem, hlast⟩ := hlast
  exact importRecords_late ⟨exportFields stationCall q, List.mem_map_of_mem hmem,
    late_exportFields stationCall (hq q hmem) hlast⟩ user log stats

/-! ## The whole log -/

/-- The lines in front of `<EOH>`. -/
def exportHeader : Str :=
  List.intercalate ['\n'] ["CW Station log export".toList, adifField "adif_ver".toList "3.1.4".toList,
    adifField "programid".toList "CW Station".toList]

theorem isHeader_exportHeader : IsHeader exportHeader := by
  unfold IsHeader
  decide

theorem adifExport_eq (stationCall : Str) (qsos : List Qso) :
    adifExport qsos stationCall = adifFile exportHeader (qsos.map (exportFields stationCall)) := by
  rw [adifFile_eq, adifExport, List.cons_append, intercalate_eq_flatMap, exportHeader,
    intercalate_eq_flatMap]
  simp [recordsText, List.flatMap_map]

theorem importAdif_adifExport (hsize : (adifExport qsos stationCall).length ≤ maxSize)
    (user : ℕ) :
    importAdif u user (adifExport qsos stationCall) =
      importRecords u user (qsos.map (exportFields stationCall)) {} := by
  have hrecords : ∀ r ∈ qsos.map (exportFields stationCall), IsRecord u r := by
    intro r hr
    obtain ⟨q, -, rfl⟩ := List.mem_map.mp hr
    exact isRecord_exportFields u stationCall q
  rw [adifExport_eq] at hsize ⊢
  rw [importAdif, parseAdif_adifFile u isHeader_exportHeader hrecords hsize]
  rfl

/-- A log of contacts that can be told apart survives unless one of them lies in the last
minute there is. -/
theorem log_survives_iff (u : Unicode) (owner : ℕ) (stationCall : Str) {qsos : List Qso}
    (hq : ∀ q ∈ qsos, Exportable u owner q) (hkeys : (qsos.map Qso.key).Nodup)
    (hsize : (adifExport qsos stationCall).length ≤ maxSize) :
    LogSurvives u owner stationCall qsos ↔ ∀ q ∈ qsos, ¬ q.when.IsLastMinute := by
  constructor
  · intro hsurvives
    by_contra hlast
    push Not at hlast
    obtain ⟨e, log', hraise⟩ : ∃ e log', importRecords u owner
        (qsos.map (exportFields stationCall)) {} [] = .error e log' :=
      importRecords_raises hq hlast owner [] {}
    have hcreated := hsurvives.1 owner [] (fun l hl => absurd hl List.not_mem_nil)
    rw [importAdif_adifExport hsize, hraise] at hcreated
    cases hcreated
  · intro hlast
    constructor
    · intro user log hlog
      rw [importAdif_adifExport hsize, importRecords_created hq hlast hkeys
        fun l hl huser => absurd huser (hlog l hl)]
      simp
    · intro own hown
      rw [importAdif_adifExport hsize, importRecords_duplicates hq hlast hown]
      simp

end

/-- 14.0625 MHz. -/
def japanFreq : Finite64 where
  val := (225 : ℤ) * 2 ^ (-4 : ℤ)
  exact := nearestFloat_of_digits (by decide) (by decide)
  bounded := by
    have hlimit : (2 : ℚ) ^ 5 ≤ floatLimit := pow_le_pow_right₀ one_le_two (by decide)
    apply lt_of_lt_of_le _ hlimit
    norm_num

def japanQso : Qso where
  user := 1
  call := "JA1NUT".toList
  when := ⟨2026, 3, 4, 5, 6, 7, 8, by decide, by decide, by decide, by decide, by decide, by decide,
    by decide⟩
  freqMhz := some (.num japanFreq)
  band := "20m".toList
  name := "Shin".toList
  comment := "long  path".toList

theorem exportable_japanQso : Exportable .ascii 1 japanQso where
  user := rfl
  call_ne_nil := by decide
  call_stripped := by decide
  call_upper := by decide
  mode_ne_nil := by decide
  mode_upper := by decide
  mode_length := by decide
  year := by decide
  freq := by
    rintro f ⟨⟩
    obtain ⟨y, hy, -, hlt⟩ := ofRat_tenthousandth
    have hone : (1 : ℚ) ≤ japanFreq.val := by norm_num [japanFreq]
    rw [hy]
    exact decide_eq_true (hlt.le.trans hone)
  band := .inl ⟨by decide, by decide⟩
  rstSent_length := by decide
  rstRcvd_length := by decide
  name_length := by decide
  qth_length := by decide
  gridsquare_length := by decide
  country_length := by decide

theorem japan_log_survives : LogSurvives .ascii 1 [] [japanQso] := by
  apply (log_survives_iff .ascii 1 [] ?_ ?_ ?_).mpr
  · intro q hq hlast
    rw [List.mem_singleton.mp hq] at hlast
    exact absurd hlast.1 (by decide)
  · intro q hq
    rw [List.mem_singleton.mp hq]
    exact exportable_japanQso
  · simp
  · decide +kernel

/-- A contact at `datetime.max`. -/
def lateQso : Qso where
  user := 1
  call := "W1AW".toList
  when := ⟨9999, 12, 31, 23, 59, 59, 999999, by decide, by decide, by decide, by decide, by decide,
    by decide, by decide⟩

theorem exportable_lateQso : Exportable .ascii 1 lateQso where
  user := rfl
  call_ne_nil := by decide
  call_stripped := by decide
  call_upper := by decide
  mode_ne_nil := by decide
  mode_upper := by decide
  mode_length := by decide
  year := by decide
  freq := by
    rintro f ⟨⟩
  band := .inr rfl
  rstSent_length := by decide
  rstRcvd_length := by decide
  name_length := by decide
  qth_length := by decide
  gridsquare_length := by decide
  country_length := by decide

theorem late_log_refused : Exportable .ascii 1 lateQso ∧ ([lateQso].map Qso.key).Nodup ∧
    (adifExport [lateQso] []).length ≤ maxSize ∧
    importAdif .ascii 2 (adifExport [lateQso] []) [] =
      .error ⟨.overflowError, "date value out of range"⟩ [] ∧
    ¬ LogSurvives .ascii 1 [] [lateQso] := by
  have hsize : (adifExport [lateQso] []).length ≤ maxSize := by decide +kernel
  have hraise : ∀ user, importAdif .ascii user (adifExport [lateQso] []) [] =
      .error ⟨.overflowError, "date value out of range"⟩ [] := by
    intro user
    rw [importAdif_adifExport hsize]
    have hlate : Late .ascii (exportFields [] lateQso) :=
      late_exportFields [] exportable_lateQso ⟨rfl, rfl, rfl, rfl, rfl⟩
    exact bind_of_error (importRecord_late hlate user [])
  refine ⟨exportable_lateQso, by simp, hsize, hraise 2, ?_⟩
  intro hsurvives
  have hcreated := hsurvives.1 2 [] fun l hl => absurd hl List.not_mem_nil
  rw [hraise 2] at hcreated
  cases hcreated

end CwStation.Adif
