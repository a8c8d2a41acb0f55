import CwStation.Model.Adif
import CwStation.Model.Floats

/-! # The logbook: `band_for_freq`, `import_adif` and `adif_export` of `logbook.py` -/

namespace CwStation.Adif

/-! ## Dates -/

def isLeap (year : ℕ) : Bool := year % 4 = 0 && (year % 100 ≠ 0 || year % 400 = 0)

def daysInMonth (year month : ℕ) : ℕ :=
  if month = 2 then if isLeap year then 29 else 28
  else if month = 4 ∨ month = 6 ∨ month = 9 ∨ month = 11 then 30
  else 31

/-- An aware `datetime` in UTC. -/
structure DateTime where
  year : ℕ
  month : ℕ
  day : ℕ
  hour : ℕ
  minute : ℕ
  second : ℕ
  microsecond : ℕ
  year_range : 1 ≤ year ∧ year ≤ 9999
  month_range : 1 ≤ month ∧ month ≤ 12
  day_range : 1 ≤ day ∧ day ≤ daysInMonth year month
  hour_lt : hour < 24
  minute_lt : minute < 60
  second_lt : second < 60
  microsecond_lt : microsecond < 1000000
  deriving DecidableEq

theorem one_le_daysInMonth (year month : ℕ) : 1 ≤ daysInMonth year month := by
  unfold daysInMonth
  split_ifs <;> omega

namespace DateTime

/-- `datetime(year, month, day, hour, minute, second, tzinfo=utc)`. -/
def make (year month day hour minute second : ℤ) : Except PyExc DateTime :=
  if h : (1 ≤ year.toNat ∧ year.toNat ≤ 9999) ∧ (1 ≤ month.toNat ∧ month.toNat ≤ 12) ∧
      (1 ≤ day.toNat ∧ day.toNat ≤ daysInMonth year.toNat month.toNat) ∧
      (0 ≤ hour ∧ hour.toNat < 24) ∧ (0 ≤ minute ∧ minute.toNat < 60) ∧
      (0 ≤ second ∧ second.toNat < 60) then
    .ok ⟨year.toNat, month.toNat, day.toNat, hour.toNat, minute.toNat, second.toNat, 0,
      h.1, h.2.1, h.2.2.1, h.2.2.2.1.2, h.2.2.2.2.1.2, h.2.2.2.2.2.2, by omega⟩
  else .error ⟨.valueError, "value out of range"⟩

/-- `when.replace(second=0)`. -/
def startOfMinute (w : DateTime) : DateTime := { w with second := 0, second_lt := by omega }

/-- The time without its microseconds. -/
def toSecond (w : DateTime) : DateTime := { w with microsecond := 0, microsecond_lt := by omega }

/-- Numbers the minutes in their order, with gaps behind the short months. -/
def minutes (w : DateTime) : ℕ :=
  (((w.year * 13 + w.month) * 32 + w.day) * 24 + w.hour) * 60 + w.minute

/-- Times are ordered as their fields are, from the year down. -/
def rank (w : DateTime) : ℕ := (w.minutes * 60 + w.second) * 1000000 + w.microsecond

/-- `w + timedelta(minutes=1)`. -/
def addMinute (w : DateTime) : Except PyExc DateTime :=
  if h : w.minute + 1 < 60 then .ok { w with minute := w.minute + 1, minute_lt := h }
  else if h : w.hour + 1 < 24 then
    .ok { w with hour := w.hour + 1, minute := 0, hour_lt := h, minute_lt := by omega }
  else if h : w.day + 1 ≤ daysInMonth w.year w.month then
    .ok { w with
      day := w.day + 1, hour := 0, minute := 0
      day_range := ⟨by omega, h⟩, hour_lt := by omega, minute_lt := by omega }
  else if h : w.month + 1 ≤ 12 then
    .ok { w with
      month := w.month + 1, day := 1, hour := 0, minute := 0
      month_range := ⟨by omega, h⟩, day_range := ⟨le_refl 1, one_le_daysInMonth _ _⟩
      hour_lt := by omega, minute_lt := by omega }
  else if h : w.year + 1 ≤ 9999 then
    .ok { w with
      year := w.year + 1, month := 1, day := 1, hour := 0, minute := 0
      year_range := ⟨by omega, h⟩, month_range := by omega
      day_range := ⟨le_refl 1, one_le_daysInMonth _ _⟩
      hour_lt := by omega, minute_lt := by omega }
  else .error ⟨.overflowError, "date value out of range"⟩

end DateTime

/-! ## Contacts -/

/-- The choices of `source`. -/
inductive Source
  | manual
  | session
  | reply
  | imported
  deriving DecidableEq

/-- A `QSO`. -/
structure Qso where
  user : ℕ
  call : Str
  when : DateTime
  freqMhz : Option Float64 := none
  band : Str := []
  mode : Str := "CW".toList
  rstSent : Str := "599".toList
  rstRcvd : Str := []
  name : Str := []
  qth : Str := []
  gridsquare : Str := []
  country : Str := []
  comment : Str := []
  source : Source := .manual
  deriving DecidableEq

/-- `BANDS`, whose limits are float literals. -/
def bands : List (ℚ × ℚ × Str) := [
  (1.8, 2, "160m".toList), (3.5, 4, "80m".toList), (5.3, 5.41, "60m".toList),
  (7, 7.3, "40m".toList), (10.1, 10.15, "30m".toList), (14, 14.35, "20m".toList),
  (18.068, 18.168, "17m".toList), (21, 21.45, "15m".toList), (24.89, 24.99, "12m".toList),
  (28, 29.7, "10m".toList), (50, 54, "6m".toList), (144, 148, "2m".toList),
  (420, 450, "70cm".toList)]

/-- `lo <= freq_mhz <= hi`. -/
def inBand (f : Float64) (band : ℚ × ℚ × Str) : Bool :=
  (Float64.ofRat band.1).le f && f.le (Float64.ofRat band.2.1)

/-- `band_for_freq`. -/
def bandForFreq : Option Float64 → Str
  | none => []
  | some f => if f.isTrue then ((bands.find? (inBand f)).map fun band => band.2.2).getD [] else []

/-! ## Import -/

/-- `record.get(name, default)`. -/
def Record.get (record : Record) (name default : Str) : Str := (record.lookup name).getD default

/-- `a or b`. -/
def orElse (a b : Str) : Str := if a = [] then b else a

/-- `s.ljust(n, c)`. -/
def ljust (n : ℕ) (c : Char) (s : Str) : Str := s ++ List.replicate (n - s.length) c

/-- `_parse_adif_when`. Whatever fails in it is a `ValueError`. -/
def parseAdifWhen (u : Unicode) (record : Record) : Option DateTime :=
  let date := strip (Record.get record "qso_date".toList [])
  let timeOn := ljust 6 '0' (orElse (strip (Record.get record "time_on".toList [])) "0000".toList)
  if date.length ≠ 8 ∨ ¬ date.all u.isDigit then none
  else
    let parsed : Except PyExc DateTime := do
      let year ← pyInt u (date.take 4)
      let month ← pyInt u ((date.drop 4).take 2)
      let day ← pyInt u ((date.drop 6).take 2)
      let hour ← pyInt u (timeOn.take 2)
      let minute ← pyInt u ((timeOn.drop 2).take 2)
      let second ← pyInt u ((timeOn.drop 4).take 2)
      DateTime.make year month day hour minute second
    parsed.toOption

/-- What becomes of a record. -/
inductive Imported
  | created
  | duplicate
  | error
  deriving DecidableEq

structure ImportStats where
  created : ℕ := 0
  duplicates : ℕ := 0
  errors : ℕ := 0
  deriving DecidableEq

def ImportStats.add (stats : ImportStats) : Imported → ImportStats
  | .created => { stats with created := stats.created + 1 }
  | .duplicate => { stats with duplicates := stats.duplicates + 1 }
  | .error => { stats with errors := stats.errors + 1 }

/-- The frequency of a record; a `ValueError` leaves it unknown. -/
def recordFreq (u : Unicode) (record : Record) : Option Float64 :=
  let text := Record.get record "freq".toList []
  if text = [] then none else ((pyFloat u text).map (Float64.round 4)).toOption

/-- The contact a record is imported as. -/
def recordQso (u : Unicode) (user : ℕ) (call : Str) (when : DateTime) (record : Record) : Qso where
  user
  call
  when
  freqMhz := recordFreq u record
  band := orElse (u.lower (Record.get record "band".toList [])) (bandForFreq (recordFreq u record))
  mode := orElse ((u.upper (Record.get record "mode".toList "CW".toList)).take 12) "CW".toList
  rstSent := (Record.get record "rst_sent".toList []).take 8
  rstRcvd := (Record.get record "rst_rcvd".toList []).take 8
  name := (Record.get record "name".toList []).take 120
  qth := (Record.get record "qth".toList []).take 120
  gridsquare := (Record.get record "gridsquare".toList []).take 8
  country := (Record.get record "country".toList []).take 64
  comment := Record.get record "comment".toList []
  source := .imported

/-- The filter for duplicates: the same call from the one time up to the other. -/
def Qso.duplicates (user : ℕ) (call : Str) (lo hi : DateTime) (q : Qso) : Bool :=
  q.user = user && q.call = call && lo.rank ≤ q.when.rank && q.when.rank < hi.rank

/-- One round of the loop of `import_adif`, over the contacts in the database. -/
def importRecord (u : Unicode) (user : ℕ) (record : Record) :
    EStateM PyExc (List Qso) Imported := do
  let call := u.upper (strip (Record.get record "call".toList []))
  match parseAdifWhen u record with
  | none => return .error
  | some when =>
      if call = [] then return .error
      match when.startOfMinute.addMinute with
      | .error e => throw e
      | .ok hi =>
          let log ← get
          if log.any (Qso.duplicates user call when.startOfMinute hi) then return .duplicate
          set (log ++ [recordQso u user call when record])
          return .created

def importRecords (u : Unicode) (user : ℕ) :
    List Record → ImportStats → EStateM PyExc (List Qso) ImportStats
  | [], stats => pure stats
  | record :: records, stats => do
      let imported ← importRecord u user record
      importRecords u user records (stats.add imported)

/-- `import_adif`. The parser comes to an end on every text. -/
def importAdif (u : Unicode) (user : ℕ) (text : Str) : EStateM PyExc (List Qso) ImportStats :=
  match (parseAdif u text).getD (.ok []) with
  | .error e => throw e
  | .ok records => importRecords u user records {}

/-! ## Export -/

/-- `if value: fields.append((name, text))`. -/
def optional (name value text : Str) : Record := if value = [] then [] else [(name, text)]

/-- `strftime("%Y%m%d")`; `%Y` fills no zeros in. -/
def dateText (w : DateTime) : Str := decimalText w.year ++ (zeroFill 2 w.month ++ zeroFill 2 w.day)

/-- `strftime("%H%M%S")`. -/
def timeText (w : DateTime) : Str := zeroFill 2 w.hour ++ (zeroFill 2 w.minute ++ zeroFill 2 w.second)

def freqField : Option Float64 → Record
  | none => []
  | some f => if f.isTrue then [("freq".toList, f.fixed 4)] else []

/-- The fields of one contact. -/
def exportFields (stationCall : Str) (q : Qso) : Record :=
  [("call".toList, q.call), ("qso_date".toList, dateText q.when),
    ("time_on".toList, timeText q.when), ("mode".toList, q.mode)] ++
  optional "band".toList q.band q.band ++
  freqField q.freqMhz ++
  optional "rst_sent".toList q.rstSent q.rstSent ++
  optional "rst_rcvd".toList q.rstRcvd q.rstRcvd ++
  optional "name".toList q.name q.name ++
  optional "qth".toList q.qth q.qth ++
  optional "gridsquare".toList q.gridsquare q.gridsquare ++
  optional "country".toList q.country q.country ++
  optional "station_callsign".toList stationCall stationCall ++
  optional "comment".toList q.comment (collapseSpaces q.comment)

/-- `adif_export`. -/
def adifExport (qsos : List Qso) (stationCall : Str) : Str :=
  List.intercalate ['\n'] (["CW Station log export".toList, adifField "adif_ver".toList "3.1.4".toList,
    adifField "programid".toList "CW Station".toList, "<EOH>".toList, []] ++
    qsos.map fun q => recordLine (exportFields stationCall q)) ++ ['\n']

end CwStation.Adif
