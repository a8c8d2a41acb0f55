import CwStation.Library.Effects
import CwStation.Library.Emit
import CwStation.Verification.Adif.Parse
import CwStation.Verification.Logbook.Times

/-! # What `import_adif` does with the records of a text -/

namespace CwStation.Adif

open Effects Emit

variable {u : Unicode} {user : ℕ} {r : Record} {records : List Record} {log : List Qso}

/-! ## One record -/

/-- What tells contacts apart: the call and the minute. -/
def Qso.key (q : Qso) : Str × ℕ := (q.call, q.when.minutes)

/-- The call of a record. -/
def recordCall (u : Unicode) (r : Record) : Str :=
  u.upper (strip (Record.get r "call".toList []))

/-- What tells a record apart, if its call is not blank and its date and time can be read. -/
def recordKey (u : Unicode) (r : Record) : Option (Str × ℕ) :=
  if recordCall u r = [] then none
  else (parseAdifWhen u r).map fun when => (recordCall u r, when.minutes)

/-- A record that could be imported but for its time, the last minute a `datetime` can hold. -/
def Late (u : Unicode) (r : Record) : Prop :=
  recordCall u r ≠ [] ∧ ∃ when, parseAdifWhen u r = some when ∧ when.IsLastMinute

theorem recordKey_eq_some {key : Str × ℕ} (h : recordKey u r = some key) :
    recordCall u r ≠ [] ∧ ∃ when, parseAdifWhen u r = some when ∧
      key = (recordCall u r, when.minutes) := by
  unfold recordKey at h
  split at h
  · cases h
  · rename_i hcall
    obtain ⟨when, hwhen, hkey⟩ := Option.map_eq_some_iff.mp h
    exact ⟨hcall, when, hwhen, hkey.symm⟩

theorem make_microsecond {year month day hour minute second : ℤ} {w : DateTime}
    (h : DateTime.make year month day hour minute second = .ok w) : w.microsecond = 0 := by
  unfold DateTime.make at h
  split at h
  · cases h
    rfl
  · cases h

theorem eq_ok_of_toOption {α : Type} {x : Except PyExc α} {a : α} (h : x.toOption = some a) :
    x = .ok a := by
  cases x with
  | error e => cases h
  | ok b => exact congrArg Except.ok (Option.some.inj h)

theorem parseAdifWhen_microsecond {w : DateTime} (h : parseAdifWhen u r = some w) :
    w.microsecond = 0 := by
  simp only [parseAdifWhen] at h
  split at h
  · cases h
  · have hparsed := eq_ok_of_toOption h
    simp only [bind_eq_ok] at hparsed
    obtain ⟨year, -, month, -, day, -, hour, -, minute, -, second, -, hmake⟩ := hparsed
    exact make_microsecond hmake

/-- The duplicates of a record are the contacts with its call in its minute. -/
theorem any_duplicates_iff {call : Str} {when hi : DateTime} (hmicrosecond : when.microsecond = 0)
    (hhi : when.startOfMinute.addMinute = .ok hi) (user : ℕ) (log : List Qso) :
    log.any (Qso.duplicates user call when.startOfMinute hi) = true ↔
      ∃ l ∈ log, l.user = user ∧ l.key = (call, when.minutes) := by
  have hwindow := DateTime.in_window_iff hhi rfl hmicrosecond
  have hminutes : when.startOfMinute.minutes = when.minutes := rfl
  simp only [List.any_eq_true, Qso.duplicates, Bool.and_eq_true, decide_eq_true_eq, and_assoc,
    hwindow, hminutes, Qso.key, Prod.mk.injEq]

theorem importRecord_unusable (h : recordKey u r = none) (user : ℕ) (log : List Qso) :
    importRecord u user r log = .ok .error log := by
  unfold importRecord
  cases hwhen : parseAdifWhen u r with
  | none => rfl
  | some when =>
    have hcall : recordCall u r = [] := by
      by_contra hcall
      rw [recordKey, if_neg hcall, hwhen] at h
      cases h
    simp only [show u.upper (strip (Record.get r "call".toList [])) = [] from hcall, if_pos]
    rfl

/-- A record that can be imported goes through the search for duplicates, unless its minute has
no end. -/
theorem importRecord_usable {when : DateTime} (hcall : recordCall u r ≠ [])
    (hwhen : parseAdifWhen u r = some when) (user : ℕ) (log : List Qso) :
    importRecord u user r log =
      match when.startOfMinute.addMinute with
      | .error e => .error e log
      | .ok hi =>
        if log.any (Qso.duplicates user (recordCall u r) when.startOfMinute hi) then
          .ok .duplicate log
        else .ok .created (log ++ [recordQso u user (recordCall u r) when r]) := by
  unfold importRecord
  simp only [hwhen]
  rw [show u.upper (strip (Record.get r "call".toList [])) = recordCall u r from rfl]
  simp only [if_neg hcall]
  cases when.startOfMinute.addMinute with
  | error e => rfl
  | ok hi =>
    have hstate : (get : EStateM PyExc (List Qso) (List Qso)) log = .ok log log := rfl
    simp only
    rw [bind_of_ok hstate]
    split
    · rfl
    · rfl

theorem importRecord_late (h : Late u r) (user : ℕ) (log : List Qso) :
    importRecord u user r log = .error ⟨.overflowError, "date value out of range"⟩ log := by
  obtain ⟨hcall, when, hwhen, hlast⟩ := h
  have hnext : when.startOfMinute.addMinute =
      .error ⟨.overflowError, "date value out of range"⟩ :=
    DateTime.addMinute_of_isLastMinute hlast
  rw [importRecord_usable hcall hwhen, hnext]

theorem importRecord_duplicate {when : DateTime} (hcall : recordCall u r ≠ [])
    (hwhen : parseAdifWhen u r = some when) (hlast : ¬when.IsLastMinute)
    (htaken : ∃ l ∈ log, l.user = user ∧ l.key = (recordCall u r, when.minutes)) :
    importRecord u user r log = .ok .duplicate log := by
  obtain ⟨hi, hhi, -⟩ : ∃ hi, when.startOfMinute.addMinute = .ok hi ∧ _ :=
    DateTime.addMinute_of_not_isLastMinute hlast
  rw [importRecord_usable hcall hwhen, hhi]
  exact if_pos ((any_duplicates_iff (parseAdifWhen_microsecond hwhen) hhi user log).mpr htaken)

theorem importRecord_created {when : DateTime} (hcall : recordCall u r ≠ [])
    (hwhen : parseAdifWhen u r = some when) (hlast : ¬when.IsLastMinute)
    (hfree : ∀ l ∈ log, l.user = user → l.key ≠ (recordCall u r, when.minutes)) :
    importRecord u user r log =
      .ok .created (log ++ [recordQso u user (recordCall u r) when r]) := by
  obtain ⟨hi, hhi, -⟩ : ∃ hi, when.startOfMinute.addMinute = .ok hi ∧ _ :=
    DateTime.addMinute_of_not_isLastMinute hlast
  rw [importRecord_usable hcall hwhen, hhi]
  apply if_neg
  rw [any_duplicates_iff (parseAdifWhen_microsecond hwhen) hhi user log]
  rintro ⟨l, hl, huser, hkey⟩
  exact hfree l hl huser hkey

/-! ## All records -/

theorem importRecords_cons_ok {stats : ImportStats} {log log' : List Qso} {what : Imported}
    (h : importRecord u user r log = .ok what log') :
    importRecords u user (r :: records) stats log =
      importRecords u user records (stats.add what) log' :=
  bind_of_ok h

/-- The keys of an operator's contacts. -/
def keys (user : ℕ) (log : List Qso) : List (Str × ℕ) :=
  (log.filter fun q => q.user = user).map Qso.key

theorem mem_keys {key : Str × ℕ} : key ∈ keys user log ↔ ∃ l ∈ log, l.user = user ∧ l.key = key := by
  simp [keys, and_assoc]

theorem keys_append (user : ℕ) (log more : List Qso) :
    keys user (log ++ more) = keys user log ++ keys user more := by
  simp [keys]

def ImportStats.total (stats : ImportStats) : ℕ :=
  stats.created + stats.duplicates + stats.errors

@[simp] theorem total_add (stats : ImportStats) (what : Imported) :
    (stats.add what).total = stats.total + 1 := by
  cases what with
  | created => simp only [ImportStats.total, ImportStats.add]; omega
  | duplicate => simp only [ImportStats.total, ImportStats.add]; omega
  | error => simp only [ImportStats.total, ImportStats.add]; omega

/-- What importing records brings: every record is counted as what it is, the new contacts have
keys of their own, and afterwards the log has the key of every record that can be imported. -/
structure Brings (u : Unicode) (user : ℕ) (records : List Record) (log : List Qso)
    (before after : ImportStats) (new : List Qso) : Prop where
  total : after.total = before.total + records.length
  created : after.created = before.created + new.length
  errors : after.errors = before.errors + records.countP fun r => (recordKey u r).isNone
  users : ∀ q ∈ new, q.user = user
  fresh : ∀ q ∈ new, q.key ∉ keys user log
  distinct : (new.map Qso.key).Nodup
  origin : ∀ q ∈ new, ∃ r ∈ records, recordKey u r = some q.key
  present : ∀ r ∈ records, ∀ key ∈ recordKey u r, key ∈ keys user (log ++ new)

theorem brings_nil (u : Unicode) (user : ℕ) (log : List Qso) (stats : ImportStats) :
    Brings u user [] log stats stats [] := by
  constructor <;> simp

/-- A record that is no error is created or a duplicate. -/
theorem importRecord_key {key : Str × ℕ} (hkey : recordKey u r = some key) (hlate : ¬Late u r)
    (user : ℕ) (log : List Qso) :
    key ∈ keys user log ∧ importRecord u user r log = .ok .duplicate log ∨
      key ∉ keys user log ∧ ∃ q : Qso, q.user = user ∧ q.key = key ∧
        importRecord u user r log = .ok .created (log ++ [q]) := by
  obtain ⟨hcall, when, hwhen, rfl⟩ := recordKey_eq_some hkey
  have hlast : ¬when.IsLastMinute := fun hlast => hlate ⟨hcall, when, hwhen, hlast⟩
  by_cases htaken : (recordCall u r, when.minutes) ∈ keys user log
  · exact .inl ⟨htaken, importRecord_duplicate hcall hwhen hlast (mem_keys.mp htaken)⟩
  · refine .inr ⟨htaken, recordQso u user (recordCall u r) when r, rfl, rfl, ?_⟩
    apply importRecord_created hcall hwhen hlast
    intro l hl huser heq
    exact htaken (mem_keys.mpr ⟨l, hl, huser, heq⟩)

section Step

variable {before after : ImportStats} {new : List Qso} {key : Str × ℕ}

theorem Brings.error (hkey : recordKey u r = none)
    (h : Brings u user records log (before.add .error) after new) :
    Brings u user (r :: records) log before after new where
  total := by rw [h.total, total_add, List.length_cons]; omega
  created := h.created
  errors := by
    rw [h.errors, List.countP_cons_of_pos (by rw [hkey]; rfl)]
    simp only [ImportStats.add]
    omega
  users := h.users
  fresh := h.fresh
  distinct := h.distinct
  origin q hq := by
    obtain ⟨r', hr', hkey'⟩ := h.origin q hq
    exact ⟨r', List.mem_cons_of_mem _ hr', hkey'⟩
  present r' hr' key hkey' := by
    rcases List.mem_cons.mp hr' with rfl | hr'
    · rw [hkey] at hkey'
      cases hkey'
    · exact h.present r' hr' key hkey'

theorem Brings.duplicate (hkey : recordKey u r = some key) (htaken : key ∈ keys user log)
    (h : Brings u user records log (before.add .duplicate) after new) :
    Brings u user (r :: records) log before after new where
  total := by rw [h.total, total_add, List.length_cons]; omega
  created := h.created
  errors := by rw [h.errors, List.countP_cons_of_neg (by rw [hkey]; simp)]; rfl
  users := h.users
  fresh := h.fresh
  distinct := h.distinct
  origin q hq := by
    obtain ⟨r', hr', hkey'⟩ := h.origin q hq
    exact ⟨r', List.mem_cons_of_mem _ hr', hkey'⟩
  present r' hr' key' hkey' := by
    rcases List.mem_cons.mp hr' with rfl | hr'
    · obtain rfl : key = key' := Option.some.inj (hkey.symm.trans hkey')
      rw [keys_append]
      exact List.mem_append_left _ htaken
    · exact h.present r' hr' key' hkey'

theorem Brings.create {q : Qso} (hkey : recordKey u r = some key) (hfree : key ∉ keys user log)
    (huser : q.user = user) (hq : q.key = key)
    (h : Brings u user records (log ++ [q]) (before.add .created) after new) :
    Brings u user (r :: records) log before after (q :: new) where
  total := by rw [h.total, total_add, List.length_cons]; omega
  created := by
    rw [h.created, List.length_cons]
    simp only [ImportStats.add]
    omega
  errors := by rw [h.errors, List.countP_cons_of_neg (by rw [hkey]; simp)]; rfl
  users q' hq' := by
    rcases List.mem_cons.mp hq' with rfl | hq'
    · exact huser
    · exact h.users q' hq'
  fresh q' hq' hmem := by
    rcases List.mem_cons.mp hq' with rfl | hq'
    · exact hfree (hq ▸ hmem)
    · apply h.fresh q' hq'
      rw [keys_append]
      exact List.mem_append_left _ hmem
  distinct := by
    rw [List.map_cons, List.nodup_cons]
    refine ⟨?_, h.distinct⟩
    intro hmem
    obtain ⟨q', hq', heq⟩ := List.mem_map.mp hmem
    exact h.fresh q' hq' (mem_keys.mpr ⟨q, by simp, huser, heq.symm⟩)
  origin q' hq' := by
    rcases List.mem_cons.mp hq' with rfl | hq'
    · exact ⟨r, List.mem_cons_self, hkey.trans (congrArg some hq.symm)⟩
    · obtain ⟨r', hr', hkey'⟩ := h.origin q' hq'
      exact ⟨r', List.mem_cons_of_mem _ hr', hkey'⟩
  present r' hr' key' hkey' := by
    rw [List.append_cons]
    rcases List.mem_cons.mp hr' with rfl | hr'
    · obtain rfl : key = key' := Option.some.inj (hkey.symm.trans hkey')
      exact mem_keys.mpr ⟨q, by simp, huser, hq⟩
    · exact h.present r' hr' key' hkey'

end Step

/-- Records none of which lies in the last minute are all imported. -/
theorem importRecords_brings (hlate : ∀ r ∈ records, ¬Late u r) (user : ℕ) (log : List Qso)
    (before : ImportStats) :
    ∃ after new, importRecords u user records before log = .ok after (log ++ new) ∧
      Brings u user records log before after new := by
  induction records generalizing log before with
  | nil => exact ⟨before, [], by simp [importRecords, pure, EStateM.pure], brings_nil u user log before⟩
  | cons r records ih =>
    have hrest : ∀ r' ∈ records, ¬Late u r' := fun r' hr' => hlate r' (List.mem_cons_of_mem _ hr')
    cases hkey : recordKey u r with
    | none =>
      obtain ⟨after, new, himport, hbrings⟩ := ih hrest log (before.add .error)
      refine ⟨after, new, ?_, hbrings.error hkey⟩
      rw [importRecords_cons_ok (importRecord_unusable hkey user log), himport]
    | some key =>
      rcases importRecord_key hkey (hlate r List.mem_cons_self) user log with
        ⟨htaken, hhead⟩ | ⟨hfree, q, huser, hq, hhead⟩
      · obtain ⟨after, new, himport, hbrings⟩ := ih hrest log (before.add .duplicate)
        refine ⟨after, new, ?_, hbrings.duplicate hkey htaken⟩
        rw [importRecords_cons_ok hhead, himport]
      · obtain ⟨after, new, himport, hbrings⟩ := ih hrest (log ++ [q]) (before.add .created)
        refine ⟨after, q :: new, ?_, hbrings.create hkey hfree huser hq⟩
        rw [importRecords_cons_ok hhead, himport, ← List.append_cons]

/-- One record in the last minute ends the import. -/
theorem importRecords_late (hlate : ∃ r ∈ records, Late u r) (user : ℕ) (log : List Qso)
    (stats : ImportStats) :
    ∃ e log', importRecords u user records stats log = .error e log' := by
  induction records generalizing log stats with
  | nil => simp at hlate
  | cons r records ih =>
    cases hhead : importRecord u user r log with
    | error e log' => exact ⟨e, log', bind_of_error hhead⟩
    | ok what log' =>
      rw [importRecords_cons_ok hhead]
      apply ih
      obtain ⟨r', hmem, hlate⟩ := hlate
      rcases List.mem_cons.mp hmem with rfl | hmem
      · rw [importRecord_late hlate] at hhead
        cases hhead
      · exact ⟨r', hmem, hlate⟩

/-! ## A whole text -/

theorem importAdif_of_records {text : Str} (h : parseAdif u text = some (.ok records))
    (user : ℕ) : importAdif u user text = importRecords u user records {} := by
  rw [importAdif, h]
  rfl

/-- `import_adif` counts every record, and what it counts as created it has created: contacts
with keys of their own, beside which the log has the key of every record that can be imported, so
that the text brings nothing a second time. -/
def ImportsAll (u : Unicode) (user : ℕ) (text : Str) (log : List Qso) : Prop :=
  ∃ records stats new, parseAdif u text = some (.ok records) ∧
    importAdif u user text log = .ok stats (log ++ new) ∧
    stats.created + stats.duplicates + stats.errors = records.length ∧
    stats.created = new.length ∧
    stats.errors = records.countP (fun r => (recordKey u r).isNone) ∧
    (new.map Qso.key).Nodup ∧
    (∀ q ∈ new, q.user = user ∧ q.key ∉ keys user log) ∧
    (∀ r ∈ records, ∀ key ∈ recordKey u r, key ∈ keys user (log ++ new)) ∧
    ∃ again, importAdif u user text (log ++ new) = .ok again (log ++ new) ∧ again.created = 0

/-- The contacts a text brings have the keys of its records, which are in the log when it
comes again. -/
theorem importRecords_again {new : List Qso} (hlate : ∀ r ∈ records, ¬Late u r)
    (hpresent : ∀ r ∈ records, ∀ key ∈ recordKey u r, key ∈ keys user (log ++ new)) :
    ∃ again, importRecords u user records {} (log ++ new) = .ok again (log ++ new) ∧
      again.created = 0 := by
  obtain ⟨again, more, himport, hbrings⟩ := importRecords_brings hlate user (log ++ new) {}
  have hmore : more = [] := by
    apply List.eq_nil_iff_forall_not_mem.mpr
    intro q hq
    obtain ⟨r, hr, hkey⟩ := hbrings.origin q hq
    exact hbrings.fresh q hq (hpresent r hr q.key hkey)
  rw [hmore, List.append_nil] at himport
  refine ⟨again, himport, ?_⟩
  rw [hbrings.created, hmore]
  rfl

/-- A text is imported exactly if it can be parsed and none of its records that have a call lies
in the last minute there is. -/
theorem import_adif_total_iff (u : Unicode) (user : ℕ) (text : Str) (log : List Qso) :
    ImportsAll u user text log ↔
      ∃ records, parseAdif u text = some (.ok records) ∧ ∀ r ∈ records, ¬Late u r := by
  constructor
  · rintro ⟨records, stats, new, hparse, himport, -⟩
    refine ⟨records, hparse, ?_⟩
    intro r hr hlate
    obtain ⟨e, log', hraise⟩ := importRecords_late ⟨r, hr, hlate⟩ user log {}
    rw [importAdif_of_records hparse, hraise] at himport
    cases himport
  · rintro ⟨records, hparse, hlate⟩
    obtain ⟨stats, new, himport, hbrings⟩ := importRecords_brings hlate user log {}
    have htotal := hbrings.total
    have hcreated := hbrings.created
    have herrors := hbrings.errors
    refine ⟨records, stats, new, hparse, ?_, ?_, ?_, ?_, hbrings.distinct, ?_, hbrings.present, ?_⟩
    · rw [importAdif_of_records hparse, himport]
    · simpa [ImportStats.total] using htotal
    · simpa using hcreated
    · simpa using herrors
    · exact fun q hq => ⟨hbrings.users q hq, hbrings.fresh q hq⟩
    · rw [importAdif_of_records hparse]
      exact importRecords_again hlate hbrings.present

/-- A contact in the last minute of 9999. -/
def lateText : Str := "<call:4>W1AW<qso_date:8>99991231<time_on:4>2359<eor>".toList

/-- The record of that text. -/
def lateRecord : Record := [("call".toList, "W1AW".toList), ("qso_date".toList, "99991231".toList),
  ("time_on".toList, "2359".toList)]

theorem late_text_raises :
    importAdif .ascii 1 lateText [] = .error ⟨.overflowError, "date value out of range"⟩ [] ∧
      ¬ImportsAll .ascii 1 lateText [] := by
  have hparse : parseAdif .ascii lateText = some (.ok [lateRecord]) := by decide +kernel
  have hlast : ((parseAdifWhen .ascii lateRecord).any fun when => when.year = 9999 ∧
      when.month = 12 ∧ when.day = 31 ∧ when.hour = 23 ∧ when.minute = 59) = true := by
    decide +kernel
  have hlate : Late .ascii lateRecord := by
    cases hwhen : parseAdifWhen .ascii lateRecord with
    | none =>
        rw [hwhen] at hlast
        cases hlast
    | some when =>
        rw [hwhen] at hlast
        rw [Option.any_some, decide_eq_true_iff] at hlast
        exact ⟨by decide +kernel, when, hwhen, hlast⟩
  have hraise : importAdif .ascii 1 lateText [] =
      .error ⟨.overflowError, "date value out of range"⟩ [] := by
    rw [importAdif_of_records hparse]
    exact bind_of_error (importRecord_late hlate 1 [])
  refine ⟨hraise, ?_⟩
  rintro ⟨records, stats, new, -, himport, -⟩
  rw [hraise] at himport
  cases himport

end CwStation.Adif
