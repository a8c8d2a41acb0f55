import CwStation.Model.LogTail
import CwStation.Verification.Telemetry.Windows
import Mathlib.Data.List.Infix

/-! # A client that tails the log -/

namespace CwStation.Telemetry

variable {u : Unicode} {db : LogDb} {args : SearchArgs}

/-! ## What a page holds -/

/-- Whether a record passes the filters of a search. -/
def Matches (u : Unicode) (db : LogDb) (args : SearchArgs) (r : LogRecord) : Bool :=
  match parseFilters u args with
  | .ok f => f.pass db r
  | .error _ => false

/-- How many records a page may hold. -/
def pageSize (args : SearchArgs) : ℕ :=
  match parseLimit args.limit with
  | .ok limit => limit.toNat
  | .error _ => 0

/-- The records a search behind a cursor is about. -/
def matched (u : Unicode) (db : LogDb) (args : SearchArgs) (cursor : Option ℤ)
    (visible : List LogRecord) : List LogRecord :=
  visible.filter fun r => Matches u db args r && cursor.all fun c => c < (r.pk : ℤ)

/-- An answer to a search behind a cursor. -/
structure Answers (u : Unicode) (db : LogDb) (args : SearchArgs) (cursor : Option ℤ)
    (visible : List LogRecord) (page : Page) : Prop where
  records : page.records =
    (inPageOrder cursor (matched u db args cursor visible)).take (pageSize args)
  hasMore : page.hasMore = false → (matched u db args cursor visible).length ≤ pageSize args
  next : page.nextAfterId = (page.records.getLast?.map fun r => (r.pk : ℤ)).or cursor

theorem perm_inPageOrder (cursor : Option ℤ) (rows : List LogRecord) :
    (inPageOrder cursor rows).Perm rows := by
  cases cursor with
  | none => exact List.perm_insertionSort _ rows
  | some c => exact List.perm_insertionSort _ rows

theorem searchRecords_ok {afterId : Value} {visible : List LogRecord} {page : Page}
    (h : searchRecords u db args afterId visible = .ok page) :
    ∃ cursor, parseCursor afterId = .ok cursor ∧ Answers u db args cursor visible page := by
  unfold searchRecords at h
  cases hfilters : parseFilters u args with
  | error e => rw [hfilters] at h; cases h
  | ok filters =>
    cases hcursor : parseCursor afterId with
    | error e => rw [hfilters, hcursor] at h; cases h
    | ok cursor =>
      cases hlimit : parseLimit args.limit with
      | error e => rw [hfilters, hcursor, hlimit] at h; cases h
      | ok limit =>
        rw [hfilters, hcursor, hlimit] at h
        have hsize : pageSize args = limit.toNat := by rw [pageSize, hlimit]
        have hmatched : matched u db args cursor visible = visible.filter fun r =>
            filters.pass db r && cursor.all fun c => c < (r.pk : ℤ) := by
          simp only [matched, Matches, hfilters]
        cases h
        refine ⟨cursor, rfl, ?_, ?_, ?_⟩
        · rw [hsize, hmatched, List.take_take, min_eq_left (Nat.le_succ _)]
        · intro hmore
          have hlength := (perm_inPageOrder cursor (matched u db args cursor visible)).length_eq
          rw [hmatched] at hlength ⊢
          simp only [List.length_take, decide_eq_false_iff_not] at hmore
          omega
        · simp only
          generalize (List.take limit.toNat _).getLast? = last
          cases last with
          | none => rfl
          | some r => rfl

/-! ## Pages along the cursor -/

/-- Rows in the order of their keys. -/
def InKeyOrder (rows : List LogRecord) : Prop := rows.Pairwise fun a b => a.pk < b.pk

theorem inKeyOrder_inPageOrder {rows : List LogRecord}
    (h : (rows.map LogRecord.pk).Nodup) (c : ℤ) : InKeyOrder (inPageOrder (some c) rows) := by
  have htotal : Std.Total fun a b : LogRecord => a.pk ≤ b.pk := ⟨fun a b => le_total a.pk b.pk⟩
  have htrans : IsTrans LogRecord fun a b => a.pk ≤ b.pk := ⟨fun _ _ _ => le_trans⟩
  have hle := List.pairwise_insertionSort (fun a b : LogRecord => a.pk ≤ b.pk) rows
  have hne := ((perm_inPageOrder (some c) rows).map LogRecord.pk).nodup_iff.mpr h
  exact (hle.and (List.pairwise_map.mp hne)).imp fun hab => lt_of_le_of_ne hab.1 hab.2

theorem InKeyOrder.le_last {rows : List LogRecord} {r last : LogRecord} (h : InKeyOrder rows)
    (hlast : rows.getLast? = some last) (hr : r ∈ rows) : r.pk ≤ last.pk := by
  obtain ⟨init, rfl⟩ := List.getLast?_eq_some_iff.mp hlast
  rcases List.mem_append.mp hr with hr | hr
  · exact ((List.pairwise_append.mp h).2.2 r hr last (by simp)).le
  · rw [List.mem_singleton.mp hr]

/-- A page along the cursor leaves out no row up to its last. -/
theorem InKeyOrder.mem_take {rows : List LogRecord} {r last : LogRecord} {n : ℕ}
    (h : InKeyOrder rows) (hlast : (rows.take n).getLast? = some last) (hr : r ∈ rows)
    (hle : r.pk ≤ last.pk) : r ∈ rows.take n := by
  rw [← List.take_append_drop n rows] at h hr
  rcases List.mem_append.mp hr with hr | hr
  · exact hr
  · have hlt := (List.pairwise_append.mp h).2.2 last (List.mem_of_getLast? hlast) r hr
    exact absurd hlt (not_lt.mpr hle)

/-! ## Keys -/

/-- The keys that were taken: none twice, and none is still to come. -/
structure Keyed (s : Tail) : Prop where
  nodup : ∀ writer, ((s.visible ++ s.pending writer).map LogRecord.pk).Nodup
  apart : ∀ writer other, writer ≠ other →
    ∀ r ∈ s.pending writer, ∀ r' ∈ s.pending other, r.pk ≠ r'.pk
  visible_lt : ∀ r ∈ s.visible, r.pk < s.nextPk
  pending_lt : ∀ writer, ∀ r ∈ s.pending writer, r.pk < s.nextPk

theorem keyed_start (first : Value) : Keyed { after := first } where
  nodup _ := List.nodup_nil
  apart _ _ _ _ hr := absurd hr List.not_mem_nil
  visible_lt _ hr := absurd hr List.not_mem_nil
  pending_lt _ _ hr := absurd hr List.not_mem_nil

theorem Keyed.insert {s : Tail} (h : Keyed s) (w : ℕ) (line : LogLine) :
    Keyed (s.next u db args (.insert w line)) := by
  have hnew : ∀ writer, ∀ r ∈ (s.next u db args (.insert w line)).pending writer,
      r ∈ s.pending writer ∨ writer = w ∧ r.pk = s.nextPk := by
    intro writer r hr
    by_cases hw : writer = w
    · subst hw
      simp only [Tail.next, Function.update_self, List.mem_append, List.mem_singleton] at hr
      rcases hr with hr | rfl
      · exact .inl hr
      · exact .inr ⟨rfl, rfl⟩
    · simp only [Tail.next, Function.update_of_ne hw] at hr
      exact .inl hr
  refine ⟨?_, ?_, ?_, ?_⟩
  · intro writer
    by_cases hw : writer = w
    · subst hw
      simp only [Tail.next, Function.update_self]
      rw [← List.append_assoc, List.map_append, List.nodup_append]
      refine ⟨h.nodup writer, by simp, ?_⟩
      intro k hk k' hk' heq
      obtain ⟨r, hr, rfl⟩ := List.mem_map.mp hk
      have hlt : r.pk < s.nextPk := by
        rcases List.mem_append.mp hr with hr | hr
        · exact h.visible_lt r hr
        · exact h.pending_lt writer r hr
      simp only [List.map_cons, List.map_nil, List.mem_singleton] at hk'
      omega
    · simp only [Tail.next, Function.update_of_ne hw]
      exact h.nodup writer
  · intro writer other hne r hr r' hr'
    rcases hnew writer r hr with hr | ⟨rfl, hr⟩
    · rcases hnew other r' hr' with hr' | ⟨-, hr'⟩
      · exact h.apart writer other hne r hr r' hr'
      · have hlt := h.pending_lt writer r hr
        omega
    · rcases hnew other r' hr' with hr' | ⟨rfl, -⟩
      · have hlt := h.pending_lt other r' hr'
        omega
      · exact absurd rfl hne
  · intro r hr
    exact (h.visible_lt r hr).trans (Nat.lt_succ_self _)
  · intro writer r hr
    have hnext : (s.next u db args (.insert w line)).nextPk = s.nextPk + 1 := rfl
    rcases hnew writer r hr with hr | ⟨-, hr⟩
    · have hlt := h.pending_lt writer r hr
      omega
    · omega

theorem mem_pending_emptied {s : Tail} {w writer : ℕ} {r : LogRecord}
    (hr : r ∈ Function.update s.pending w [] writer) : writer ≠ w ∧ r ∈ s.pending writer := by
  by_cases hw : writer = w
  · subst hw
    simp at hr
  · rw [Function.update_of_ne hw] at hr
    exact ⟨hw, hr⟩

theorem Keyed.commit {s : Tail} (h : Keyed s) (w : ℕ) :
    Keyed (s.next u db args (.commit w)) := by
  refine ⟨?_, ?_, ?_, ?_⟩
  · intro writer
    by_cases hw : writer = w
    · subst hw
      simp only [Tail.next, Function.update_self, List.append_nil]
      exact h.nodup writer
    · simp only [Tail.next, Function.update_of_ne hw]
      rw [List.map_append, List.nodup_append]
      refine ⟨h.nodup w, ?_, ?_⟩
      · have hboth := h.nodup writer
        rw [List.map_append, List.nodup_append] at hboth
        exact hboth.2.1
      · intro k hk k' hk' heq
        obtain ⟨r, hr, rfl⟩ := List.mem_map.mp hk
        obtain ⟨r', hr', rfl⟩ := List.mem_map.mp hk'
        rcases List.mem_append.mp hr with hr | hr
        · have hboth := h.nodup writer
          rw [List.map_append, List.nodup_append] at hboth
          exact hboth.2.2 _ (List.mem_map_of_mem hr) _ (List.mem_map_of_mem hr') heq
        · exact h.apart w writer (Ne.symm hw) r hr r' hr' heq
  · intro writer other hne r hr r' hr'
    exact h.apart writer other hne r (mem_pending_emptied hr).2 r' (mem_pending_emptied hr').2
  · intro r hr
    rcases List.mem_append.mp hr with hr | hr
    · exact h.visible_lt r hr
    · exact h.pending_lt w r hr
  · intro writer r hr
    exact h.pending_lt writer r (mem_pending_emptied hr).2

theorem Keyed.rollback {s : Tail} (h : Keyed s) (w : ℕ) :
    Keyed (s.next u db args (.rollback w)) := by
  refine ⟨?_, ?_, h.visible_lt, ?_⟩
  · intro writer
    by_cases hw : writer = w
    · subst hw
      have hboth := h.nodup writer
      simp only [Tail.next, Function.update_self, List.append_nil]
      rw [List.map_append, List.nodup_append] at hboth
      exact hboth.1
    · simp only [Tail.next, Function.update_of_ne hw]
      exact h.nodup writer
  · intro writer other hne r hr r' hr'
    exact h.apart writer other hne r (mem_pending_emptied hr).2 r' (mem_pending_emptied hr').2
  · intro writer r hr
    exact h.pending_lt writer r (mem_pending_emptied hr).2

theorem Keyed.next {s : Tail} (h : Keyed s) (event : TailEvent) :
    Keyed (s.next u db args event) := by
  cases event with
  | insert w line => exact h.insert w line
  | commit w => exact h.commit w
  | rollback w => exact h.rollback w
  | call =>
    simp only [Tail.next]
    split
    · exact h
    · exact ⟨h.nodup, h.apart, h.visible_lt, h.pending_lt⟩

theorem Keyed.visible {s : Tail} (h : Keyed s) : (s.visible.map LogRecord.pk).Nodup := by
  have hboth := h.nodup 0
  rw [List.map_append, List.nodup_append] at hboth
  exact hboth.1

/-! ## A client that keeps up -/

/-- The newest records, a page of them. -/
def newestPage (u : Unicode) (db : LogDb) (args : SearchArgs) (visible : List LogRecord) :
    List LogRecord :=
  ((visible.filter (Matches u db args)).insertionSort newerFirst).take (pageSize args)

/-- An event goes well with the cursor. A transaction commits no matching record at or below the
cursor of a client that has begun. A call without a cursor, if it finds anything, finds its oldest
record under the largest key, and leaves out no record below it that was committed since the
first call. -/
def TailEvent.Clear (u : Unicode) (db : LogDb) (args : SearchArgs) (s : Tail) : TailEvent → Prop
  | .insert _ _ => True
  | .commit w => s.pages ≠ [] → ∀ c, parseCursor s.after = .ok (some c) →
      ∀ r ∈ s.pending w, Matches u db args r = true → c < (r.pk : ℤ)
  | .rollback _ => True
  | .call => parseCursor s.after = .ok none →
      ∀ oldest, (newestPage u db args s.visible).getLast? = some oldest →
        (∀ r ∈ newestPage u db args s.visible, r.pk ≤ oldest.pk) ∧
        ∀ r ∈ s.late, Matches u db args r = true → r ∉ newestPage u db args s.visible →
          oldest.pk < r.pk

/-- What the client has been given is what it has passed. -/
structure Followed (u : Unicode) (db : LogDb) (args : SearchArgs) (s : Tail) : Prop where
  keyed : Keyed s
  late_visible : ∀ r ∈ s.late, r ∈ s.visible
  late_start : s.pages = [] → s.late = []
  repeats : (s.returned.map LogRecord.pk).Nodup
  nothing : parseCursor s.after = .ok none → s.returned = []
  passed : ∀ c, parseCursor s.after = .ok (some c) →
    (∀ r ∈ s.returned, (r.pk : ℤ) ≤ c) ∧
    ∀ r ∈ s.late, Matches u db args r = true → (r.pk : ℤ) ≤ c → r ∈ s.returned

theorem followed_start (first : Value) : Followed u db args { after := first } where
  keyed := keyed_start first
  late_visible _ hr := absurd hr List.not_mem_nil
  late_start _ := rfl
  repeats := List.nodup_nil
  nothing _ := rfl
  passed _ _ := ⟨fun _ hr => absurd hr List.not_mem_nil, fun _ hr => absurd hr List.not_mem_nil⟩

/-! ## Calls -/

theorem parseCursor_nonneg {value : Value} {c : ℤ} (h : parseCursor value = .ok (some c)) :
    0 ≤ c := by
  unfold parseCursor at h
  split at h
  · cases h
  · cases hint : parseInt value "after_id".toList 0 none with
    | error e => rw [hint] at h; cases h
    | ok n =>
      rw [hint] at h
      cases h
      unfold parseInt at hint
      split at hint
      · cases hint
      · cases hint
      · split at hint
        · cases hint
        · rename_i hmin
          cases hint
          exact not_lt.mp hmin

theorem parseCursor_ofNext {next : Option ℤ} (h : ∀ k, next = some k → 0 ≤ k) :
    parseCursor (.ofNext next) = .ok next := by
  cases next with
  | none => rfl
  | some k =>
    have hk : ¬k < 0 := not_lt.mpr (h k rfl)
    simp [parseCursor, Value.ofNext, Value.ofInt, parseInt, hk, Except.map]

section Page

variable {cursor : Option ℤ} {visible : List LogRecord} {page : Page} {r : LogRecord}

theorem mem_matched : r ∈ matched u db args cursor visible ↔
    r ∈ visible ∧ Matches u db args r = true ∧ ∀ c, cursor = some c → c < (r.pk : ℤ) := by
  unfold matched
  rw [List.mem_filter, Bool.and_eq_true]
  cases cursor with
  | none => simp
  | some c => simp

theorem matched_nodup (hkeys : (visible.map LogRecord.pk).Nodup) :
    ((matched u db args cursor visible).map LogRecord.pk).Nodup :=
  hkeys.sublist (List.filter_sublist.map LogRecord.pk)

theorem Answers.mem (h : Answers u db args cursor visible page) (hr : r ∈ page.records) :
    r ∈ visible ∧ Matches u db args r = true ∧ ∀ c, cursor = some c → c < (r.pk : ℤ) := by
  rw [h.records] at hr
  exact mem_matched.mp ((perm_inPageOrder cursor _).mem_iff.mp (List.mem_of_mem_take hr))

theorem Answers.nodup (h : Answers u db args cursor visible page)
    (hkeys : (visible.map LogRecord.pk).Nodup) : (page.records.map LogRecord.pk).Nodup := by
  have hordered := ((perm_inPageOrder cursor (matched u db args cursor visible)).map
    LogRecord.pk).nodup_iff.mpr (matched_nodup hkeys)
  rw [h.records]
  exact hordered.sublist ((List.take_sublist _ _).map LogRecord.pk)

/-- A page that has no more behind it holds every record there is. -/
theorem Answers.all (h : Answers u db args cursor visible page) (hmore : page.hasMore = false)
    (hr : r ∈ visible) (hmatches : Matches u db args r = true)
    (hcursor : ∀ c, cursor = some c → c < (r.pk : ℤ)) : r ∈ page.records := by
  have hperm := perm_inPageOrder cursor (matched u db args cursor visible)
  have hlength := hperm.length_eq.trans_le (h.hasMore hmore)
  rw [h.records, List.take_of_length_le hlength]
  exact hperm.mem_iff.mpr (mem_matched.mpr ⟨hr, hmatches, hcursor⟩)

/-- A page behind a cursor holds every record from there to the next cursor. -/
theorem Answers.next_spec {c : ℤ} (h : Answers u db args (some c) visible page)
    (hkeys : (visible.map LogRecord.pk).Nodup) :
    ∃ k, page.nextAfterId = some k ∧ c ≤ k ∧ (∀ r ∈ page.records, (r.pk : ℤ) ≤ k) ∧
      ∀ r ∈ visible, Matches u db args r = true → c < (r.pk : ℤ) → (r.pk : ℤ) ≤ k →
        r ∈ page.records := by
  have hordered : InKeyOrder (inPageOrder (some c) (matched u db args (some c) visible)) :=
    inKeyOrder_inPageOrder (matched_nodup hkeys) c
  have hnext := h.next
  cases hlast : page.records.getLast? with
  | none =>
    have hnil : page.records = [] := List.getLast?_eq_none_iff.mp hlast
    rw [hlast] at hnext
    refine ⟨c, hnext, le_rfl, ?_, ?_⟩
    · intro r hr
      rw [hnil] at hr
      cases hr
    · intro r _ _ hlt hle
      exact absurd hlt (not_lt.mpr hle)
  | some last =>
    have hrecords := h.records
    have htaken : InKeyOrder page.records := by
      rw [hrecords]
      exact hordered.sublist (List.take_sublist _ _)
    rw [hlast] at hnext
    refine ⟨last.pk, hnext, ?_, ?_, ?_⟩
    · exact ((h.mem (List.mem_of_getLast? hlast)).2.2 c rfl).le
    · intro r hr
      exact_mod_cast htaken.le_last hlast hr
    · intro r hr hmatches hlt hle
      rw [hrecords] at hlast ⊢
      refine hordered.mem_take hlast ?_ (by exact_mod_cast hle)
      refine (perm_inPageOrder (some c) _).mem_iff.mpr (mem_matched.mpr ⟨hr, hmatches, ?_⟩)
      intro c' hc'
      exact Option.some.inj hc' ▸ hlt

/-- A page without a cursor is the page of the newest records. -/
theorem Answers.newest (h : Answers u db args none visible page) :
    page.records = newestPage u db args visible := by
  have hmatched : matched u db args none visible = visible.filter (Matches u db args) := by
    simp [matched]
  rw [h.records, hmatched]
  rfl

end Page

theorem returned_call (s : Tail) (page : Page) (after : Value) :
    ({ s with after := after, pages := s.pages ++ [page] } : Tail).returned =
      s.returned ++ page.records := by
  simp [Tail.returned]

/-- The cursor of an answer passes what the client has been given with it. -/
structure Passes (u : Unicode) (db : LogDb) (args : SearchArgs) (s : Tail) (page : Page) :
    Prop where
  nonneg : ∀ k, page.nextAfterId = some k → 0 ≤ k
  nothing : page.nextAfterId = none → s.returned ++ page.records = []
  passed : ∀ k, page.nextAfterId = some k →
    (∀ r ∈ s.returned ++ page.records, (r.pk : ℤ) ≤ k) ∧
    ∀ r ∈ s.late, Matches u db args r = true → (r.pk : ℤ) ≤ k → r ∈ s.returned ++ page.records

theorem Followed.passes_behind {s : Tail} {c : ℤ} {page : Page} (h : Followed u db args s)
    (hcursor : parseCursor s.after = .ok (some c))
    (ha : Answers u db args (some c) s.visible page) : Passes u db args s page := by
  obtain ⟨k, hk, hck, hpage, hbetween⟩ := ha.next_spec h.keyed.visible
  obtain ⟨hold, hlate⟩ := h.passed c hcursor
  refine ⟨?_, ?_, ?_⟩
  · intro k' hk'
    obtain rfl := Option.some.inj (hk.symm.trans hk')
    exact (parseCursor_nonneg hcursor).trans hck
  · intro hnone
    rw [hk] at hnone
    cases hnone
  · intro k' hk'
    obtain rfl := Option.some.inj (hk.symm.trans hk')
    constructor
    · intro r hr
      rcases List.mem_append.mp hr with hr | hr
      · exact (hold r hr).trans hck
      · exact hpage r hr
    · intro r hr hmatches hle
      by_cases hpast : (r.pk : ℤ) ≤ c
      · exact List.mem_append_left _ (hlate r hr hmatches hpast)
      · exact List.mem_append_right _
          (hbetween r (h.late_visible r hr) hmatches (not_le.mp hpast) hle)

theorem Followed.passes_newest {s : Tail} {page : Page} (h : Followed u db args s)
    (hcursor : parseCursor s.after = .ok none) (ha : Answers u db args none s.visible page)
    (hclear : TailEvent.Clear u db args s .call) : Passes u db args s page := by
  have hnewest := ha.newest
  have hnext := ha.next
  rw [Option.or_none] at hnext
  refine ⟨?_, ?_, ?_⟩
  · intro k hk
    obtain ⟨r, -, rfl⟩ := Option.map_eq_some_iff.mp (hnext.symm.trans hk)
    exact Int.natCast_nonneg r.pk
  · intro hnone
    have hlast := Option.map_eq_none_iff.mp (hnext.symm.trans hnone)
    rw [h.nothing hcursor, List.getLast?_eq_none_iff.mp hlast]
    rfl
  · intro k hk
    obtain ⟨oldest, holdest, rfl⟩ := Option.map_eq_some_iff.mp (hnext.symm.trans hk)
    rw [hnewest] at holdest
    obtain ⟨hunder, hout⟩ := hclear hcursor oldest holdest
    rw [h.nothing hcursor, hnewest, List.nil_append]
    constructor
    · intro r hr
      exact_mod_cast hunder r hr
    · intro r hr hmatches hle
      by_contra hmissing
      have hlt := hout r hr hmatches hmissing
      omega

/-- No record of an answer has been given before. -/
theorem Followed.repeats_answer {s : Tail} {cursor : Option ℤ} {page : Page}
    (h : Followed u db args s) (hcursor : parseCursor s.after = .ok cursor)
    (ha : Answers u db args cursor s.visible page) :
    ((s.returned ++ page.records).map LogRecord.pk).Nodup := by
  have hpage := ha.nodup h.keyed.visible
  cases cursor with
  | none =>
    rw [h.nothing hcursor]
    exact hpage
  | some c =>
    rw [List.map_append, List.nodup_append]
    refine ⟨h.repeats, hpage, ?_⟩
    intro k hk k' hk' heq
    obtain ⟨r, hr, rfl⟩ := List.mem_map.mp hk
    obtain ⟨r', hr', rfl⟩ := List.mem_map.mp hk'
    have hle := (h.passed c hcursor).1 r hr
    have hlt := (ha.mem hr').2.2 c rfl
    omega

/-- After a call the client has passed what it has been given, if it had before. -/
theorem Followed.answer {s : Tail} {cursor : Option ℤ} {page : Page} (h : Followed u db args s)
    (hcursor : parseCursor s.after = .ok cursor) (ha : Answers u db args cursor s.visible page)
    (hclear : TailEvent.Clear u db args s .call) :
    Followed u db args
      { s with after := .ofNext page.nextAfterId, pages := s.pages ++ [page] } := by
  have hpasses : Passes u db args s page := by
    cases cursor with
    | none => exact h.passes_newest hcursor ha hclear
    | some c => exact h.passes_behind hcursor ha
  have hparse := parseCursor_ofNext hpasses.nonneg
  refine ⟨?_, h.late_visible, ?_, ?_, ?_, ?_⟩
  · exact ⟨h.keyed.nodup, h.keyed.apart, h.keyed.visible_lt, h.keyed.pending_lt⟩
  · intro hpages
    simp at hpages
  · rw [returned_call]
    exact h.repeats_answer hcursor ha
  · intro hnone
    rw [hparse] at hnone
    rw [returned_call]
    exact hpasses.nothing (Except.ok.inj hnone)
  · intro k hk
    rw [hparse] at hk
    rw [returned_call]
    exact hpasses.passed k (Except.ok.inj hk)

/-! ## Runs -/

theorem Followed.commit {s : Tail} {w : ℕ} (h : Followed u db args s)
    (hclear : TailEvent.Clear u db args s (.commit w)) :
    Followed u db args (s.next u db args (.commit w)) := by
  refine ⟨h.keyed.next _, ?_, ?_, h.repeats, h.nothing, ?_⟩
  · intro r hr
    by_cases hpages : s.pages = []
    · simp only [Tail.next, hpages, if_pos] at hr ⊢
      exact List.mem_append_left _ (h.late_visible r hr)
    · simp only [Tail.next, if_neg hpages] at hr ⊢
      rcases List.mem_append.mp hr with hr | hr
      · exact List.mem_append_left _ (h.late_visible r hr)
      · exact List.mem_append_right _ hr
  · intro hpages
    have hbefore : s.pages = [] := hpages
    simp only [Tail.next, hbefore, if_pos]
    exact h.late_start hbefore
  · intro c hc
    obtain ⟨hold, hlate⟩ := h.passed c hc
    refine ⟨hold, ?_⟩
    intro r hr hmatches hle
    by_cases hpages : s.pages = []
    · simp only [Tail.next, hpages, if_pos] at hr
      exact hlate r hr hmatches hle
    · simp only [Tail.next, if_neg hpages] at hr
      rcases List.mem_append.mp hr with hr | hr
      · exact hlate r hr hmatches hle
      · exact absurd (hclear hpages c hc r hr hmatches) (not_lt.mpr hle)

theorem Followed.next {s : Tail} {event : TailEvent} (h : Followed u db args s)
    (hclear : event.Clear u db args s) : Followed u db args (s.next u db args event) := by
  cases event with
  | insert w line =>
    exact ⟨h.keyed.next _, h.late_visible, h.late_start, h.repeats, h.nothing, h.passed⟩
  | commit w => exact h.commit hclear
  | rollback w =>
    exact ⟨h.keyed.next _, h.late_visible, h.late_start, h.repeats, h.nothing, h.passed⟩
  | call =>
    cases hanswer : searchRecords u db args s.after s.visible with
    | error e => simpa [Tail.next, hanswer] using h
    | ok page =>
      obtain ⟨cursor, hcursor, ha⟩ := searchRecords_ok hanswer
      simpa [Tail.next, hanswer] using h.answer hcursor ha hclear

/-- Events that all go well with the cursor when they come. -/
def ClearFrom (u : Unicode) (db : LogDb) (args : SearchArgs) (s : Tail) : List TailEvent → Prop
  | [] => True
  | event :: events =>
      event.Clear u db args s ∧ ClearFrom u db args (s.next u db args event) events

theorem clearFrom_append {s : Tail} {before after : List TailEvent}
    (h : ClearFrom u db args s (before ++ after)) : ClearFrom u db args s before := by
  induction before generalizing s with
  | nil => trivial
  | cons event before ih => exact ⟨h.1, ih h.2⟩

theorem Followed.foldl {s : Tail} {events : List TailEvent} (h : Followed u db args s)
    (hclear : ClearFrom u db args s events) :
    Followed u db args (events.foldl (Tail.next u db args) s) := by
  induction events generalizing s with
  | nil => exact h
  | cons event events ih => exact ih (h.next hclear.1) hclear.2

/-- The client has not been given a record twice. -/
def NoRepeat (s : Tail) : Prop := (s.returned.map LogRecord.pk).Nodup

/-- If the client calls now and is told that there is no more, it has been given every matching
record that was committed since its first call. -/
def CaughtUp (u : Unicode) (db : LogDb) (args : SearchArgs) (s : Tail) : Prop :=
  ∀ page, searchRecords u db args s.after s.visible = .ok page → page.hasMore = false →
    ∀ r ∈ s.late, Matches u db args r = true → r ∈ (s.next u db args .call).returned

theorem Followed.caughtUp {s : Tail} (h : Followed u db args s) : CaughtUp u db args s := by
  intro page hanswer hmore r hr hmatches
  have hreturned : (s.next u db args .call).returned = s.returned ++ page.records := by
    simp [Tail.next, hanswer, returned_call]
  obtain ⟨cursor, hcursor, ha⟩ := searchRecords_ok hanswer
  rw [hreturned]
  by_cases hpast : ∀ c, cursor = some c → c < (r.pk : ℤ)
  · exact List.mem_append_right _ (ha.all hmore (h.late_visible r hr) hmatches hpast)
  · push Not at hpast
    obtain ⟨c, rfl, hle⟩ := hpast
    exact List.mem_append_left _ ((h.passed c hcursor).2 r hr hmatches hle)

/-- A tail repeats no record, and once the client has caught up it has skipped none, at every
point of a run whose events all go well with the cursor. -/
theorem tail_repeats_and_skips_nothing {first : Value} {before after : List TailEvent}
    (hclear : ClearFrom u db args { after := first } (before ++ after)) :
    NoRepeat (Tail.run u db args first before) ∧
      CaughtUp u db args (Tail.run u db args first before) := by
  have hfollowed := (followed_start first).foldl (clearFrom_append hclear)
  exact ⟨hfollowed.repeats, hfollowed.caughtUp⟩

/-! ## Two writers -/

/-- A database whose comparisons are exact. -/
def exactDb : LogDb where
  icontains needle text := decide (needle <:+: text)
  startsWith head text := head.isPrefixOf text

def tunedLine : LogLine where
  ts := 1
  levelNo := 30
  logger := "apps".toList
  message := "tuned".toList

def keyedLine : LogLine where
  ts := 2
  levelNo := 30
  logger := "apps".toList
  message := "keyed".toList

/-- A writer that commits between two calls of a client that starts with a cursor. -/
theorem one_writer_followed :
    NoRepeat (Tail.run .ascii exactDb {} (.ofInt 0) [.insert 1 tunedLine, .call, .commit 1]) ∧
      CaughtUp .ascii exactDb {}
        (Tail.run .ascii exactDb {} (.ofInt 0) [.insert 1 tunedLine, .call, .commit 1]) := by
  have hclear : ClearFrom .ascii exactDb {} { after := .ofInt 0 }
      ([.insert 1 tunedLine, .call, .commit 1] ++ [.call]) := by
    refine ⟨trivial, ?_, ?_, ?_, trivial⟩
    · intro hnone
      cases hnone
    · intro _ c hcursor r hr _
      cases hcursor
      obtain rfl := List.mem_singleton.mp hr
      decide
    · intro hnone
      cases hnone
  exact tail_repeats_and_skips_nothing hclear

/-- Two writers take their keys in turn, and the second commits first. -/
def overtaking : List TailEvent :=
  [.insert 1 tunedLine, .insert 2 keyedLine, .call, .commit 2, .call, .commit 1]

theorem overtaken_record_skipped :
    ¬CaughtUp .ascii exactDb {} (Tail.run .ascii exactDb {} (.ofInt 0) overtaking) := by
  intro h
  have hanswer : searchRecords .ascii exactDb {}
      (Tail.run .ascii exactDb {} (.ofInt 0) overtaking).after
      (Tail.run .ascii exactDb {} (.ofInt 0) overtaking).visible =
        .ok ⟨[], 0, false, some 2, 0, ⟨[], [], [], [], [], none, none⟩, some 2, 50⟩ := rfl
  have hskipped := h _ hanswer rfl { tunedLine with pk := 1 } (by decide +kernel) (by decide +kernel)
  revert hskipped
  decide +kernel

/-- A client that starts without a cursor is given the newer of two records twice. -/
theorem newest_record_repeated :
    ¬NoRepeat (Tail.run .ascii exactDb {} .none
      [.insert 1 tunedLine, .insert 1 keyedLine, .commit 1, .call, .call]) := by
  unfold NoRepeat
  decide +kernel

end CwStation.Telemetry
